import DocTree.Codec.Encode
import DocTree.Proofs.Node.Proper
/-!
How proper trees are written: encoding cannot fail, and gives each element as its tag and contents.
What is written for a child is less high than what is written for the element.
-/

namespace DocTree

theorem of_bind_ok {ε α β : Type} {x : Except ε α} {f : α → Except ε β} {b : β} (ran : x >>= f = .ok b) :
    ∃ a, x = .ok a ∧ f a = .ok b := by
  cases x with
  | error e => cases ran
  | ok a => exact ⟨a, rfl, ran⟩

theorem of_map_ok {ε α β : Type} {x : Except ε α} {f : α → β} {b : β} (ran : f <$> x = .ok b) :
    ∃ a, x = .ok a ∧ f a = b := by
  cases x with
  | error e => cases ran
  | ok a => exact ⟨a, rfl, Except.ok.inj ran⟩

theorem of_mapError_ok {ε ε' α : Type} {f : ε → ε'} {x : Except ε α} {a : α} (known : x.mapError f = .ok a) :
    x = .ok a := by
  cases x with
  | error e => cases known
  | ok b => exact congrArg Except.ok (Except.ok.inj known)

namespace Codec

/-- What an element is written as if nothing in it keeps it from being written. -/
def elementJson (n : Node) : Json := n.fold shapeJson

theorem elementJson_mk (e : Element (List Node) (Mapping Node)) :
    elementJson (.mk e) = shapeJson (e.mapChildren elementJson) := Node.fold_mapChildren shapeJson e

section

variable {ε α β γ : Type}

theorem mapM_ok {f : α → Except ε β} {g : α → β} {l : List α} (each : ∀ a ∈ l, f a = .ok (g a)) :
    l.mapM f = .ok (l.map g) := by
  induction l with
  | nil => rfl
  | cons a rest ih =>
    have later := ih fun b member => each b (List.mem_cons_of_mem _ member)
    rw [List.mapM_cons, each a List.mem_cons_self, later]
    rfl

theorem mapM_congr {f g : γ → Except ε α} {items : List γ} (same : ∀ c ∈ items, f c = g c) :
    items.mapM f = items.mapM g := by
  induction items with
  | nil => rfl
  | cons first rest ih =>
    rw [List.mapM_cons, List.mapM_cons, same first List.mem_cons_self,
      ih fun c member => same c (List.mem_cons_of_mem first member)]

variable {encoded : β → Encoded Json} {written : β → Json}

theorem listOfEncoded_map {bs : List β} (each : ∀ b ∈ bs, encoded b = .ok (written b)) :
    listOfEncoded (bs.map encoded) = .ok (bs.map written) := by
  rw [listOfEncoded, List.mapM_map]
  exact mapM_ok each

theorem entriesOfEncoded_map {m : Mapping β}
    (each : ∀ entry ∈ m, encoded entry.2 = .ok (written entry.2)) :
    entriesOfEncoded (m.map fun (key, b) => (key, encoded b)) =
      .ok (m.map fun (key, b) => (key, written b)) := by
  rw [entriesOfEncoded, List.mapM_map]
  refine mapM_ok fun entry member => ?_
  have value := each entry member
  simp only [Function.comp_apply, entryOfEncoded, value]
  rfl

/-- An element that has a tag is encoded slot by slot, in the order in which it is written. -/
theorem encodeShape_traverse {e : Element (List (Encoded Json)) (Mapping (Encoded Json))}
    (inner : e.kind ≠ .document) (named : e.kind ≠ .list) :
    encodeShape e = shapeJson <$> e.traverse .written listOfEncoded entriesOfEncoded := by
  cases e with
  | document => exact absurd rfl inner
  | list => exact absurd rfl named
  | _ => rfl

theorem encodeShape_mapChildren {e : Element (List β) (Mapping β)} (inner : e.kind ≠ .document)
    (named : e.kind ≠ .list) (each : ∀ b ∈ e.children, encoded b = .ok (written b)) :
    encodeShape (e.mapChildren encoded) = .ok (shapeJson (e.mapChildren written)) := by
  have sequences : ∀ bs, .sequence bs ∈ e.slots → (Account.ok EncodeFault).Yields
      (listOfEncoded (bs.map encoded)) fun _ js => id js = bs.map written := fun bs slot =>
    ⟨_, listOfEncoded_map fun b member => each b (Element.sequence_children slot member), rfl⟩
  have mappings : ∀ m, .mapping m ∈ e.slots → (Account.ok EncodeFault).Yields
      (entriesOfEncoded (m.map fun (key, b) => (key, encoded b)))
      fun _ entries => id entries = m.map fun (key, b) => (key, written b) := fun m slot =>
    ⟨_, entriesOfEncoded_map fun entry member => each entry.2 (Element.mapping_children slot member),
      rfl⟩
  obtain ⟨e', traversed, eq⟩ := Element.yields .written named sequences mappings
  rw [Element.map_id] at eq
  rw [encodeShape_traverse (by rwa [Element.kind_mapChildren]) (by rwa [Element.kind_mapChildren]),
    Element.mapChildren, traversed, eq]
  rfl

end

theorem encodeElement_eq {n : Node} (proper : n.Proper) : encodeElement n = .ok (elementJson n) := by
  induction proper with
  | @mk e inner named _ ih =>
    rw [encodeElement, Node.fold_mapChildren, elementJson_mk]
    exact encodeShape_mapChildren inner named ih

def treeJson : Tree → Json
  | .node (.mk (.document version metadata blocks)) =>
    documentJson version (metadata.map fun (key, n) => (key, elementJson n)) (blocks.map elementJson)
  | .node n => elementJson n
  | .list ns => .arr (ns.map elementJson)

theorem treeJson_element {e : Element (List Node) (Mapping Node)} (inner : e.kind ≠ .document) :
    treeJson (.node (.mk e)) = elementJson (.mk e) := by
  cases e with
  | document => exact absurd rfl inner
  | _ => rfl

theorem encode_eq {t : Tree} (proper : t.Proper) : encode t = .ok (treeJson t) := by
  cases t with
  | list ns =>
    rw [encode, mapM_ok fun n member => encodeElement_eq (proper n member)]
    rfl
  | node n =>
    obtain ⟨e⟩ := n
    obtain ⟨named, below⟩ := proper
    by_cases root : e.kind = .document
    · obtain ⟨version, metadata, blocks, rfl⟩ := Element.eq_document root
      have values := entriesOfEncoded_map (m := metadata) fun entry member =>
        encodeElement_eq (below entry.2 (Element.mapping_children (by simp [Element.slots]) member))
      have content := mapM_ok (l := blocks) fun n member =>
        encodeElement_eq (below n (Element.sequence_children (by simp [Element.slots]) member))
      rw [encode, values, content]
      rfl
    · have element := encodeElement_eq (.mk root named below)
      cases e with
      | document => exact absurd rfl root
      | _ => exact element

theorem heightItems_le_iff {items : List Json} {k : Nat} :
    Json.heightItems items ≤ k ↔ ∀ j ∈ items, j.height ≤ k := by
  induction items with
  | nil => simp [Json.heightItems]
  | cons first rest ih => rw [Json.heightItems, Nat.max_le, ih, List.forall_mem_cons]

theorem heightMembers_le_iff {members : List (Text × Json)} {k : Nat} :
    Json.heightMembers members ≤ k ↔ ∀ entry ∈ members, entry.2.height ≤ k := by
  induction members with
  | nil => simp [Json.heightMembers]
  | cons first rest ih => rw [Json.heightMembers, Nat.max_le, ih, List.forall_mem_cons]

theorem height_lt_arr {items : List Json} {j : Json} (member : j ∈ items) :
    j.height < (Json.arr items).height :=
  Nat.lt_succ_of_le (heightItems_le_iff.mp (Nat.le_refl _) j member)

theorem height_lt_obj {members : List (Text × Json)} {key : Text} {j : Json}
    (member : (key, j) ∈ members) : j.height < (Json.obj members).height :=
  Nat.lt_succ_of_le (heightMembers_le_iff.mp (Nat.le_refl _) (key, j) member)

section

variable {s : List Json} {j : Json}

theorem height_lt_of_mem {parts : List Json} {part : Json} (inside : j.height < part.height)
    (member : part ∈ parts) : j.height < (Json.arr parts).height :=
  Nat.lt_trans inside (height_lt_arr member)

theorem height_lt_citationJson {c : Citation (List Json)} (own : s ∈ c.sequences) (member : j ∈ s) :
    j.height < (citationJson c).height := by
  have inside := height_lt_arr member
  simp only [Citation.sequences, List.mem_cons, List.not_mem_nil, or_false] at own
  rcases own with rfl | rfl
  · exact Nat.lt_trans inside (height_lt_obj (.tail _ (.head _)))
  · exact Nat.lt_trans inside (height_lt_obj (.tail _ (.tail _ (.head _))))

theorem height_lt_captionJson {c : Caption (List Json)} (own : s ∈ c.sequences) (member : j ∈ s) :
    j.height < (captionJson c).height := by
  obtain ⟨long, short⟩ := c
  refine height_lt_of_mem (height_lt_arr member) ?_
  cases short <;> simpa [Caption.sequences] using own

theorem height_lt_rowJson {r : Row (List Json)} (own : s ∈ r.sequences) (member : j ∈ s) :
    j.height < (rowJson r).height := by
  obtain ⟨c, inRow, rfl⟩ := List.mem_map.mp own
  have inCell : j.height < (cellJson c).height :=
    height_lt_of_mem (height_lt_arr member) (by simp)
  exact height_lt_of_mem (height_lt_of_mem inCell (List.mem_map_of_mem inRow)) (by simp)

theorem height_lt_rows {rs : List (Row (List Json))} (own : s ∈ rs.flatMap (·.sequences))
    (member : j ∈ s) : j.height < (Json.arr (rs.map rowJson)).height := by
  obtain ⟨r, inRows, inRow⟩ := List.mem_flatMap.mp own
  exact height_lt_of_mem (height_lt_rowJson inRow member) (List.mem_map_of_mem inRows)

theorem height_lt_rowGroupJson {g : RowGroup (List Json)} (own : s ∈ g.sequences) (member : j ∈ s) :
    j.height < (rowGroupJson g).height :=
  height_lt_of_mem (height_lt_rows own member) (by simp)

theorem height_lt_sectionJson {part : Section (List Json)} (own : s ∈ part.sequences)
    (member : j ∈ s) : j.height < (sectionJson part).height := by
  rcases List.mem_append.mp own with own | own
  · exact height_lt_of_mem (height_lt_rows own member) (by simp)
  · exact height_lt_of_mem (height_lt_rows own member) (by simp)

theorem height_lt_tableJson {t : Table (List Json)} (own : s ∈ t.sequences) (member : j ∈ s) :
    j.height < (tableJson t).height := by
  simp only [Table.sequences, List.mem_append, List.mem_flatMap] at own
  rcases own with ((own | own) | ⟨part, inTable, own⟩) | own
  · exact height_lt_of_mem (height_lt_captionJson own member) (by simp)
  · exact height_lt_of_mem (height_lt_rowGroupJson own member) (by simp)
  · have inSections := height_lt_of_mem (height_lt_sectionJson own member)
      (List.mem_map_of_mem (f := sectionJson) inTable)
    exact height_lt_of_mem inSections (by simp)
  · exact height_lt_of_mem (height_lt_rowGroupJson own member) (by simp)

theorem height_lt_definitionJson {d : Definition (List Json)} (own : s ∈ d.sequences)
    (member : j ∈ s) : j.height < (definitionJson d).height := by
  rcases List.mem_cons.mp own with rfl | own
  · exact height_lt_of_mem (height_lt_arr member) (by simp)
  · have inMeanings := height_lt_of_mem (height_lt_arr member) (List.mem_map_of_mem (f := Json.arr) own)
    exact height_lt_of_mem inMeanings (by simp)

theorem height_lt_shapeJson {e : Element (List Json) (Mapping Json)} (inner : e.kind ≠ .document)
    (child : j ∈ e.children) : j.height < (shapeJson e).height := by
  have inContents : ∃ c, contentsJson? e = some c ∧ j.height < c.height := by
    obtain ⟨slot, own, member⟩ := List.mem_flatMap.mp child
    cases e with
    | document => exact absurd rfl inner
    | metaBool | text | mark | verbatim | raw | math | list => exact absurd own List.not_mem_nil
    | metaMap entries =>
      obtain rfl := List.mem_singleton.mp own
      obtain ⟨entry, inside, rfl⟩ := List.mem_map.mp member
      exact ⟨_, rfl, height_lt_obj inside⟩
    | wrap kind bs =>
      obtain rfl := List.mem_singleton.mp own
      exact ⟨_, rfl, height_lt_arr member⟩
    | header level a bs | box kind a bs | quoted style bs | target kind a bs url title =>
      obtain rfl := List.mem_singleton.mp own
      exact ⟨_, rfl, height_lt_of_mem (height_lt_arr member) (by simp [Node.members])⟩
    | items kind parts =>
      obtain ⟨s, part, rfl⟩ := List.mem_map.mp own
      exact ⟨_, rfl, height_lt_of_mem (height_lt_arr member) (List.mem_map_of_mem part)⟩
    | orderedList numbering parts =>
      obtain ⟨s, part, rfl⟩ := List.mem_map.mp own
      have inParts := height_lt_of_mem (height_lt_arr member) (List.mem_map_of_mem (f := Json.arr) part)
      exact ⟨_, rfl, height_lt_of_mem inParts (by simp)⟩
    | definitionList parts =>
      obtain ⟨s, part, rfl⟩ := List.mem_map.mp own
      obtain ⟨d, inParts, part⟩ := List.mem_flatMap.mp part
      have inDefinition := height_lt_definitionJson part member
      exact ⟨_, rfl, height_lt_of_mem inDefinition (List.mem_map_of_mem inParts)⟩
    | table t =>
      obtain ⟨s, part, rfl⟩ := List.mem_map.mp own
      exact ⟨_, rfl, height_lt_tableJson part member⟩
    | figure a c bs =>
      obtain ⟨s, part, rfl⟩ := List.mem_map.mp own
      rcases List.mem_append.mp part with part | part
      · exact ⟨_, rfl, height_lt_of_mem (height_lt_captionJson part member) (by simp)⟩
      · obtain rfl := List.mem_singleton.mp part
        exact ⟨_, rfl, height_lt_of_mem (height_lt_arr member) (by simp [Node.members])⟩
    | cite citations bs =>
      obtain ⟨s, part, rfl⟩ := List.mem_map.mp own
      rcases List.mem_append.mp part with part | part
      · obtain ⟨c, inCitations, part⟩ := List.mem_flatMap.mp part
        have inList := height_lt_of_mem (height_lt_citationJson part member)
          (List.mem_map_of_mem (f := citationJson) inCitations)
        exact ⟨_, rfl, height_lt_of_mem inList (by simp)⟩
      · obtain rfl := List.mem_singleton.mp part
        exact ⟨_, rfl, height_lt_of_mem (height_lt_arr member) (by simp [Node.members])⟩
  obtain ⟨c, contents, inside⟩ := inContents
  rw [shapeJson, contents]
  exact Nat.lt_trans inside (height_lt_obj (List.mem_cons_of_mem _ List.mem_cons_self))

end

end Codec

end DocTree
