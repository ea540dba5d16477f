import DocTree.Proofs.Codec.Written
/-!
Which trees can be written: among those without a list in them, the ones that have no document below
the root. If there is one, that is what keeps the tree from being written.
-/

namespace DocTree

/-- A node is found in another one: it is that one itself, or found in one of its children. -/
inductive Node.Occurs (m : Node) : Node → Prop
  | here : Occurs m m
  | deeper {e : Element (List Node) (Mapping Node)} {n : Node} (child : n ∈ e.children)
      (inside : Occurs m n) : Occurs m (.mk e)

theorem Node.occurs_mk {m : Node} {e : Element (List Node) (Mapping Node)} :
    m.Occurs (.mk e) ↔ m = .mk e ∨ ∃ n ∈ e.children, m.Occurs n := by
  constructor
  · intro h
    cases h with
    | here => exact .inl rfl
    | deeper child inside => exact .inr ⟨_, child, inside⟩
  · rintro (rfl | ⟨n, child, inside⟩)
    · exact .here
    · exact .deeper child inside

namespace Tree

/-- The nodes at the top: the children of the root, or the members of the list. -/
def top : Tree → List Node
  | node root => root.element.children
  | list nodes => nodes

/-- A node is found strictly below the root. -/
def Holds (t : Tree) (m : Node) : Prop := ∃ n ∈ t.top, m.Occurs n

/-- No list stands in the place of an element. -/
structure Named (t : Tree) : Prop where
  root : ∀ n, t = .node n → n.element.kind ≠ .list
  below : ∀ m, t.Holds m → m.element.kind ≠ .list

end Tree

theorem Node.proper_iff_occurs (n : Node) :
    n.Proper ↔ ∀ m : Node, m.Occurs n → m.element.kind ≠ .document ∧ m.element.kind ≠ .list := by
  induction n using Node.induction with
  | step e ih =>
    constructor
    · rintro ⟨inner, named, below⟩ m found
      rcases occurs_mk.mp found with rfl | ⟨n, child, inside⟩
      · exact ⟨inner, named⟩
      · exact (ih n child).mp (below n child) m inside
    · intro each
      obtain ⟨inner, named⟩ := each (.mk e) .here
      refine .mk inner named fun n child => (ih n child).mpr fun m inside => ?_
      exact each m (.deeper child inside)

theorem Tree.proper_iff_holds (t : Tree) :
    t.Proper ↔ t.Named ∧ ∀ m, t.Holds m → m.element.kind ≠ .document := by
  have atTop : (∀ n ∈ t.top, n.Proper) ↔
      ∀ m, t.Holds m → m.element.kind ≠ .document ∧ m.element.kind ≠ .list := by
    constructor
    · rintro proper m ⟨n, member, found⟩
      exact n.proper_iff_occurs.mp (proper n member) m found
    · intro each n member
      exact n.proper_iff_occurs.mpr fun m found => each m ⟨n, member, found⟩
  cases t with
  | node n =>
    obtain ⟨e⟩ := n
    constructor
    · rintro ⟨named, below⟩
      have each := atTop.mp below
      refine ⟨⟨?_, fun m found => (each m found).2⟩, fun m found => (each m found).1⟩
      rintro _ ⟨⟩
      exact named
    · rintro ⟨named, inner⟩
      exact ⟨named.root _ rfl, atTop.mpr fun m found => ⟨inner m found, named.below m found⟩⟩
  | list ns =>
    constructor
    · intro below
      have each := atTop.mp below
      exact ⟨⟨nofun, fun m found => (each m found).2⟩, fun m found => (each m found).1⟩
    · rintro ⟨named, inner⟩
      exact atTop.mpr fun m found => ⟨inner m found, named.below m found⟩

namespace Codec

def orDocument : Account Encoded Unit where
  Yields x Q := x = .error .innerDocument ∨ ∃ a, x = .ok a ∧ Q () a
  pure h := .inr ⟨_, rfl, h ()⟩
  bind := by
    rintro α β x f Q Q' (rfl | ⟨a, rfl, known⟩) later
    · exact .inl rfl
    · rcases later a with failed | ⟨b, done, implied⟩
      · exact .inl failed
      · exact .inr ⟨b, done, implied known⟩

section

variable {β : Type} {encoded : β → Encoded Json}

def Settled (x : Encoded Json) : Prop := x = .error .innerDocument ∨ ∃ j, x = .ok j

theorem listOfEncoded_yields {bs : List β} (each : ∀ b ∈ bs, Settled (encoded b)) :
    orDocument.Yields (listOfEncoded (bs.map encoded)) fun _ js => js.map .ok = bs.map encoded := by
  have known : ∀ b ∈ bs, orDocument.Yields (id (encoded b)) fun _ j => .ok j = encoded b := by
    intro b member
    rcases each b member with failed | ⟨j, written⟩
    · exact .inl failed
    · exact .inr ⟨j, written, written.symm⟩
  exact orDocument.mapM known

theorem entriesOfEncoded_yields {m : Mapping β} (each : ∀ entry ∈ m, Settled (encoded entry.2)) :
    orDocument.Yields (entriesOfEncoded (m.map fun (key, b) => (key, encoded b))) fun _ entries =>
      (entries.map fun (key, j) => (key, .ok j)) = m.map fun (key, b) => (key, encoded b) := by
  have known : ∀ entry ∈ m, orDocument.Yields (entryOfEncoded (entry.1, encoded entry.2))
      fun _ written => (written.1, .ok written.2) = (entry.1, encoded entry.2) := by
    intro entry member
    rcases each entry member with failed | ⟨j, written⟩
    · exact .inl (by simp only [entryOfEncoded, failed]; rfl)
    · exact .inr ⟨(entry.1, j), by simp only [entryOfEncoded, written]; rfl, by rw [written]⟩
  exact orDocument.mapM known

theorem encodeShape_cases {e : Element (List β) (Mapping β)} (named : e.kind ≠ .list)
    (each : ∀ b ∈ e.children, Settled (encoded b)) :
    encodeShape (e.mapChildren encoded) = .error .innerDocument ∨
      e.kind ≠ .document ∧ ∀ b ∈ e.children, ∃ j, encoded b = .ok j := by
  by_cases isDocument : e.kind = .document
  · obtain ⟨version, metadata, blocks, rfl⟩ := Element.eq_document isDocument
    exact .inl rfl
  · have joined : encodeShape (e.mapChildren encoded) =
        shapeJson <$> (e.mapChildren encoded).traverse .written listOfEncoded entriesOfEncoded := by
      cases e with
      | document => exact absurd rfl isDocument
      | list => exact absurd rfl named
      | _ => rfl
    have traversed := Element.yields .written named
      (fun bs slot => listOfEncoded_yields fun b member => each b (Element.sequence_children slot member))
      fun m slot => entriesOfEncoded_yields fun entry member =>
        each entry.2 (Element.mapping_children slot member)
    rcases traversed with failed | ⟨e', _, same⟩
    · refine .inl ?_
      rw [joined, Element.mapChildren, failed]
      rfl
    · refine .inr ⟨isDocument, fun b child => ?_⟩
      have written : e.children.map encoded = e'.children.map .ok := by
        rw [← Element.children_mapChildren, ← Element.children_mapChildren]
        exact congrArg Element.children same.symm
      have member : encoded b ∈ e'.children.map .ok := written ▸ List.mem_map_of_mem child
      obtain ⟨j, _, eq⟩ := List.mem_map.mp member
      exact ⟨j, eq.symm⟩

end

theorem encodeElement_cases {n : Node} (named : ∀ m : Node, m.Occurs n → m.element.kind ≠ .list) :
    encodeElement n = .error .innerDocument ∨ n.Proper := by
  induction n using Node.induction with
  | step e ih =>
    have each : ∀ n ∈ e.children, encodeElement n = .error .innerDocument ∨ n.Proper :=
      fun n child => ih n child fun m inside => named m (.deeper child inside)
    have settled : ∀ n ∈ e.children, Settled (encodeElement n) := by
      intro n child
      rcases each n child with failed | proper
      · exact .inl failed
      · exact .inr ⟨_, encodeElement_eq proper⟩
    rcases encodeShape_cases (named _ .here) settled with failed | ⟨inner, written⟩
    · refine .inl ?_
      rw [encodeElement, Node.fold_mapChildren]
      exact failed
    · refine .inr (.mk inner (named _ .here) fun n child => ?_)
      rcases each n child with failed | proper
      · obtain ⟨j, done⟩ := written n child
        cases failed.symm.trans done
      · exact proper

section

variable {ns : List Node}

theorem settled_of_named {n : Node} (named : ∀ m : Node, m.Occurs n → m.element.kind ≠ .list) :
    Settled (encodeElement n) := by
  rcases encodeElement_cases named with failed | proper
  · exact .inl failed
  · exact .inr ⟨_, encodeElement_eq proper⟩

theorem proper_of_written {n : Node} (named : ∀ m : Node, m.Occurs n → m.element.kind ≠ .list) {j : Json}
    (written : encodeElement n = .ok j) : n.Proper := by
  rcases encodeElement_cases named with failed | proper
  · cases failed.symm.trans written
  · exact proper

theorem encodeElements_yields
    (named : ∀ n ∈ ns, ∀ m : Node, m.Occurs n → m.element.kind ≠ .list) :
    orDocument.Yields (ns.mapM encodeElement) fun _ _ => ∀ n ∈ ns, n.Proper := by
  have list := listOfEncoded_yields fun n member => settled_of_named (named n member)
  rw [listOfEncoded, List.mapM_map] at list
  refine orDocument.imp list fun _ js same n member => ?_
  have written : encodeElement n ∈ js.map .ok := same ▸ List.mem_map_of_mem member
  obtain ⟨j, _, eq⟩ := List.mem_map.mp written
  exact proper_of_written (named n member) eq.symm

theorem encodeValues_yields {entries : Mapping Node}
    (named : ∀ entry ∈ entries, ∀ m : Node, m.Occurs entry.2 → m.element.kind ≠ .list) :
    orDocument.Yields (entriesOfEncoded (entries.map fun (key, n) => (key, encodeElement n)))
      fun _ _ => ∀ entry ∈ entries, entry.2.Proper := by
  have values := entriesOfEncoded_yields fun entry member => settled_of_named (named entry member)
  refine orDocument.imp values fun _ js same entry member => ?_
  have written : (entry.1, encodeElement entry.2) ∈ js.map fun (key, j) => (key, Except.ok j) :=
    same ▸ List.mem_map_of_mem (f := fun (key, n) => (key, encodeElement n)) member
  obtain ⟨_, _, eq⟩ := List.mem_map.mp written
  exact proper_of_written (named entry member) (congrArg (·.2) eq).symm

end

theorem encode_document_cases {version : List Int} {metadata : Mapping Node} {blocks : List Node}
    (named : ∀ n ∈ (Element.document version metadata blocks).children, ∀ m : Node, m.Occurs n →
      m.element.kind ≠ .list) :
    encode (.node (.mk (.document version metadata blocks))) = .error .innerDocument ∨
      ∀ n ∈ (Element.document version metadata blocks).children, n.Proper := by
  have hasMetadata : .mapping metadata ∈ (Element.document version metadata blocks).slots := .head _
  have hasBlocks : .sequence blocks ∈ (Element.document version metadata blocks).slots :=
    .tail _ (.head _)
  have values := encodeValues_yields fun entry member =>
    named entry.2 (Element.mapping_children hasMetadata member)
  have content := encodeElements_yields fun n member =>
    named n (Element.sequence_children hasBlocks member)
  rcases values with failed | ⟨_, values, properValues⟩
  · exact .inl (by rw [encode, failed]; rfl)
  rcases content with failed | ⟨_, _, properBlocks⟩
  · exact .inl (by rw [encode, values, failed]; rfl)
  refine .inr fun n child => ?_
  obtain ⟨slot, own, member⟩ := List.mem_flatMap.mp child
  simp only [Element.slots, List.mem_cons, List.not_mem_nil, or_false] at own
  rcases own with rfl | rfl
  · obtain ⟨entry, inside, rfl⟩ := List.mem_map.mp member
    exact properValues entry inside
  · exact properBlocks n member

theorem encode_cases {t : Tree} (named : t.Named) : encode t = .error .innerDocument ∨ t.Proper := by
  cases t with
  | list ns =>
    have each : ∀ n ∈ ns, ∀ m : Node, m.Occurs n → m.element.kind ≠ .list :=
      fun n member m found => named.below m ⟨n, member, found⟩
    have members := encodeElements_yields each
    rcases members with failed | ⟨_, _, proper⟩
    · exact .inl (by rw [encode, failed]; rfl)
    · exact .inr proper
  | node n =>
    obtain ⟨e⟩ := n
    have root : e.kind ≠ .list := named.root _ rfl
    have each : ∀ n ∈ e.children, ∀ m : Node, m.Occurs n → m.element.kind ≠ .list :=
      fun n child m found => named.below m ⟨n, child, found⟩
    by_cases isDocument : e.kind = .document
    · obtain ⟨version, metadata, blocks, rfl⟩ := Element.eq_document isDocument
      exact (encode_document_cases each).imp_right fun proper => ⟨root, proper⟩
    · have asElement : encode (.node (.mk e)) = encodeElement (.mk e) := by
        cases e with
        | document => exact absurd rfl isDocument
        | _ => rfl
      have inner : ∀ m : Node, m.Occurs (.mk e) → m.element.kind ≠ .list := by
        intro m found
        rcases Node.occurs_mk.mp found with rfl | ⟨n, child, inside⟩
        · exact root
        · exact each n child m inside
      rcases encodeElement_cases inner with failed | ⟨_, _, below⟩
      · exact .inl (asElement.trans failed)
      · exact .inr ⟨root, below⟩

/-- A tree without lists in it is written unless there is a document below the root. -/
theorem encode_error_iff {t : Tree} (named : t.Named) :
    encode t = .error .innerDocument ↔ ∃ m, t.Holds m ∧ m.element.kind = .document := by
  constructor
  · intro failed
    refine Classical.byContradiction fun without => ?_
    have inner : ∀ m, t.Holds m → m.element.kind ≠ .document :=
      fun m found isDocument => without ⟨m, found, isDocument⟩
    have written := encode_eq (t.proper_iff_holds.mpr ⟨named, inner⟩)
    exact absurd (failed.symm.trans written) nofun
  · rintro ⟨m, found, isDocument⟩
    rcases encode_cases named with failed | proper
    · exact failed
    · exact absurd isDocument ((t.proper_iff_holds.mp proper).2 m found)

theorem encode_settled {t : Tree} (named : t.Named) : Settled (encode t) := by
  rcases encode_cases named with failed | proper
  · exact .inl failed
  · exact .inr ⟨_, encode_eq proper⟩

end Codec

end DocTree
