import DocTree.Proofs.Codec.Depth
import DocTree.Proofs.Codec.Leaks
import DocTree.Proofs.Json.Readable
/-!
Mappings in which no key stands twice. Every object that is read from a text is one, and so is every mapping
of a tree that is decoded from such objects.
-/

namespace DocTree

namespace Mapping

variable {α : Type} {key : Text} {m : Mapping α} {a : α} {P : α → Prop}

theorem mem_keys_put {other : Text} : other ∈ (m.put key a).keys ↔ other ∈ m.keys ∨ other = key := by
  induction m with
  | nil => simp [put, keys]
  | cons entry rest ih =>
    obtain ⟨k, b⟩ := entry
    rw [put]
    split
    · next same =>
      subst same
      simp only [keys, List.map_cons, List.mem_cons]
      tauto
    · simp only [keys, List.map_cons, List.mem_cons] at ih ⊢
      rw [ih]
      tauto

theorem nodup_put (distinct : m.keys.Nodup) : (m.put key a).keys.Nodup := by
  induction m with
  | nil => simp [put, keys]
  | cons entry rest ih =>
    obtain ⟨k, b⟩ := entry
    obtain ⟨fresh, distinct⟩ := List.nodup_cons.mp distinct
    rw [put]
    split
    · exact List.nodup_cons.mpr ⟨fresh, distinct⟩
    · next different =>
      refine List.nodup_cons.mpr ⟨fun member => ?_, ih distinct⟩
      exact (mem_keys_put.mp member).elim fresh different

theorem values_put (known : ∀ entry ∈ m, P entry.2) (good : P a) : ∀ entry ∈ m.put key a, P entry.2 := by
  induction m with
  | nil => simpa [put] using good
  | cons entry rest ih =>
    obtain ⟨k, b⟩ := entry
    obtain ⟨first, later⟩ := List.forall_mem_cons.mp known
    rw [put]
    split
    · exact List.forall_mem_cons.mpr ⟨good, later⟩
    · exact List.forall_mem_cons.mpr ⟨first, ih later⟩

theorem ofPairs_good {pairs : List (Text × α)} (known : ∀ pair ∈ pairs, P pair.2) :
    (ofPairs pairs).keys.Nodup ∧ ∀ entry ∈ ofPairs pairs, P entry.2 := by
  have onto (pairs : List (Text × α)) (settled : Mapping α) (known : ∀ pair ∈ pairs, P pair.2)
      (distinct : settled.keys.Nodup) (good : ∀ entry ∈ settled, P entry.2) :
      (pairs.foldl (fun m entry => m.put entry.1 entry.2) settled).keys.Nodup ∧
        ∀ entry ∈ pairs.foldl (fun m entry => m.put entry.1 entry.2) settled, P entry.2 := by
    induction pairs generalizing settled with
    | nil => exact ⟨distinct, good⟩
    | cons pair rest ih =>
      obtain ⟨first, later⟩ := List.forall_mem_cons.mp known
      exact ih _ later (nodup_put distinct) (values_put good first)
  exact onto pairs [] known .nil nofun

end Mapping

/-- No object in a value has a key twice. -/
def Json.Keyed (j : Json) : Prop :=
  ∀ ms : List (Text × Json), .obj ms = j ∨ (Json.obj ms).Inside j → (Mapping.keys ms).Nodup

/-- No mapping in an element has a key twice. -/
inductive Node.Keyed : Node → Prop
  | mk {e : Element (List Node) (Mapping Node)} (distinct : ∀ m, .mapping m ∈ e.slots → m.keys.Nodup)
    (below : ∀ n ∈ e.children, Keyed n) : Keyed (.mk e)

def Tree.Keyed : Tree → Prop
  | .node n => n.Keyed
  | .list ns => ∀ n ∈ ns, n.Keyed

namespace Json

variable {i j : Json}

theorem Keyed.inside (keyed : j.Keyed) (within : i.Inside j) : i.Keyed := by
  rintro ms (rfl | inner)
  · exact keyed ms (.inr within)
  · exact keyed ms (.inr (inner.trans within))

@[simp] theorem keyed_arr {js : List Json} : (arr js).Keyed ↔ ∀ j ∈ js, j.Keyed := by
  refine ⟨fun keyed j member => keyed.inside (.item member), fun items => ?_⟩
  rintro ms (same | within)
  · cases same
  · cases within with
    | item member => exact items _ member ms (.inl rfl)
    | inItem member inside => exact items _ member ms (.inr inside)

@[simp] theorem keyed_obj {ms : Mapping Json} :
    (obj ms).Keyed ↔ ms.keys.Nodup ∧ ∀ entry ∈ ms, entry.2.Keyed := by
  refine ⟨fun keyed => ⟨keyed ms (.inl rfl), fun entry member => keyed.inside (.value member rfl)⟩, ?_⟩
  rintro ⟨distinct, values⟩ ms' (same | within)
  · cases same
    exact distinct
  · cases within with
    | value member same => exact values _ member ms' (.inl same)
    | inValue member inside => exact values _ member ms' (.inr inside)

theorem keyed_scalar (isScalar : (∀ js, j ≠ .arr js) ∧ ∀ ms, j ≠ .obj ms) : j.Keyed := by
  rintro ms (same | within)
  · exact absurd same.symm (isScalar.2 ms)
  · cases within with
    | item | inItem => exact absurd rfl (isScalar.1 _)
    | value | inValue => exact absurd rfl (isScalar.2 _)

theorem keyed_readable : Readable Keyed where
  str _ := keyed_scalar ⟨nofun, nofun⟩
  arr items := keyed_arr.mpr items
  obj members := keyed_obj.mpr (Mapping.ofPairs_good members)
  word := by
    have scalars : ∀ word ∈ Reader.words, (∀ js, word.2 ≠ .arr js) ∧ ∀ ms, word.2 ≠ .obj ms := by
      simp [Reader.words]
    exact fun word member => keyed_scalar (scalars word member)
  int _ := keyed_scalar ⟨nofun, nofun⟩
  float _ := keyed_scalar ⟨nofun, nofun⟩

end Json

/-- Whatever is read from text or bytes, no object in it has a key twice. -/
theorem Input.keyed {input : Input} {j : Json} (read : input.json? = .ok j) : j.Keyed :=
  Json.keyed_readable.input read

namespace Codec

theorem mapping_keys {child : Json → Decoded Node} {ms : Mapping Json} {m : Mapping Node}
    (read : mapping child (.obj ms) = .ok m) : m.keys = ms.keys := by
  rw [mapping_obj] at read
  induction ms generalizing m with
  | nil =>
    cases read
    rfl
  | cons first rest ih =>
    rw [List.mapM_cons] at read
    obtain ⟨_, isFirst, read⟩ := of_bind_ok read
    obtain ⟨later, isRest, read⟩ := of_bind_ok read
    obtain ⟨n, _, same⟩ := of_bind_ok isFirst
    cases same
    cases read
    exact congrArg (first.1 :: ·) (ih isRest)

theorem mapping_slot {S M : Type} {e : Element S M} {m : M} (slot : .mapping m ∈ e.slots) :
    e = .metaMap m ∨ e.kind = .document := by
  cases e with
  | document version metadata blocks => exact .inr rfl
  | metaMap entries =>
    cases List.mem_singleton.mp slot
    exact .inl rfl
  | _ => simp [Element.slots] at slot

section

variable {child : Json → Decoded Node}

theorem shape_read {G : Node → Prop} (each : ∀ j, Ends G (Explained .element j) (child j)) {j : Json}
    {e : Shape Node} (read : shape child j = .ok e) :
    ∃ ms, j = .obj ms ∧ e.kind ≠ .document ∧ (∀ n ∈ e.children, G n) ∧
      contents child e.kind (memberOr "c" .null j) = .ok e := by
  cases j with
  | obj ms =>
    rw [shape] at read
    split at read
    · cases read
    next tag isTag =>
    obtain ⟨kind, isKind, read⟩ := of_bind_ok read
    rw [lift_self] at isKind
    have known := kindOf_ends isTag
    rw [isKind] at known
    obtain ⟨_, inner, named⟩ := known
    have read : contents child kind (memberOr "c" .null (.obj ms)) = .ok e := by
      rw [inElement_eq] at read
      split at read
      · cases read
      · exact read
    have shaped : ShapeOf G kind e := by
      cases layout : Layout.ofKind? kind with
      | none =>
        cases kind with
        | document => exact absurd rfl inner
        | list => exact absurd rfl named
        | horizontalRule | null | space | softBreak | lineBreak =>
          cases read
          exact .of_sequences [] rfl rfl (List.forall_mem_nil _)
        | _ => cases layout
      | some l =>
        have ends := contents_ends each layout (memberOr "c" .null (.obj ms))
        rwa [read] at ends
    obtain ⟨rfl, below⟩ := shaped
    exact ⟨ms, rfl, inner, below, read⟩
  | _ => cases read

theorem memberOr_inside {R : Json → Prop} (inward : ∀ {i j : Json}, R j → i.Inside j → R i) {key : Text}
    {absent j : Json} (known : R j) (fallback : R absent) : R (memberOr key absent j) := by
  cases j with
  | obj ms =>
    rw [memberOr]
    cases found : Mapping.get? key ms with
    | none => exact fallback
    | some v => exact inward known (.value (Mapping.get?_mem found) rfl)
  | _ => exact fallback

theorem shape_keyed (each : ∀ j, Ends Node.Keyed (Explained .element j) (child j)) {j : Json} (keyed : j.Keyed)
    {e : Shape Node} (read : shape child j = .ok e) : Node.Keyed (.mk e) := by
  obtain ⟨ms, rfl, inner, below, read⟩ := shape_read each read
  refine .mk (fun m slot => ?_) below
  rcases mapping_slot slot with rfl | isDocument
  · have keyed : (memberOr "c" .null (.obj ms)).Keyed :=
      memberOr_inside Json.Keyed.inside keyed (Json.keyed_scalar ⟨nofun, nofun⟩)
    obtain ⟨_, inside, same⟩ := of_map_ok (f := Element.metaMap (S := List Node)) read
    cases same
    cases isObject : memberOr "c" .null (.obj ms) with
    | obj entries =>
      rw [isObject] at keyed inside
      rw [mapping_keys inside]
      exact (Json.keyed_obj.mp keyed).1
    | _ =>
      rw [isObject] at inside
      cases inside
  · exact absurd isDocument inner

end

section

variable {R : Json → Prop} {G : Node → Prop} (inward : ∀ {i j : Json}, R j → i.Inside j → R i)
  (step : ∀ (child : Json → Decoded Node), (∀ j, Ends G (Explained .element j) (child j)) → ∀ {j : Json}, R j →
    ∀ {e : Shape Node}, shape child j = .ok e → G (.mk e))

include inward step

open Classical in
theorem elementWithin_inherits (fuel : Nat) {j : Json} (known : R j) {n : Node}
    (read : elementWithin fuel j = .ok n) : G n := by
  induction fuel generalizing j n with
  | zero => cases read
  | succ fuel ih =>
    -- The decoder that fails where nothing is known does the same with all that is inside.
    let child (i : Json) : Decoded Node := if R i then elementWithin fuel i else refuse (.notElement i)
    have agree : AgreeIn (elementWithin fuel) child j := fun i within => (if_pos (inward known within)).symm
    have each (i : Json) : Ends G (Explained .element i) (child i) := by
      by_cases known : R i
      · simp only [child, if_pos known]
        have ends := (elementWithin_ends fuel i).weaken fun _ known => known.explained
        cases result : elementWithin fuel i with
        | ok n => exact ih known result
        | error f =>
          rw [result] at ends
          exact ends
      · simp only [child, if_neg known]
        exact .refused _
    rw [elementWithin_succ, shape_congr agree] at read
    obtain ⟨e, shaped, rfl⟩ := of_map_ok read
    exact step child each known shaped

theorem element_inherits {j : Json} (known : R j) {n : Node} (read : element j = .ok n) : G n :=
  elementWithin_inherits inward step _ known read

theorem elements_inherit {js : List Json} (known : ∀ j ∈ js, R j) {ns : List Node}
    (read : js.mapM element = .ok ns) : ∀ n ∈ ns, G n := by
  have each : Ends (fun ns => ∀ n ∈ ns, G n) (fun _ => True) (js.mapM element) := by
    refine Ends.mapM fun j member => ?_
    cases result : element j with
    | ok n => exact element_inherits inward step (known j member) result
    | error f => trivial
  rwa [read] at each

theorem entries_inherit {ms : Mapping Json} (known : ∀ entry ∈ ms, R entry.2) {m : Mapping Node}
    (read : mapping element (.obj ms) = .ok m) : ∀ entry ∈ m, G entry.2 := by
  have each : Ends (fun m : Mapping Node => ∀ entry ∈ m, G entry.2) (fun _ => True)
      (mapping element (.obj ms)) := by
    rw [mapping_obj]
    refine Ends.mapM fun e member => ?_
    rw [entry]
    cases result : element e.2 with
    | ok n => exact element_inherits inward step (known e member) result
    | error f => trivial
  rwa [read] at each

end

/-- Where a tree comes from: it is an element, a list of elements, or a document with its metadata and blocks. -/
inductive ReadFrom : Json → Tree → Prop
  | element {j : Json} {n : Node} (read : element j = .ok n) : ReadFrom j (.node n)
  | list {js : List Json} {ns : List Node} (read : js.mapM element = .ok ns) : ReadFrom (.arr js) (.list ns)
  | document {ms entries : Mapping Json} {js : List Json} {value : Json} {version : List Int}
    {metadata : Mapping Node} {blocks : List Node} (found : ms.get? versionKey = some value)
    (isVersion : Codec.version value = .ok version) (isMeta : (ms.get? "meta").getD (.obj []) = .obj entries)
    (readMeta : mapping Codec.element (.obj entries) = .ok metadata) (isBlocks : ms.get? "blocks" = some (.arr js))
    (readBlocks : js.mapM Codec.element = .ok blocks) :
    ReadFrom (.obj ms) (.node (.mk (.document version metadata blocks)))

theorem body_readFrom {ms : Mapping Json} {value : Json} {v : List Int} {n : Node}
    (found : ms.get? versionKey = some value) (isVersion : version value = .ok v)
    (read : (body v ms : Decoded Node) = .ok n) :
    ReadFrom (.obj ms) (.node n) := by
  unfold body at read
  cases isContent : Mapping.get? "blocks" ms with
  | none =>
    rw [isContent] at read
    cases read
  | some content =>
  rw [isContent] at read
  obtain ⟨ns, areBlocks, read⟩ := of_bind_ok read
  obtain ⟨m, areEntries, read⟩ := of_bind_ok read
  cases read
  cases content with
  | arr js =>
    cases isMeta : (Mapping.get? "meta" ms).getD (.obj []) with
    | obj entries =>
      rw [blocks, elements_eq] at areBlocks
      exact .document found isVersion isMeta (isMeta ▸ areEntries) isContent areBlocks
    | _ =>
      rw [isMeta] at areEntries
      cases areEntries
  | _ => cases areBlocks

theorem decode_readFrom [Versioning] {options : Options} {j : Json} {t : Tree} (read : decode options j = .ok t) :
    ReadFrom j t := by
  have single (known : Tree.node <$> element j = .ok t) : ReadFrom j t := by
    obtain ⟨n, result, rfl⟩ := of_map_ok known
    exact .element result
  cases j with
  | obj ms =>
    cases found : Mapping.get? versionKey ms with
    | some value =>
      rw [decode_document options found] at read
      obtain ⟨n, result, rfl⟩ := of_map_ok read
      obtain ⟨v, isVersion, checked⟩ := of_bind_ok result
      split at checked
      · obtain ⟨_, _, content⟩ := of_bind_ok checked
        exact body_readFrom found isVersion content
      · exact body_readFrom found isVersion checked
    | none => exact single (decode_element options found ▸ read)
  | arr items =>
    rw [decode_arr] at read
    split at read
    · cases read
    · obtain ⟨ns, result, rfl⟩ := of_map_ok read
      exact .list result
  | _ => exact single read

theorem ReadFrom.inherits {R : Json → Prop} {G : Node → Prop} (inward : ∀ {i j : Json}, R j → i.Inside j → R i)
    (step : ∀ (child : Json → Decoded Node), (∀ j, Ends G (Explained .element j) (child j)) → ∀ {j : Json}, R j →
      ∀ {e : Shape Node}, shape child j = .ok e → G (.mk e))
    {j : Json} {t : Tree} (origin : ReadFrom j t) (known : R j) :
    (∃ n, t = .node n ∧ G n) ∨ (∃ ns, t = .list ns ∧ ∀ n ∈ ns, G n) ∨
      ∃ entries version metadata blocks, t = .node (.mk (.document version metadata blocks)) ∧
        (entries = [] ∨ R (.obj entries)) ∧ mapping Codec.element (.obj entries) = .ok metadata ∧
        ∀ n ∈ (Element.document version metadata blocks).children, G n := by
  cases origin with
  | element read => exact .inl ⟨_, rfl, element_inherits inward step known read⟩
  | list read =>
    have each := elements_inherit inward step (fun j member => inward known (.item member)) read
    exact .inr (.inl ⟨_, rfl, each⟩)
  | @document ms entries js value version metadata blocks _ _ isMeta readMeta isBlocks readBlocks =>
    have inContent : R (.arr js) := inward known (.value (Mapping.get?_mem isBlocks) rfl)
    have members := elements_inherit inward step (fun j member => inward inContent (.item member)) readBlocks
    -- A document without metadata has those of an empty object, which is nowhere in the value.
    have inMeta : entries = [] ∨ R (.obj entries) := by
      cases found : ms.get? "meta" with
      | none =>
        rw [found] at isMeta
        exact .inl (Json.obj.inj isMeta).symm
      | some j =>
        rw [found] at isMeta
        obtain rfl : j = .obj entries := isMeta
        exact .inr (inward known (.value (Mapping.get?_mem found) rfl))
    have values : ∀ entry ∈ metadata, G entry.2 := by
      refine entries_inherit inward step (fun entry member => ?_) readMeta
      rcases inMeta with rfl | inMeta
      · cases member
      · exact inward inMeta (.value member rfl)
    refine .inr (.inr ⟨entries, version, metadata, blocks, rfl, inMeta, readMeta, fun n child => ?_⟩)
    obtain ⟨slot, own, member⟩ := List.mem_flatMap.mp child
    simp only [Element.slots, List.mem_cons, List.not_mem_nil, or_false] at own
    rcases own with rfl | rfl
    · obtain ⟨entry, inEntries, rfl⟩ := List.mem_map.mp member
      exact values entry inEntries
    · exact members n member

/-- A tree that is decoded from a value without a key twice has no key twice in it. -/
theorem decode_keyed [Versioning] {options : Options} {j : Json} (keyed : j.Keyed) {t : Tree}
    (read : decode options j = .ok t) : t.Keyed := by
  have step (child : Json → Decoded Node) (each : ∀ j, Ends Node.Keyed (Explained .element j) (child j))
    {j : Json} (keyed : j.Keyed) {e : Shape Node} (read : shape child j = .ok e) : Node.Keyed (.mk e) :=
    shape_keyed each keyed read
  rcases (decode_readFrom read).inherits Json.Keyed.inside step keyed with
    ⟨n, rfl, known⟩ | ⟨ns, rfl, known⟩ | ⟨entries, version, metadata, blocks, rfl, inMeta, readMeta, below⟩
  · exact known
  · exact known
  · refine .mk (fun m slot => ?_) below
    simp only [Element.slots, List.mem_cons, Slot.mapping.injEq, reduceCtorEq, List.not_mem_nil, or_false] at slot
    subst slot
    rw [mapping_keys readMeta]
    rcases inMeta with rfl | keyed
    · exact .nil
    · exact (Json.keyed_obj.mp keyed).1

end Codec

end DocTree
