import DocTree.Proofs.Codec.Written
/-!
What is in the encoding of a tree: what its elements hold themselves, and nothing else but the words of the
format. A property of values that goes by what is in them holds of the encoding if it holds of all that.
-/

namespace DocTree

section

variable {S S' M M' : Type}

def Attr.held (a : Attr) : List Json :=
  .str a.identifier :: a.classes.map .str ++ a.pairs.flatMap fun (key, value) => [.str key, .str value]

def Numbering.held (n : Numbering) : List Json := [.int n.start, .str n.style, .str n.delimiter]

def Citation.held (c : Citation S) : List Json := [c.id, .str c.mode, .int c.noteNum, .int c.hash]

def Column.held (c : Column) : List Json := .str c.alignment :: (c.width.map Json.float).toList

def Cell.held (c : Cell S) : List Json :=
  c.attr.held ++ [.str c.alignment, .int c.rowSpan, .int c.colSpan]

def Row.held (r : Row S) : List Json := r.attr.held ++ r.cells.flatMap (·.held)

def RowGroup.held (g : RowGroup S) : List Json := g.attr.held ++ g.rows.flatMap (·.held)

def Section.held (s : Section S) : List Json :=
  s.attr.held ++ .int s.headColumns :: s.head.flatMap (·.held) ++ s.body.flatMap (·.held)

def Table.held (t : Table S) : List Json :=
  t.attr.held ++ t.columns.flatMap (·.held) ++ t.head.held ++ t.sections.flatMap (·.held) ++ t.foot.held

/-- The texts, numbers and other values of an element that are not in its children. -/
def Element.held : Element S M → List Json
  | .document version _ _ => version.map .int
  | .text _ t => [.str t]
  | .orderedList numbering _ => numbering.held
  | .header level attr _ => .int level :: attr.held
  | .table t => t.held
  | .figure attr _ _ | .box _ attr _ => attr.held
  | .verbatim _ attr t => .str t :: attr.held
  | .raw _ format t => [.str format, .str t]
  | .quoted style _ => [.str style]
  | .cite citations _ => citations.flatMap (·.held)
  | .math style t => [.str style, .str t]
  | .target _ attr _ url title => .str url :: .str title :: attr.held
  | .metaMap _ | .metaBool _ | .mark _ | .wrap .. | .items .. | .definitionList _ | .list _ => []

@[simp] theorem Cell.held_map (f : S → S') (c : Cell S) : (c.map f).held = c.held := rfl

@[simp] theorem Row.held_map (f : S → S') (r : Row S) : (r.map f).held = r.held := by
  simp [Row.held, Row.map, List.flatMap_map]

@[simp] theorem RowGroup.held_map (f : S → S') (g : RowGroup S) : (g.map f).held = g.held := by
  simp [RowGroup.held, RowGroup.map, List.flatMap_map]

@[simp] theorem Section.held_map (f : S → S') (s : Section S) : (s.map f).held = s.held := by
  simp [Section.held, Section.map, List.flatMap_map]

@[simp] theorem Table.held_map (f : S → S') (t : Table S) : (t.map f).held = t.held := by
  simp [Table.held, Table.map, List.flatMap_map]

@[simp] theorem Element.held_map (f : S → S') (g : M → M') (e : Element S M) :
    (e.map f g).held = e.held := by
  cases e with
  | table t => exact Table.held_map f t
  | cite citations content =>
    rw [map, held, held, List.flatMap_map]
    rfl
  | _ => rfl

end

theorem Kind.name_ofString (kind : Kind) : ∃ s : String, kind.name = Text.ofString s := by
  cases kind <;> exact ⟨_, rfl⟩

inductive Node.All (P : Element (List Node) (Mapping Node) → Prop) : Node → Prop
  | mk {e : Element (List Node) (Mapping Node)} (here : P e) (below : ∀ n ∈ e.children, All P n) : All P (.mk e)

def Tree.All (P : Element (List Node) (Mapping Node) → Prop) : Tree → Prop
  | .node n => n.All P
  | .list ns => ∀ n ∈ ns, n.All P

section

variable {P P' P'' : Element (List Node) (Mapping Node) → Prop}

theorem Node.All.and_imp (imp : ∀ e, P e → P' e → P'' e) {n : Node} (all : n.All P) (all' : n.All P') :
    n.All P'' := by
  induction all with
  | mk here below ih =>
    obtain ⟨here', below'⟩ := all'
    exact .mk (imp _ here here') fun n child => ih n child (below' n child)

theorem Tree.All.and_imp (imp : ∀ e, P e → P' e → P'' e) {t : Tree} (all : t.All P) (all' : t.All P') :
    t.All P'' := by
  cases t with
  | node n => exact Node.All.and_imp imp all all'
  | list ns => exact fun n member => (all n member).and_imp imp (all' n member)

end

namespace Codec

open Json

/-- A property of values that goes by the members of arrays and objects. It says which keys an object may have,
and the words of the format are always among them. -/
structure Hereditary (Q : Json → Prop) (K : List Text → Prop) : Prop where
  null : Q .null
  bool (b : Bool) : Q (.bool b)
  word (s : String) : Q (.str (Text.ofString s))
  arr {js : List Json} : Q (.arr js) ↔ ∀ j ∈ js, Q j
  obj {ms : Mapping Json} (keys : K ms.keys) : Q (.obj ms) ↔ ∀ entry ∈ ms, Q entry.2
  words (ss : List String) (distinct : (ss.map Text.ofString).Nodup) : K (ss.map Text.ofString)

namespace Hereditary

variable {Q : Json → Prop} {K : List Text → Prop} (law : Hereditary Q K)

include law

theorem record (ss : List String) (distinct : (ss.map Text.ofString).Nodup) {ms : Mapping Json}
    (keys : ms.keys = ss.map Text.ofString) : Q (.obj ms) ↔ ∀ entry ∈ ms, Q entry.2 :=
  law.obj (keys ▸ law.words ss distinct)

theorem textsJson {ts : List Text} : Q (textsJson ts) ↔ ∀ t ∈ ts, Q (str t) := by
  rw [Codec.textsJson, law.arr, List.forall_mem_map]

theorem attrJson {a : Attr} : Q (attrJson a) ↔ ∀ j ∈ a.held, Q j := by
  simp only [Codec.attrJson, law.arr, law.textsJson, Attr.held, List.forall_mem_cons,
    List.forall_mem_append, List.forall_mem_map, List.forall_mem_flatMap, List.not_mem_nil, false_implies,
    implies_true, and_true, List.cons_append]

theorem enumerationJson {name : Text} : Q (enumerationJson name) ↔ Q (str name) := by
  rw [Codec.enumerationJson, law.record ["t"] (by decide) rfl, List.forall_mem_singleton]

theorem numberingJson {n : Numbering} : Q (numberingJson n) ↔ ∀ j ∈ n.held, Q j := by
  simp only [Codec.numberingJson, law.arr, Numbering.held, List.forall_mem_cons,
    law.enumerationJson, List.not_mem_nil, false_implies, implies_true, and_true]

theorem columnJson {c : Column} : Q (columnJson c) ↔ ∀ j ∈ c.held, Q j := by
  obtain ⟨alignment, width⟩ := c
  cases width with
  | none =>
    simp only [Codec.columnJson, law.arr, Column.held, List.forall_mem_cons, law.enumerationJson,
      Option.map_none, Option.toList_none, List.not_mem_nil, false_implies, implies_true, and_true,
      law.word "ColWidthDefault"]
  | some width =>
    have fixed : Q (.obj [("t", .str "ColWidth"), ("c", .float width)]) ↔ Q (.float width) := by
      rw [law.record ["t", "c"] (by decide) rfl, List.forall_mem_cons, List.forall_mem_singleton]
      exact and_iff_right (law.word "ColWidth")
    simp only [Codec.columnJson, law.arr, Column.held, List.forall_mem_cons, law.enumerationJson,
      Option.map_some, Option.toList_some, fixed, List.not_mem_nil, false_implies, implies_true, and_true]

theorem citationJson {c : Citation (List Json)} : Q (citationJson c) ↔
    (∀ j ∈ c.held, Q j) ∧ ∀ s ∈ c.sequences, ∀ j ∈ s, Q j := by
  rw [Codec.citationJson, law.record ["citationId", "citationPrefix", "citationSuffix", "citationMode",
    "citationNoteNum", "citationHash"] (by decide) rfl]
  simp only [Citation.held, Citation.sequences, law.arr, law.enumerationJson, List.forall_mem_cons,
    List.not_mem_nil, false_implies, implies_true, true_and, and_assoc, and_left_comm, and_comm]

theorem captionJson {c : Caption (List Json)} : Q (captionJson c) ↔ ∀ s ∈ c.sequences, ∀ j ∈ s, Q j := by
  obtain ⟨long, short⟩ := c
  cases short with
  | none =>
    simp only [Codec.captionJson, law.arr, Caption.sequences, Option.map_none, Option.getD_none, law.null,
      Option.toList_none, List.nil_append, List.forall_mem_cons, List.not_mem_nil, false_implies,
      implies_true, and_true, true_and]
  | some short =>
    simp only [Codec.captionJson, law.arr, Caption.sequences, Option.map_some, Option.getD_some,
      Option.toList_some, List.cons_append, List.nil_append, List.forall_mem_cons, List.not_mem_nil,
      false_implies, implies_true, and_true]

theorem cellJson {c : Cell (List Json)} : Q (cellJson c) ↔ (∀ j ∈ c.held, Q j) ∧ ∀ j ∈ c.content, Q j := by
  simp only [Codec.cellJson, law.arr, law.attrJson, law.enumerationJson, Cell.held,
    List.forall_mem_cons, List.forall_mem_append, List.not_mem_nil, false_implies,
    implies_true, and_true, and_assoc]

theorem rowJson {r : Row (List Json)} : Q (rowJson r) ↔
    (∀ j ∈ r.held, Q j) ∧ ∀ s ∈ r.sequences, ∀ j ∈ s, Q j := by
  simp only [Codec.rowJson, law.arr, law.attrJson, law.cellJson, Row.held, Row.sequences,
    List.forall_mem_cons, List.forall_mem_append, List.forall_mem_flatMap, List.forall_mem_map,
    List.not_mem_nil, false_implies, implies_true, and_true, and_assoc, imp_and, forall_and]

theorem rowGroupJson {g : RowGroup (List Json)} : Q (rowGroupJson g) ↔
    (∀ j ∈ g.held, Q j) ∧ ∀ s ∈ g.sequences, ∀ j ∈ s, Q j := by
  simp only [Codec.rowGroupJson, law.arr, law.attrJson, law.rowJson, RowGroup.held,
    RowGroup.sequences, List.forall_mem_cons, List.forall_mem_append, List.forall_mem_flatMap,
    List.forall_mem_map, List.not_mem_nil, false_implies, implies_true, and_true, and_assoc, imp_and,
    forall_and]

theorem sectionJson {s : Section (List Json)} : Q (sectionJson s) ↔
    (∀ j ∈ s.held, Q j) ∧ ∀ ns ∈ s.sequences, ∀ j ∈ ns, Q j := by
  simp only [Codec.sectionJson, law.arr, law.attrJson, law.rowJson, Section.held,
    Section.sequences, List.forall_mem_cons, List.forall_mem_append, List.forall_mem_flatMap,
    List.forall_mem_map, List.not_mem_nil, false_implies, implies_true, true_and, and_assoc, imp_and,
    forall_and, and_left_comm, and_comm]

theorem tableJson {t : Table (List Json)} : Q (tableJson t) ↔
    (∀ j ∈ t.held, Q j) ∧ ∀ s ∈ t.sequences, ∀ j ∈ s, Q j := by
  simp only [Codec.tableJson, law.arr, law.attrJson, law.captionJson, law.columnJson,
    law.rowGroupJson, law.sectionJson, Table.held, Table.sequences, List.forall_mem_cons,
    List.forall_mem_append, List.forall_mem_flatMap, List.forall_mem_map, List.not_mem_nil, false_implies,
    implies_true, true_and, and_assoc, imp_and, forall_and, and_left_comm, and_comm]

theorem definitionJson {d : Definition (List Json)} : Q (definitionJson d) ↔
    ∀ s ∈ d.sequences, ∀ j ∈ s, Q j := by
  simp only [Codec.definitionJson, law.arr, Definition.sequences, List.forall_mem_cons,
    List.forall_mem_map, List.not_mem_nil, false_implies, implies_true, and_true]

theorem contentsJson? {e : Element (List Json) (Mapping Json)} {c : Json}
    (contents : contentsJson? e = some c) (noMapping : ∀ entries, e ≠ .metaMap entries) :
    Q c ↔ (∀ j ∈ e.held, Q j) ∧ ∀ j ∈ e.children, Q j := by
  cases e with
  | document | mark | list => cases contents
  | metaMap entries => exact absurd rfl (noMapping entries)
  | metaBool value =>
    cases contents
    simp [Element.held, Element.children, Element.slots, law.bool value]
  | _ =>
    cases contents
    simp only [law.arr, law.textsJson, law.enumerationJson, law.attrJson,
      law.captionJson, law.tableJson, law.citationJson, law.definitionJson, law.numberingJson,
      Element.held, Element.children, Element.slots, Node.members, List.forall_mem_flatMap,
      List.forall_mem_map, List.forall_mem_append, List.forall_mem_cons, List.not_mem_nil, false_implies,
      implies_true, true_and, and_assoc, imp_and, forall_and, and_left_comm, and_comm]

theorem shapeJson {e : Element (List Json) (Mapping Json)} (held : ∀ j ∈ e.held, Q j)
    (keys : ∀ m, .mapping m ∈ e.slots → K m.keys) (below : ∀ j ∈ e.children, Q j) : Q (shapeJson e) := by
  have inContents : ∀ c, Codec.contentsJson? e = some c → Q c := by
    intro c contents
    by_cases isMap : ∃ entries, e = .metaMap entries
    · obtain ⟨entries, rfl⟩ := isMap
      cases contents
      refine (law.obj (keys entries List.mem_cons_self)).mpr fun entry member => ?_
      exact below entry.2 (Element.mapping_children List.mem_cons_self member)
    · exact (law.contentsJson? contents fun entries eq => isMap ⟨entries, eq⟩).mpr ⟨held, below⟩
  have tag : Q (str e.name) := by
    obtain ⟨s, isWord⟩ := Kind.name_ofString e.kind
    rw [Element.name, isWord]
    exact law.word s
  rw [Codec.shapeJson]
  cases contents : Codec.contentsJson? e with
  | none =>
    rw [law.record ["t"] (by decide) rfl]
    exact List.forall_mem_singleton.mpr tag
  | some c =>
    rw [law.record ["t", "c"] (by decide) rfl]
    exact List.forall_mem_cons.mpr ⟨tag, List.forall_mem_singleton.mpr (inContents c contents)⟩

omit law in
theorem slot_mapChildren {α β : Type} {f : α → β} {e : Element (List α) (Mapping α)} {m : Mapping β}
    (slot : .mapping m ∈ (e.mapChildren f).slots) :
    ∃ entries, .mapping entries ∈ e.slots ∧ m = entries.map fun (key, a) => (key, f a) := by
  rw [Element.mapChildren, Element.slots_map, List.mem_map] at slot
  obtain ⟨own, inside, eq⟩ := slot
  cases own with
  | sequence s => cases eq
  | mapping entries =>
    cases eq
    exact ⟨entries, inside, rfl⟩

omit law in
theorem keys_map {α β : Type} (f : α → β) (m : Mapping α) :
    Mapping.keys (m.map fun (key, a) => (key, f a)) = m.keys := by
  simp [Mapping.keys]

/-- The property holds of all that an element holds itself, and of the keys of its mappings. -/
def Carries (Q : Json → Prop) (K : List Text → Prop) (e : Element (List Node) (Mapping Node)) : Prop :=
  (∀ j ∈ e.held, Q j) ∧ ∀ m, .mapping m ∈ e.slots → K m.keys

theorem elementJson {n : Node} (all : n.All (Carries Q K)) : Q (elementJson n) := by
  induction all with
  | @mk e here _ ih =>
    obtain ⟨held, keys⟩ := here
    rw [elementJson_mk]
    refine law.shapeJson ?_ ?_ ?_
    · rw [Element.mapChildren, Element.held_map]
      exact held
    · intro m slot
      obtain ⟨entries, own, rfl⟩ := slot_mapChildren slot
      exact keys_map _ entries ▸ keys entries own
    · rw [Element.children_mapChildren, List.forall_mem_map]
      exact ih

theorem treeJson {t : Tree} (all : t.All (Carries Q K)) : Q (treeJson t) := by
  cases t with
  | list ns =>
    rw [Codec.treeJson, law.arr, List.forall_mem_map]
    exact fun n member => law.elementJson (all n member)
  | node n =>
    obtain ⟨e⟩ := n
    by_cases root : e.kind = .document
    · obtain ⟨version, metadata, blocks, rfl⟩ := Element.eq_document root
      cases all with
      | mk here below =>
        obtain ⟨held, keys⟩ := here
        have distinct := keys metadata List.mem_cons_self
        rw [← keys_map Codec.elementJson metadata] at distinct
        have entries : ∀ entry ∈ metadata, Q (Codec.elementJson entry.2) := fun entry member =>
          law.elementJson (below entry.2 (Element.mapping_children List.mem_cons_self member))
        have content : ∀ n ∈ blocks, Q (Codec.elementJson n) := fun n member =>
          law.elementJson (below n (Element.sequence_children (.tail _ (.head _)) member))
        rw [Codec.treeJson, documentJson, law.record ["pandoc-api-version", "meta", "blocks"] (by decide) rfl]
        simp only [List.forall_mem_cons, List.not_mem_nil, false_implies, implies_true, and_true, law.arr,
          law.obj distinct, List.forall_mem_map]
        exact ⟨List.forall_mem_map.mp held, entries, content⟩
    · rw [treeJson_element root]
      exact law.elementJson all

end Hereditary

end Codec

end DocTree
