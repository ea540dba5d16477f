import DocTree.Proofs.Codec.Leaks
/-!
What a decoded tree is written as: every value has the type that its place asks for, whatever the type of
the value that was read. The one exception is the name of a citation, which is passed on as it is.
-/

namespace DocTree

namespace Element

def citationIds {S M : Type} : Element S M → List Json
  | .cite citations _ => citations.map (·.id)
  | _ => []

@[simp] theorem citationIds_mapChildren {β γ : Type} (f : β → γ) (e : Element (List β) (Mapping β)) :
    (e.mapChildren f).citationIds = e.citationIds := by
  cases e with
  | cite => simp [mapChildren, Element.map, citationIds, Citation.map]
  | _ => rfl

end Element

def Node.citationIds (n : Node) : List Json := n.fold fun e => e.citationIds ++ e.children.flatten

theorem Node.citationIds_mk (e : Element (List Node) (Mapping Node)) :
    (mk e).citationIds = e.citationIds ++ e.children.flatMap citationIds := by
  rw [citationIds, fold_mapChildren]
  simp only [Element.citationIds_mapChildren, Element.children_mapChildren, List.flatMap_def]
  rfl

def Tree.citationIds : Tree → List Json
  | .node n => n.citationIds
  | .list ns => ns.flatMap Node.citationIds

namespace Codec

/-- A value of the type that a layout asks for, with its keys in their order and no others. Any text is a
name, any number is a width, and a citation goes by what `isId` says. -/
inductive Typed (isId : Json → Prop) : Layout → Json → Prop
  | text (t : Text) : Typed isId .text (.str t)
  | whole (n : Int) : Typed isId .whole (.int n)
  | flag (b : Bool) : Typed isId .flag (.bool b)
  | enumeration (name : Text) : Typed isId .enumeration (.obj [("t", .str name)])
  | defaultWidth : Typed isId .width (.obj [("t", .str "ColWidthDefault")])
  | width (x : Binary64) : Typed isId .width (.obj [("t", .str "ColWidth"), ("c", .float x)])
  | absent {l : Layout} : Typed isId (.nullable l) .null
  | present {l : Layout} {j : Json} (typed : Typed isId l j) : Typed isId (.nullable l) j
  | list {l : Layout} {js : List Json} (typed : ∀ j ∈ js, Typed isId l j) : Typed isId (.list l) (.arr js)
  | noPart : Typed isId (.tuple []) (.arr [])
  | part {l : Layout} {ls : List Layout} {j : Json} {js : List Json} (typed : Typed isId l j)
    (others : Typed isId (.tuple ls) (.arr js)) : Typed isId (.tuple (l :: ls)) (.arr (j :: js))
  | noField : Typed isId (.record []) (.obj [])
  | citationId {fields : List (Text × Layout)} {j : Json} {ms : Mapping Json} (known : isId j)
    (others : Typed isId (.record fields) (.obj ms)) :
    Typed isId (.record (("citationId", .text) :: fields)) (.obj (("citationId", j) :: ms))
  | field {key : Text} {l : Layout} {fields : List (Text × Layout)} {j : Json} {ms : Mapping Json}
    (other : key ≠ "citationId") (typed : Typed isId l j) (others : Typed isId (.record fields) (.obj ms)) :
    Typed isId (.record ((key, l) :: fields)) (.obj ((key, j) :: ms))
  | entries {l : Layout} {ms : Mapping Json} (typed : ∀ e ∈ ms, Typed isId l e.2) :
    Typed isId (.entries l) (.obj ms)
  | contents {kind : Kind} {l : Layout} {c : Json} (layout : Layout.ofKind? kind = some l)
    (typed : Typed isId l c) : Typed isId .element (.obj [("t", .str kind.name), ("c", c)])
  | mark (kind : MarkKind) : Typed isId .element (.obj [("t", .str kind.kind.name)])

/-- A document, an element or a list of elements, with a value of the right type in every place. -/
def Normal (isId : Json → Prop) (j : Json) : Prop := Typed isId (.ofRoot j) j

section

variable {isId : Json → Prop} {l : Layout} {ls : List Layout} {j : Json} {js : List Json}

attribute [simp] Typed.text Typed.whole Typed.flag Typed.enumeration Typed.noPart Typed.absent

@[simp] theorem typed_enumerationJson (name : Text) : Typed isId .enumeration (enumerationJson name) :=
  .enumeration name

theorem typed_list : Typed isId (.list l) (.arr js) ↔ ∀ j ∈ js, Typed isId l j := by
  constructor
  · rintro ⟨⟩
    assumption
  · exact .list

@[simp] theorem typed_map {α : Type} {f : α → Json} {as : List α} :
    Typed isId (.list l) (.arr (as.map f)) ↔ ∀ a ∈ as, Typed isId l (f a) := by
  rw [typed_list, List.forall_mem_map]

@[simp] theorem typed_elements : Typed isId .elements (.arr js) ↔ ∀ j ∈ js, Typed isId .element j :=
  typed_list

@[simp] theorem typed_part :
    Typed isId (.tuple (l :: ls)) (.arr (j :: js)) ↔ Typed isId l j ∧ Typed isId (.tuple ls) (.arr js) := by
  constructor
  · intro typed
    cases typed with
    | part typed others => exact ⟨typed, others⟩
  · exact fun ⟨typed, others⟩ => .part typed others

@[simp] theorem typed_present : Typed isId (.nullable l) (.arr js) ↔ Typed isId l (.arr js) := by
  constructor
  · intro typed
    cases typed with
    | present typed => exact typed
  · exact .present

@[simp] theorem typed_entries {ms : Mapping Json} :
    Typed isId (.entries l) (.obj ms) ↔ ∀ e ∈ ms, Typed isId l e.2 := by
  constructor
  · rintro ⟨⟩
    assumption
  · exact .entries

theorem typed_field {key : Text} {fields : List (Text × Layout)} {ms : Mapping Json}
    (other : key ≠ "citationId") : Typed isId (.record ((key, l) :: fields)) (.obj ((key, j) :: ms)) ↔
      Typed isId l j ∧ Typed isId (.record fields) (.obj ms) := by
  constructor
  · intro typed
    cases typed with
    | citationId => exact absurd rfl other
    | field _ typed others => exact ⟨typed, others⟩
  · exact fun ⟨typed, others⟩ => .field other typed others

theorem typed_citationId {fields : List (Text × Layout)} {ms : Mapping Json} :
    Typed isId (.record (("citationId", .text) :: fields)) (.obj (("citationId", j) :: ms)) ↔
      isId j ∧ Typed isId (.record fields) (.obj ms) := by
  constructor
  · intro typed
    cases typed with
    | citationId known others => exact ⟨known, others⟩
    | field other => exact absurd rfl other
  · exact fun ⟨known, others⟩ => .citationId known others

def AllTyped (isId : Json → Prop) (sequences : List (List Json)) : Prop :=
  ∀ s ∈ sequences, ∀ j ∈ s, Typed isId .element j

@[simp] theorem typed_attrJson (a : Attr) : Typed isId .attr (attrJson a) := by
  simp [Layout.attr, attrJson, textsJson]

@[simp] theorem typed_columnJson (c : Column) : Typed isId .column (columnJson c) := by
  obtain ⟨alignment, width⟩ := c
  cases width with
  | none => simp [Layout.column, columnJson, Typed.defaultWidth, enumerationJson]
  | some x => simp [Layout.column, columnJson, Typed.width]

theorem typed_citationJson (c : Citation (List Json)) :
    Typed isId .citation (citationJson c) ↔ isId c.id ∧ AllTyped isId c.sequences := by
  simp (disch := decide) [Layout.citation, citationJson, typed_citationId, typed_field,
    Typed.noField, AllTyped, Citation.sequences]

@[simp] theorem typed_captionJson (c : Caption (List Json)) :
    Typed isId .caption (captionJson c) ↔ AllTyped isId c.sequences := by
  obtain ⟨long, short⟩ := c
  cases short <;> simp [Layout.caption, captionJson, AllTyped, Caption.sequences]

theorem typed_cellJson (c : Cell (List Json)) :
    Typed isId .cell (cellJson c) ↔ ∀ j ∈ c.content, Typed isId .element j := by
  simp [Layout.cell, cellJson]

@[simp] theorem typed_rowJson (r : Row (List Json)) :
    Typed isId .row (rowJson r) ↔ AllTyped isId r.sequences := by
  simp [Layout.row, rowJson, typed_cellJson, AllTyped, Row.sequences]

theorem allTyped_flatMap {α : Type} {sequences : α → List (List Json)} {as : List α} :
    AllTyped isId (as.flatMap sequences) ↔ ∀ a ∈ as, AllTyped isId (sequences a) := by
  simp only [AllTyped, List.forall_mem_flatMap]

@[simp] theorem allTyped_singleton : AllTyped isId [js] ↔ ∀ j ∈ js, Typed isId .element j :=
  List.forall_mem_singleton

@[simp] theorem allTyped_append {first second : List (List Json)} :
    AllTyped isId (first ++ second) ↔ AllTyped isId first ∧ AllTyped isId second := List.forall_mem_append

@[simp] theorem typed_rowGroupJson (g : RowGroup (List Json)) :
    Typed isId .rowGroup (rowGroupJson g) ↔ AllTyped isId g.sequences := by
  simp [Layout.rowGroup, rowGroupJson, allTyped_flatMap, RowGroup.sequences]

@[simp] theorem typed_sectionJson (s : Section (List Json)) :
    Typed isId .tableSection (sectionJson s) ↔ AllTyped isId s.sequences := by
  simp [Layout.tableSection, sectionJson, allTyped_flatMap, Section.sequences]

theorem typed_tableJson (t : Table (List Json)) :
    Typed isId .table (tableJson t) ↔ AllTyped isId t.sequences := by
  simp [Layout.table, tableJson, allTyped_flatMap, Table.sequences]

theorem typed_definitionJson (d : Definition (List Json)) :
    Typed isId .definition (definitionJson d) ↔ AllTyped isId d.sequences := by
  simp [Layout.definition, definitionJson, AllTyped, Definition.sequences]

theorem forall_children_iff {e : Element (List Json) (Mapping Json)} (sequences : List (List Json))
    (slots : e.slots = sequences.map .sequence) :
    (∀ j ∈ e.children, Typed isId .element j) ↔ AllTyped isId sequences := by
  simp only [Element.children, slots, List.flatMap_map, List.forall_mem_flatMap, AllTyped, Node.members]

theorem typed_contentsJson {e : Element (List Json) (Mapping Json)} {c : Json}
    (layout : Layout.ofKind? e.kind = some l) (contents : contentsJson? e = some c) :
    Typed isId l c ↔
      (∀ id ∈ e.citationIds, isId id) ∧ ∀ j ∈ e.children, Typed isId .element j := by
  cases e with
  | document | list => cases contents
  | mark kind => cases contents
  | metaMap entries =>
    cases layout
    cases contents
    have values : (Element.metaMap (S := List Json) entries).children = entries.map (·.2) :=
      List.append_nil _
    rw [typed_entries, values, List.forall_mem_map]
    simp [Element.citationIds]
  | metaBool value =>
    cases layout
    cases contents
    simp [Element.citationIds, Element.children, Element.slots]
  | text kind t =>
    cases kind <;> cases layout <;> cases contents <;>
      simp [Element.citationIds, Element.children, Element.slots]
  | wrap kind content =>
    rw [forall_children_iff [content] rfl]
    cases kind <;> cases layout <;> cases contents <;> simp [Element.citationIds]
  | items kind parts =>
    rw [forall_children_iff parts rfl]
    cases kind <;> cases layout <;> cases contents <;> simp [Element.citationIds, AllTyped]
  | orderedList numbering parts =>
    rw [forall_children_iff parts rfl]
    cases layout
    cases contents
    simp [Element.citationIds, AllTyped, Layout.numbering, numberingJson]
  | definitionList parts =>
    rw [forall_children_iff (parts.flatMap (·.sequences)) rfl, allTyped_flatMap]
    cases layout
    cases contents
    simp [Element.citationIds, typed_definitionJson]
  | header level a content =>
    rw [forall_children_iff [content] rfl]
    cases layout
    cases contents
    simp [Element.citationIds]
  | table t =>
    rw [forall_children_iff t.sequences rfl]
    cases layout
    cases contents
    simp [Element.citationIds, typed_tableJson]
  | figure a legend content =>
    rw [forall_children_iff (legend.sequences ++ [content]) rfl]
    cases layout
    cases contents
    simp [Element.citationIds]
  | box kind a content =>
    rw [forall_children_iff [content] rfl]
    cases kind <;> cases layout <;> cases contents <;> simp [Element.citationIds]
  | verbatim kind a t =>
    cases kind <;> cases layout <;> cases contents <;>
      simp [Element.citationIds, Element.children, Element.slots]
  | raw kind format t =>
    cases kind <;> cases layout <;> cases contents <;>
      simp [Element.citationIds, Element.children, Element.slots, textsJson]
  | quoted style content =>
    rw [forall_children_iff [content] rfl]
    cases layout
    cases contents
    simp [Element.citationIds]
  | cite citations content =>
    rw [forall_children_iff (citations.flatMap (·.sequences) ++ [content]) rfl]
    cases layout
    cases contents
    simp [Element.citationIds, allTyped_flatMap, typed_citationJson, imp_and, forall_and, and_assoc]
  | math style t =>
    cases layout
    cases contents
    simp [Element.citationIds, Element.children, Element.slots]
  | target kind a content url title =>
    rw [forall_children_iff [content] rfl]
    cases kind <;> cases layout <;> cases contents <;> simp [Element.citationIds, textsJson]

theorem typed_obj {kind : Kind} {c : Json} (layout : Layout.ofKind? kind = some l) :
    Typed isId .element (.obj [("t", .str kind.name), ("c", c)]) ↔ Typed isId l c := by
  constructor
  · intro typed
    generalize same : Json.obj [("t", .str kind.name), ("c", c)] = j at typed
    cases typed with
    | mark =>
      have lengths := congrArg List.length (Json.obj.inj same)
      cases lengths
    | @contents kind' l' c' layout' typed =>
      simp only [Json.obj.injEq, List.cons.injEq, Prod.mk.injEq, Json.str.injEq, true_and, and_true] at same
      obtain ⟨sameName, rfl⟩ := same
      have read := ofName?_name (inner_of_layout layout).1 (inner_of_layout layout).2
      have read' := ofName?_name (inner_of_layout layout').1 (inner_of_layout layout').2
      obtain rfl : kind = kind' := Option.some.inj (read.symm.trans (sameName ▸ read'))
      obtain rfl : l = l' := Option.some.inj (layout.symm.trans layout')
      exact typed
  · exact .contents layout

theorem mark_or_contents {e : Element (List Json) (Mapping Json)} (inner : e.kind ≠ .document)
    (named : e.kind ≠ .list) :
    (∃ kind, e = .mark kind) ∨ ∃ c l, contentsJson? e = some c ∧ Layout.ofKind? e.kind = some l := by
  cases e with
  | document => exact absurd rfl inner
  | list => exact absurd rfl named
  | mark kind => exact .inl ⟨kind, rfl⟩
  | text kind | wrap kind | items kind | box kind | verbatim kind | raw kind | target kind =>
    cases kind <;> exact .inr ⟨_, _, rfl, rfl⟩
  | _ => exact .inr ⟨_, _, rfl, rfl⟩

/-- An element is of the right type just if its children and the names of its citations are. -/
theorem typed_shapeJson {e : Element (List Json) (Mapping Json)} (inner : e.kind ≠ .document)
    (named : e.kind ≠ .list) : Typed isId .element (shapeJson e) ↔
      (∀ id ∈ e.citationIds, isId id) ∧ ∀ j ∈ e.children, Typed isId .element j := by
  obtain ⟨kind, rfl⟩ | ⟨c, l, contents, layout⟩ := mark_or_contents inner named
  · exact ⟨fun _ => ⟨nofun, nofun⟩, fun _ => .mark kind⟩
  · rw [shapeJson, contents]
    exact (typed_obj layout).trans (typed_contentsJson layout contents)

theorem typed_elementJson {n : Node} (proper : n.Proper) :
    Typed isId .element (elementJson n) ↔ ∀ id ∈ n.citationIds, isId id := by
  induction proper with
  | @mk e inner named _ ih =>
    rw [elementJson_mk, typed_shapeJson (by simpa using inner) (by simpa using named), Node.citationIds_mk,
      List.forall_mem_append, List.forall_mem_flatMap]
    simp only [Element.citationIds_mapChildren, Element.children_mapChildren, List.forall_mem_map]
    constructor
    · exact fun ⟨ids, below⟩ => ⟨ids, fun n child => (ih n child).mp (below n child)⟩
    · exact fun ⟨ids, below⟩ => ⟨ids, fun n child => (ih n child).mpr (below n child)⟩

theorem typed_documentJson (v : List Int) (metadata : Mapping Json) (content : List Json) :
    Typed isId .document (documentJson v metadata content) ↔
      (∀ e ∈ metadata, Typed isId .element e.2) ∧ ∀ j ∈ content, Typed isId .element j := by
  simp (disch := decide) [Layout.document, documentJson, typed_field, versionKey, Typed.noField]

theorem ofRoot_elementJson (n : Node) : Layout.ofRoot (elementJson n) = .element := by
  obtain ⟨e⟩ := n
  rw [elementJson_mk, shapeJson]
  cases contentsJson? (e.mapChildren elementJson) <;> rfl

theorem normal_treeJson {t : Tree} (proper : t.Proper) :
    Normal isId (treeJson t) ↔ ∀ id ∈ t.citationIds, isId id := by
  cases t with
  | list ns =>
    have elements : Normal isId (.arr (ns.map elementJson)) ↔ ∀ n ∈ ns, Typed isId .element (elementJson n) :=
      typed_map
    rw [treeJson, elements, Tree.citationIds, List.forall_mem_flatMap]
    exact forall₂_congr fun n member => typed_elementJson (proper n member)
  | node n =>
    obtain ⟨e⟩ := n
    obtain ⟨named, below⟩ := proper
    by_cases root : e.kind = .document
    · obtain ⟨version, metadata, blocks, rfl⟩ := Element.eq_document root
      have children : (Element.document version metadata blocks).children = metadata.map (·.2) ++ blocks := by
        simp [Element.children, Element.slots, Node.members]
      rw [children] at below
      have parts : Normal isId (treeJson (.node (.mk (.document version metadata blocks)))) ↔
          ∀ n ∈ metadata.map (·.2) ++ blocks, Typed isId .element (elementJson n) := by
        rw [List.forall_mem_append, List.forall_mem_map]
        refine (typed_documentJson version _ _).trans ?_
        rw [List.forall_mem_map, List.forall_mem_map]
      have ids : (Tree.node (.mk (.document version metadata blocks))).citationIds =
          (metadata.map (·.2) ++ blocks).flatMap Node.citationIds := by
        rw [Tree.citationIds, Node.citationIds_mk, children]
        rfl
      rw [parts, ids, List.forall_mem_flatMap]
      exact forall₂_congr fun n child => typed_elementJson (below n child)
    · rw [treeJson_element root, Normal, ofRoot_elementJson]
      exact typed_elementJson (.mk root named below)

/-- Whatever is read, what is written for it has a value of the right type in every place, just if the
names of its citations are what a name may be. -/
theorem decode_normalises [Versioning] {options : Options} {t : Tree} (accepted : decode options j = .ok t)
    (isId : Json → Prop) :
    ∃ j', encode t = .ok j' ∧ (Normal isId j' ↔ ∀ id ∈ t.citationIds, isId id) := by
  have proper : t.Proper := by
    have known := decode_ends options j
    rw [accepted] at known
    exact known
  exact ⟨treeJson t, encode_eq proper, normal_treeJson proper⟩

def citing (id : Json) : Json :=
  .obj [("t", .str "Cite"), ("c", .arr [.arr [.obj [("citationId", id),
    ("citationMode", .obj [("t", .str "NormalCitation")])]], .arr []])]

def citingTree (id : Json) : Tree := .node (.mk (.cite [⟨id, [], [], "NormalCitation", 0, 0⟩] []))

theorem decode_citing [Versioning] (options : Options) (id : Json) :
    decode options (citing id) = .ok (citingTree id) :=
  rfl

section

attribute [local instance] Versioning.ofClauses

theorem named_citation_normal :
    decode .default (citing (.str "doe")) = .ok (citingTree (.str "doe")) ∧
      ∃ j', encode (citingTree (.str "doe")) = .ok j' ∧ Normal (fun id => ∃ t, id = .str t) j' := by
  have accepted := decode_citing .default (.str "doe")
  obtain ⟨j', written, normal⟩ := decode_normalises accepted fun id => ∃ t, id = .str t
  exact ⟨accepted, j', written, normal.mpr (List.forall_mem_singleton.mpr ⟨_, rfl⟩)⟩

theorem numbered_citation_not_normal :
    ∃ t j', decode .default (citing (.int 3)) = .ok t ∧ encode t = .ok j' ∧
      ¬Normal (fun id => ∃ t, id = .str t) j' := by
  have proper : (citingTree (.int 3)).Proper := by decide
  refine ⟨_, _, decode_citing .default (.int 3), encode_eq proper, fun normal => ?_⟩
  obtain ⟨t, isText⟩ := List.forall_mem_singleton.mp ((normal_treeJson proper).mp normal)
  cases isText

end

end

end Codec

end DocTree
