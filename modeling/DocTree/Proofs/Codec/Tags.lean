import DocTree.Proofs.Codec.RoundTrip
import DocTree.Proofs.Element.Standard
import DocTree.Proofs.Store.Proper
import DocTree.Proofs.Walk.Preorder
/-!
The tags in what is written for a tree, in the order of the text. Those that are names of kinds are the
names of the nodes that the walk lists: the codec and the walk go through the containers of an element
each in its own way, and meet the same children in the same order.
-/

namespace DocTree

namespace Json

/-- The value of a member, if the member is a tag. -/
def ownTag (key : Text) : Json → List Text
  | str t => if key = "t" then [t] else []
  | _ => []

mutual

/-- The tags at all levels, in the order of the text. -/
def tags : Json → List Text
  | arr items => tagsOfItems items
  | obj members => tagsOfMembers members
  | _ => []

def tagsOfItems : List Json → List Text
  | [] => []
  | j :: rest => j.tags ++ tagsOfItems rest

def tagsOfMembers : List (Text × Json) → List Text
  | [] => []
  | (key, j) :: rest => ownTag key j ++ (j.tags ++ tagsOfMembers rest)

end

def isKindName (t : Text) : Bool := (Kind.ofName? t).isSome

def kindTags (j : Json) : List Text := j.tags.filter isKindName

@[simp] theorem kindTags_int (n : Int) : (int n).kindTags = [] := rfl

@[simp] theorem kindTags_bool (b : Bool) : (bool b).kindTags = [] := rfl

@[simp] theorem kindTags_float (x : Binary64) : (float x).kindTags = [] := rfl

@[simp] theorem kindTags_str (t : Text) : (str t).kindTags = [] := rfl

@[simp] theorem kindTags_null : null.kindTags = [] := rfl

@[simp] theorem kindTags_arr (items : List Json) : (arr items).kindTags = items.flatMap kindTags := by
  rw [kindTags, tags]
  induction items with
  | nil => rfl
  | cons j rest ih =>
    rw [tagsOfItems, List.filter_append, ih]
    rfl

@[simp] theorem kindTags_obj_nil : (obj []).kindTags = [] := rfl

@[simp] theorem kindTags_obj_cons (key : Text) (j : Json) (rest : List (Text × Json)) :
    (obj ((key, j) :: rest)).kindTags =
      (ownTag key j).filter isKindName ++ (j.kindTags ++ (obj rest).kindTags) := by
  rw [kindTags, tags, tagsOfMembers, List.filter_append, List.filter_append]
  rfl

@[simp] theorem ownTag_int (key : Text) (n : Int) : ownTag key (int n) = [] := rfl

@[simp] theorem ownTag_float (key : Text) (x : Binary64) : ownTag key (float x) = [] := rfl

@[simp] theorem ownTag_arr (key : Text) (items : List Json) : ownTag key (arr items) = [] := rfl

@[simp] theorem ownTag_obj (key : Text) (members : List (Text × Json)) : ownTag key (obj members) = [] :=
  rfl

theorem ownTag_of_ne {key : Text} (other : key ≠ "t") (j : Json) : ownTag key j = [] := by
  cases j with
  | str t => exact if_neg other
  | _ => rfl

end Json

namespace Codec

open Json

def insideTags (ss : List (List Json)) : List Text := ss.flatMap (·.flatMap kindTags)

theorem insideTags_append (ss ts : List (List Json)) :
    insideTags (ss ++ ts) = insideTags ss ++ insideTags ts := List.flatMap_append

theorem insideTags_flatMap {α : Type} (l : List α) (f : α → List (List Json)) :
    insideTags (l.flatMap f) = l.flatMap fun a => insideTags (f a) := List.flatMap_assoc

theorem kindTags_arrays (ss : List (List Json)) : (ss.map Json.arr).flatMap kindTags = insideTags ss := by
  simp [insideTags, List.flatMap_map]

theorem kindTags_enumerationJson {name : Text} (other : isKindName name = false) :
    (enumerationJson name).kindTags = [] := by
  simp [enumerationJson, ownTag, other]

@[simp] theorem ownTag_enumerationJson (key name : Text) : ownTag key (enumerationJson name) = [] := rfl

theorem kindTags_constructor {name : Text} (known : name ∈ constructors) :
    (enumerationJson name).kindTags = [] :=
  kindTags_enumerationJson (by rw [isKindName, ofName?_constructor name known]; rfl)

@[simp] theorem kindTags_textsJson (ts : List Text) : (textsJson ts).kindTags = [] := by
  simp [textsJson, List.flatMap_map]

@[simp] theorem kindTags_attrJson (a : Attr) : (attrJson a).kindTags = [] := by
  simp [attrJson, List.flatMap_map]

theorem kindTags_citationJson {c : Citation (List Json)} (h : c.Standard) :
    (citationJson c).kindTags = insideTags c.sequences := by
  obtain ⟨⟨t, isText⟩, known⟩ := h
  have mode := kindTags_constructor (show c.mode ∈ constructors by simp [constructors, known])
  have id : ownTag "citationId" c.id = [] := ownTag_of_ne (by decide) c.id
  have noText : c.id.kindTags = [] := by rw [isText, kindTags_str]
  simp [citationJson, id, noText, mode, Citation.sequences, insideTags]

theorem kindTags_captionJson (c : Caption (List Json)) :
    (captionJson c).kindTags = insideTags c.sequences := by
  obtain ⟨long, short⟩ := c
  cases short <;> simp [captionJson, Caption.sequences, insideTags]

theorem kindTags_columnJson {c : Column} (h : c.alignment ∈ alignments) : (columnJson c).kindTags = [] := by
  obtain ⟨alignment, width⟩ := c
  have known : alignment ∈ alignments := h
  have first := kindTags_constructor (show alignment ∈ constructors by simp [constructors, known])
  cases width with
  | none =>
    have second : (enumerationJson "ColWidthDefault").kindTags = [] := kindTags_enumerationJson (by decide)
    simp [columnJson, first, second]
  | some width =>
    have own : (ownTag "t" (.str "ColWidth")).filter isKindName = [] := by decide
    simp [columnJson, first, own]

theorem kindTags_cellJson {c : Cell (List Json)} (h : c.alignment ∈ alignments) :
    (cellJson c).kindTags = insideTags [c.content] := by
  have alignment := kindTags_constructor (show c.alignment ∈ constructors by simp [constructors, h])
  simp [cellJson, alignment, insideTags]

theorem kindTags_rowJson {r : Row (List Json)} (h : r.Standard) :
    (rowJson r).kindTags = insideTags r.sequences := by
  have cells : ∀ c ∈ r.cells, (cellJson c).kindTags = c.content.flatMap kindTags := fun c member => by
    simpa [insideTags] using kindTags_cellJson (h c member)
  simp only [rowJson, kindTags_arr, List.flatMap_cons, List.flatMap_nil, kindTags_attrJson,
    List.nil_append, List.append_nil, List.flatMap_map, insideTags, Row.sequences]
  exact List.flatMap_congr cells

theorem kindTags_rows {rs : List (Row (List Json))} (h : ∀ r ∈ rs, r.Standard) :
    (rs.map rowJson).flatMap kindTags = insideTags (rs.flatMap (·.sequences)) := by
  rw [List.flatMap_map, insideTags_flatMap]
  exact List.flatMap_congr fun r member => kindTags_rowJson (h r member)

theorem kindTags_rowGroupJson {g : RowGroup (List Json)} (h : ∀ r ∈ g.rows, r.Standard) :
    (rowGroupJson g).kindTags = insideTags g.sequences := by
  simp [rowGroupJson, kindTags_rows h, RowGroup.sequences]

theorem kindTags_sectionJson {part : Section (List Json)}
    (h : ∀ r ∈ part.head ++ part.body, r.Standard) :
    (sectionJson part).kindTags = insideTags part.sequences := by
  have head := kindTags_rows fun r member => h r (List.mem_append_left _ member)
  have body := kindTags_rows fun r member => h r (List.mem_append_right _ member)
  simp [sectionJson, head, body, Section.sequences, insideTags_append]

theorem kindTags_tableJson {t : Table (List Json)} (h : t.Standard) :
    (tableJson t).kindTags = insideTags t.sequences := by
  obtain ⟨columns, rows⟩ := h
  simp only [Table.rows, List.mem_append, List.mem_flatMap] at rows
  have columns : (t.columns.map columnJson).flatMap kindTags = [] := by
    rw [List.flatMap_map]
    exact List.flatMap_eq_nil_iff.mpr fun c member => kindTags_columnJson (columns c member)
  have head := kindTags_rowGroupJson fun r member => rows r (.inl (.inl member))
  have foot := kindTags_rowGroupJson fun r member => rows r (.inr member)
  have sections : (t.sections.map sectionJson).flatMap kindTags =
      insideTags (t.sections.flatMap (·.sequences)) := by
    rw [List.flatMap_map, insideTags_flatMap]
    refine List.flatMap_congr fun part inTable => kindTags_sectionJson fun r member => ?_
    exact rows r (.inl (.inr ⟨part, inTable, List.mem_append.mp member⟩))
  simp [tableJson, kindTags_captionJson, columns, head, sections, foot, Table.sequences,
    insideTags_append]

theorem kindTags_definitionJson (d : Definition (List Json)) :
    (definitionJson d).kindTags = insideTags d.sequences := by
  have meanings := kindTags_arrays d.meanings
  simp only [definitionJson, kindTags_arr, List.flatMap_cons, List.flatMap_nil, List.append_nil,
    meanings]
  rfl

theorem kindTags_numberingJson {n : Numbering} (style : n.style ∈ numberStyles)
    (delimiter : n.delimiter ∈ numberDelimiters) : (numberingJson n).kindTags = [] := by
  have style := kindTags_constructor (show n.style ∈ constructors by simp [constructors, style])
  have delimiter := kindTags_constructor (show n.delimiter ∈ constructors by
    simp [constructors, delimiter])
  simp [numberingJson, style, delimiter]

theorem kindTags_entries {m : Mapping Json} (objects : ∀ j ∈ m.map (·.2), ∃ members, j = .obj members) :
    (obj m).kindTags = (m.map (·.2)).flatMap kindTags := by
  induction m with
  | nil => rfl
  | cons entry rest ih =>
    obtain ⟨key, j⟩ := entry
    obtain ⟨members, rfl⟩ := objects j List.mem_cons_self
    have later := ih fun j member => objects j (List.mem_cons_of_mem _ member)
    rw [kindTags_obj_cons, later]
    rfl

theorem insideTags_slots (ss : List (List Json)) :
    ((ss.map Slot.sequence : List (Slot _ (Mapping Json))).flatMap Node.members).flatMap kindTags =
      insideTags ss := by
  rw [List.flatMap_map, insideTags, List.flatMap_assoc]
  rfl

theorem kindTags_shapeJson {e : Element (List Json) (Mapping Json)} (inner : e.kind ≠ .document)
    (named : e.kind ≠ .list) (standard : e.Standard)
    (objects : ∀ j ∈ e.children, ∃ members, j = .obj members) :
    (shapeJson e).kindTags = e.name :: e.children.flatMap kindTags := by
  have own : (ownTag "t" (.str e.name)).filter isKindName = [e.name] := by
    have known : isKindName e.name = true := by simp [isKindName, Element.name, ofName?_name inner named]
    simp [ownTag, known]
  have contents : ((contentsJson? e).map kindTags).getD [] = e.children.flatMap kindTags := by
    cases e with
    | document => exact absurd rfl inner
    | list => exact absurd rfl named
    | metaBool | text | mark | verbatim | raw => simp [contentsJson?, Element.children, Element.slots]
    | math style t =>
      have style := kindTags_constructor (show style ∈ constructors by
        simp [constructors, show style ∈ mathTypes from standard])
      simp [contentsJson?, Element.children, Element.slots, style]
    | metaMap entries =>
      have members : (Element.metaMap entries : Element (List Json) (Mapping Json)).children =
          entries.map (·.2) := List.append_nil _
      rw [members] at objects ⊢
      exact kindTags_entries objects
    | wrap kind bs => simp [contentsJson?, Element.children, Element.slots, Node.members]
    | header level a bs | box kind a bs | target kind a bs url title =>
      simp [contentsJson?, Element.children, Element.slots, Node.members]
    | quoted style bs =>
      have style := kindTags_constructor (show style ∈ constructors by
        simp [constructors, show style ∈ quoteTypes from standard])
      simp [contentsJson?, Element.children, Element.slots, Node.members, style]
    | items kind parts =>
      rw [Element.children, Element.slots, insideTags_slots, ← kindTags_arrays]
      simp [contentsJson?]
    | orderedList numbering parts =>
      obtain ⟨style, delimiter⟩ := standard
      rw [Element.children, Element.slots, insideTags_slots, ← kindTags_arrays]
      simp [contentsJson?, kindTags_numberingJson style delimiter]
    | definitionList parts =>
      rw [Element.children, Element.slots, insideTags_slots, insideTags_flatMap]
      simp [contentsJson?, List.flatMap_map, kindTags_definitionJson]
    | table t =>
      rw [Element.children, Element.slots, insideTags_slots]
      exact kindTags_tableJson standard
    | figure a c bs =>
      rw [Element.children, Element.slots, insideTags_slots, insideTags_append]
      simp [contentsJson?, kindTags_captionJson, insideTags]
    | cite citations bs =>
      have each : (citations.map citationJson).flatMap kindTags =
          insideTags (citations.flatMap (·.sequences)) := by
        rw [List.flatMap_map, insideTags_flatMap]
        exact List.flatMap_congr fun c member => kindTags_citationJson (standard c member)
      rw [Element.children, Element.slots, insideTags_slots, insideTags_append]
      simp [contentsJson?, each, insideTags]
  rw [shapeJson, kindTags_obj_cons, own, kindTags_str, ← contents]
  cases contentsJson? e with
  | none => rfl
  | some c =>
    have apart : ownTag "c" c = [] := ownTag_of_ne (by decide) c
    simp [apart]

theorem elementJson_obj (n : Node) : ∃ members, elementJson n = .obj members := by
  obtain ⟨e⟩ := n
  exact ⟨_, elementJson_mk e⟩

theorem entriesJson_obj (entries : Mapping Node) :
    ∀ j ∈ (entries.map fun (key, n) => (key, elementJson n)).map (·.2), ∃ members, j = .obj members := by
  intro j member
  rw [List.map_map] at member
  obtain ⟨entry, _, rfl⟩ := List.mem_map.mp member
  exact elementJson_obj entry.2

theorem kindTags_elementJson {e : Element (List Node) (Mapping Node)} (inner : e.kind ≠ .document)
    (named : e.kind ≠ .list) (standard : e.Standard) :
    (elementJson (.mk e)).kindTags = e.name :: (e.children.map elementJson).flatMap kindTags := by
  have objects : ∀ j ∈ (e.mapChildren elementJson).children, ∃ members, j = .obj members := by
    intro j member
    rw [Element.children_mapChildren] at member
    obtain ⟨n, _, rfl⟩ := List.mem_map.mp member
    exact elementJson_obj n
  have standard' : (e.mapChildren elementJson).Standard := standard.map _ _
  rw [elementJson_mk, kindTags_shapeJson (by simpa using inner) (by simpa using named) standard' objects,
    Element.children_mapChildren, Element.name, Element.kind_mapChildren]
  rfl

theorem kindTags_document (version : List Int) (metadata : Mapping Node) (blocks : List Node) :
    (treeJson (.node (.mk (.document version metadata blocks)))).kindTags =
      ((metadata.map (·.2) ++ blocks).map elementJson).flatMap kindTags := by
  have values := kindTags_entries (entriesJson_obj metadata)
  rw [List.map_map] at values
  have numbers : (version.map Json.int).flatMap kindTags = [] := by simp [List.flatMap_map]
  simp only [treeJson, documentJson, kindTags_obj_cons, kindTags_obj_nil, kindTags_arr, values, numbers,
    ownTag_arr, ownTag_obj, List.filter_nil, List.nil_append, List.append_nil, List.map_append,
    List.flatMap_append, List.map_map]
  rfl

end Codec

namespace Store

open Codec

variable {s : Store} {root : Root}

theorem Proper.tree (proper : s.Proper root) : (s.tree root).Proper := by
  refine (Tree.proper_iff_holds _).mpr ⟨named_tree proper.acyclic proper.typed, fun x held isDocument => ?_⟩
  obtain ⟨m, inStore, same⟩ := (holds_tree proper.acyclic (by decide)).mp ⟨x, held, isDocument⟩
  exact proper.inner m inStore same

theorem kindTags_nodeWithin {n : NodeId} (inner : s.Inner n) (standard : (s.element n).Standard)
    (fuel : Nat) : (elementJson (s.nodeWithin (fuel + 1) n)).kindTags =
      (s.element n).name ::
        (((s.children n).map (s.nodeWithin fuel)).map elementJson).flatMap Json.kindTags := by
  have same := kind_nodeWithin s fuel n
  have written := kindTags_elementJson (e := (s.nodeWithin (fuel + 1) n).element) (same ▸ inner.1)
    (same ▸ inner.2) (standard.map _ _)
  rw [children_nodeWithin, Element.name, same] at written
  exact written

theorem Listed.kindTags {depth : Nat} {ns : List NodeId} {all : List (NodeId × Nat)}
    (listed : s.Listed depth ns all) {fuel : Nat}
    (enough : ∀ n ∈ ns, ∀ k m, s.Way k n m → k < fuel)
    (fit : ∀ n ∈ ns, ∀ k m, s.Way k n m → s.Inner m ∧ (s.element m).Standard) :
    ((ns.map (s.nodeWithin fuel)).map elementJson).flatMap Json.kindTags =
      all.map fun (n, _) => (s.element n).name := by
  induction listed generalizing fuel with
  | nil => rfl
  | @cons depth n ns inside later below next ihBelow ihNext =>
    have isOwn := enough n List.mem_cons_self
    obtain ⟨fuel, rfl⟩ := Nat.exists_eq_succ_of_ne_zero (by have := isOwn 0 n (.here n); omega : fuel ≠ 0)
    obtain ⟨inner, standard⟩ := fit n List.mem_cons_self 0 n (.here n)
    have children := ihBelow
      (fun m child k x way => Nat.lt_of_succ_lt_succ (isOwn (k + 1) x (.down child way)))
      (fun m child k x way => fit n List.mem_cons_self (k + 1) x (.down child way))
    have others := ihNext (fun m member => enough m (List.mem_cons_of_mem _ member))
      (fun m member => fit m (List.mem_cons_of_mem _ member))
    have here : (elementJson (s.nodeWithin (fuel + 1) n)).kindTags =
        (s.element n).name :: inside.map fun (n, _) => (s.element n).name := by
      rw [kindTags_nodeWithin inner standard, children]
    rw [List.map_cons, List.map_cons, List.flatMap_cons, here, others]
    simp

def rootNames (s : Store) : Root → List Text
  | .node id => if (s.element id).kind = .document then [] else [(s.element id).name]
  | .list _ => []

/-- What is written for a tree has the name of a root that is an element, and then what is written for
the nodes at the top. -/
theorem kindTags_tree (proper : s.Proper root)
    (standard : ∀ id, root = .node id → (s.element id).Standard) {fuel : Nat}
    (top : (s.tree root).top = (s.top root).map (s.nodeWithin fuel)) :
    (treeJson (s.tree root)).kindTags =
      s.rootNames root ++ (((s.top root).map (s.nodeWithin fuel)).map elementJson).flatMap Json.kindTags := by
  rw [← top]
  cases root with
  | list id => exact Json.kindTags_arr _
  | node id =>
    have same := kind_nodeWithin s s.records.size id
    by_cases isDocument : (s.element id).kind = .document
    · rw [rootNames, if_pos isDocument, List.nil_append]
      obtain ⟨version, metadata, blocks, eq⟩ := Element.eq_document (same.trans isDocument)
      have whole : s.tree (.node id) = .node (.mk (.document version metadata blocks)) := by
        rw [← eq]
        rfl
      rw [whole, kindTags_document, Tree.top, Node.element, Element.children, Element.slots]
      simp [Node.members]
    · have written := kindTags_elementJson (e := (s.nodeWithin (s.records.size + 1) id).element)
        (same ▸ isDocument) (same ▸ proper.typed.named id rfl) ((standard id rfl).map _ _)
      rw [Element.name, same] at written
      rw [rootNames, if_neg isDocument]
      have asElement := treeJson_element (e := (s.nodeWithin (s.records.size + 1) id).element)
        (same ▸ isDocument)
      exact (congrArg Json.kindTags asElement).trans written

/-- The names of the nodes of a finite tree, as the walk lists them, are the tags in what is written for
the tree that are names of kinds, in the order of the text; only the tag of a root that is an element
comes before them. -/
theorem names_eq_tags (proper : s.Proper root) (keyed : s.Keyed)
    (standardRoot : ∀ id, root = .node id → (s.element id).Standard)
    (standard : ∀ m, s.Holds root m → (s.element m).Standard) :
    ∃ j, encode (s.tree root) = .ok j ∧ ∃ bound, ∀ fuel, bound ≤ fuel →
      (Walk.run ⟨Walk.keepAll, Walk.noteNode⟩ fuel [.ofRoot root] ⟨s, []⟩).1 = .ok () ∧
      s.rootNames root ++ (Walk.listing fuel s root).map (fun (n, _) => (s.element n).name) =
        j.tags.filter Json.isKindName := by
  obtain ⟨all, listed⟩ := proper.acyclic.listed 1
  obtain ⟨bound, walks⟩ := Walk.lists proper.acyclic keyed listed
  obtain ⟨least, top, enough⟩ := s.top_tree root
  refine ⟨_, encode_eq proper.tree, bound, fun fuel isEnough => ?_⟩
  obtain ⟨walked, isListed⟩ := walks fuel isEnough
  have written := listed.kindTags (enough proper.acyclic) fun n member k m way =>
    have held : s.Holds root m := ⟨n, member, k, way⟩
    ⟨proper.innerOf held, standard m held⟩
  refine ⟨congrArg (·.1) walked, ?_⟩
  rw [isListed, ← written]
  exact (kindTags_tree proper standardRoot top).symm

def survey : Store :=
  .ofElements [.text .str "a", .wrap .metaInlines ⟨0⟩,
      .cite [⟨.str "b", ⟨0⟩, ⟨1⟩, "NormalCitation", 1, 0⟩] ⟨0⟩, .wrap .plain ⟨2⟩,
      .table ⟨.none, ⟨⟨3⟩, some ⟨0⟩⟩, [⟨"AlignLeft", none⟩], ⟨.none, []⟩,
        [⟨.none, 0, [], [⟨.none, [⟨.none, "AlignDefault", 1, 1, ⟨3⟩⟩]⟩]⟩], ⟨.none, []⟩⟩,
      .document [1, 23] ⟨0⟩ ⟨4⟩] [[⟨0⟩], [], [⟨2⟩], [⟨3⟩], [⟨4⟩]] [[("title", ⟨1⟩)]]

theorem survey_names : survey.Proper (.node ⟨5⟩) ∧ survey.Keyed ∧
    (∀ m, (survey.element m).Standard) ∧
    ∃ j, encode (survey.tree (.node ⟨5⟩)) = .ok j ∧ ∃ bound, ∀ fuel, bound ≤ fuel →
      (Walk.listing fuel survey (.node ⟨5⟩)).map (fun (n, _) => (survey.element n).name) =
        j.tags.filter Json.isKindName := by
  have older : ∀ i < survey.records.size, ∀ m ∈ survey.children ⟨i⟩, m.index < i := by decide
  have inner : ∀ i < 5, survey.Inner ⟨i⟩ := by
    unfold Inner
    decide
  have inside : ∀ i < 5, ∀ m ∈ survey.children ⟨i⟩, m.index < 5 := by decide
  have atTop : ∀ m ∈ survey.top (.node ⟨5⟩), m.index < 5 := by decide
  have proper : survey.Proper (.node ⟨5⟩) := by
    refine proper_of_allBelow (by rintro _ ⟨⟩; decide) fun n member => ?_
    have finite : survey.Finite n := finite_of_older older
    exact finite.spread (C := fun n => n.index < 5) (fun n known => inner n.index known)
      (fun n known m child => .inl (inside n.index known m child)) (atTop n member)
  have keyed : survey.Keyed := by decide
  have standard : ∀ m, (survey.element m).Standard := by
    rintro ⟨i⟩
    match i with
    | 0 | 1 | 3 | 5 => trivial
    | 2 => exact fun c member => List.mem_singleton.mp member ▸ ⟨⟨"b", rfl⟩, by decide⟩
    | 4 =>
      constructor
      · decide
      · unfold Row.Standard
        decide
    | i + 6 =>
      rw [survey, element_ofElements]
      trivial
  obtain ⟨j, written, bound, same⟩ :=
    names_eq_tags proper keyed (fun id _ => standard id) fun m _ => standard m
  exact ⟨proper, keyed, standard, j, written, bound, fun fuel enough => (same fuel enough).2⟩

end Store

end DocTree
