import DocTree.Codec.Decode
import DocTree.Proofs.Codec.Written
import DocTree.Version.Range
import Mathlib
/-!
Decoding undoes encoding: what a proper tree is written as is read as that tree.
-/

namespace DocTree.Codec

section

variable {ε α β γ δ : Type}

@[simp] theorem ok_bind (a : α) (f : α → Except ε β) : (Except.ok a >>= f) = f a := rfl

@[simp] theorem ok_map (a : α) (f : α → β) : (f <$> Except.ok a : Except ε β) = .ok (f a) := rfl

@[simp] theorem pure_eq_ok (a : α) : (pure a : Except ε α) = .ok a := rfl

theorem mapM_written {f : α → β} {written : β → γ} {read : γ → Except ε δ} {is : α → δ}
    (each : ∀ a, read (written (f a)) = .ok (is a)) (l : List α) :
    ((l.map f).map written).mapM read = .ok (l.map is) := by
  rw [List.mapM_map, List.mapM_map]
  exact mapM_ok fun a _ => each a

theorem mapM_restored {written : α → γ} {read : γ → Except ε α} {l : List α}
    (each : ∀ a ∈ l, read (written a) = .ok a) : (l.map written).mapM read = .ok l := by
  rw [List.mapM_map]
  have all : l.mapM (read ∘ written) = .ok (l.map id) := mapM_ok each
  rwa [List.map_id] at all

end

@[simp] theorem asText_str (t : Text) : Json.asText (.str t) = t := rfl

@[simp] theorem pair_arr (a b : Json) : pair (.arr [a, b]) = .ok (a, b) := rfl

@[simp] theorem triple_arr (a b c : Json) : triple (.arr [a, b, c]) = .ok (a, b, c) := rfl

@[simp] theorem unpack_four (a b c d : Json) : unpack 4 (.arr [a, b, c, d]) = .ok [a, b, c, d] := rfl

@[simp] theorem unpack_five (a b c d e : Json) :
    unpack 5 (.arr [a, b, c, d, e]) = .ok [a, b, c, d, e] := rfl

@[simp] theorem unpack_six (a b c d e f : Json) :
    unpack 6 (.arr [a, b, c, d, e, f]) = .ok [a, b, c, d, e, f] := rfl

@[simp] theorem whole_int (n : Int) : whole (.int n) = .ok n := rfl

@[simp] theorem listOf_arr (what : Text) (items : List Json) : listOf what (.arr items) = .ok items := rfl

@[simp] theorem enumeration_enumerationJson (name : Text) :
    enumeration (enumerationJson name) = .ok name := rfl

theorem textPair_pairs (pairs : List (Text × Text)) :
    (pairs.map fun (key, value) => textsJson [key, value]).mapM textPair = .ok pairs :=
  mapM_restored fun _ _ => rfl

@[simp] theorem attr_attrJson (a : Attr) : attr (attrJson a) = .ok a := by
  have classes : (a.classes.map Json.str).map Json.asText = a.classes := by
    rw [List.map_map]
    exact List.map_id _
  have texts : textsJson a.classes = .arr (a.classes.map .str) := rfl
  simp only [attr, attrJson, texts, triple_arr, listOf_arr, ok_bind, asText_str, classes,
    textPair_pairs, pure_eq_ok]

theorem column_columnJson (c : Column) : column (columnJson c) = .ok c := by
  obtain ⟨alignment, width⟩ := c
  cases width <;> rfl

section

variable {α β : Type} {child : Json → Decoded α}

theorem citation_obj {ms : Mapping Json} {id lead trail mode noteNum hash : Json} {ns ms' : List α}
    {name : Text} {n m : Int}
    (idAt : ms.get? "citationId" = some id)
    (leadAt : ms.get? "citationPrefix" = some lead) (leadIs : inlines child lead = .ok ns)
    (trailAt : ms.get? "citationSuffix" = some trail) (trailIs : inlines child trail = .ok ms')
    (modeAt : ms.get? "citationMode" = some mode) (modeIs : enumeration mode = .ok name)
    (noteNumAt : ms.get? "citationNoteNum" = some noteNum) (noteNumIs : whole noteNum = .ok n)
    (hashAt : ms.get? "citationHash" = some hash) (hashIs : whole hash = .ok m) :
    citation child (.obj ms) = .ok ⟨id, ns, ms', name, n, m⟩ := by
  simp only [citation, member, memberOr, idAt, leadAt, trailAt, modeAt, noteNumAt, hashAt,
    Option.getD_some, lift_self, ok_bind, leadIs, trailIs, modeIs, noteNumIs, hashIs, pure_eq_ok]

variable {written : β → Json} {is : β → α}
  (each : ∀ b, child (written b) = .ok (is b))

include each

theorem children_map (what : Text) (bs : List β) :
    children child what (.arr (bs.map written)) = .ok (bs.map is) := by
  rw [children_eq, listOf_arr, ok_bind, List.mapM_map]
  exact mapM_ok fun b _ => each b

theorem inlines_map (bs : List β) : inlines child (.arr (bs.map written)) = .ok (bs.map is) :=
  children_map each _ bs

theorem blocks_map (bs : List β) : blocks child (.arr (bs.map written)) = .ok (bs.map is) :=
  children_map each _ bs

theorem blockLists_map (lists : List (List β)) :
    blockLists child (.arr ((lists.map (·.map written)).map .arr)) = .ok (lists.map (·.map is)) :=
  mapM_written (blocks_map each) lists

theorem mapping_map (m : Mapping β) :
    mapping child (.obj (m.map fun (key, b) => (key, written b))) =
      .ok (m.map fun (key, b) => (key, is b)) := by
  rw [mapping_obj, List.mapM_map]
  refine mapM_ok fun e _ => ?_
  simp only [Function.comp_apply, entry, each, ok_bind, pure_eq_ok]

theorem citation_citationJson (c : Citation (List β)) :
    citation child (citationJson (c.map (·.map written))) = .ok (c.map (·.map is)) :=
  citation_obj rfl rfl (inlines_map each c.lead) rfl (inlines_map each c.trail) rfl
    (enumeration_enumerationJson c.mode) rfl (whole_int c.noteNum) rfl (whole_int c.hash)

theorem caption_captionJson (c : Caption (List β)) :
    caption child (captionJson (c.map (·.map written))) = .ok (c.map (·.map is)) := by
  obtain ⟨long, short⟩ := c
  have long := blocks_map each long
  cases short with
  | none => simp only [caption, captionJson, Caption.map, pair_arr, lift_self, ok_bind, long, Option.map_none,
      Option.getD_none, pure_eq_ok]
  | some bs =>
    have short := inlines_map each bs
    simp only [caption, captionJson, Caption.map, pair_arr, lift_self, ok_bind, long, Option.map_some,
      Option.getD_some, short, ok_map, pure_eq_ok]

theorem cell_cellJson (c : Cell (List β)) :
    cell child (cellJson (c.map (·.map written))) = .ok (c.map (·.map is)) := by
  have content := blocks_map each c.content
  simp only [cell, cellJson, Cell.map, unpack_five, lift_self, ok_bind, content, enumeration_enumerationJson,
    whole_int, attr_attrJson, pure_eq_ok]

theorem row_rowJson (r : Row (List β)) :
    row child (rowJson (r.map (·.map written))) = .ok (r.map (·.map is)) := by
  have cells := mapM_written (cell_cellJson each) r.cells
  simp only [row, rowJson, Row.map, pair_arr, listOf_arr, lift_self, ok_bind, cells, attr_attrJson, pure_eq_ok]

theorem rows_rowJson (rs : List (Row (List β))) :
    rows child (.arr ((rs.map (·.map (·.map written))).map rowJson)) = .ok (rs.map (·.map (·.map is))) :=
  mapM_written (row_rowJson each) rs

theorem rowGroup_map (g : RowGroup (List β)) :
    rowGroup child (attrJson g.attr) (.arr ((g.rows.map (·.map (·.map written))).map rowJson)) =
      .ok (g.map (·.map is)) := by
  simp only [rowGroup, rows_rowJson each g.rows, attr_attrJson, lift_self, ok_bind, pure_eq_ok, RowGroup.map]

theorem tableSection_sectionJson (s : Section (List β)) :
    tableSection child (sectionJson (s.map (·.map written))) = .ok (s.map (·.map is)) := by
  simp only [tableSection, sectionJson, Section.map, unpack_four, lift_self, ok_bind, rows_rowJson each s.body,
    rows_rowJson each s.head, whole_int, attr_attrJson, pure_eq_ok]

theorem definition_definitionJson (d : Definition (List β)) :
    definition child (definitionJson (d.map (·.map written))) = .ok (d.map (·.map is)) := by
  simp only [definition, definitionJson, Definition.map, pair_arr, lift_self, ok_bind, inlines_map each d.term,
    blockLists_map each d.meanings, pure_eq_ok]

theorem table_tableJson (t : Table (List β)) :
    table child (tableJson (t.map (·.map written))) = .ok (.table (t.map (·.map is))) := by
  have sections := mapM_written (tableSection_sectionJson each) t.sections
  have columns : columns (.arr (t.columns.map columnJson)) = .ok t.columns :=
    mapM_restored fun c _ => column_columnJson c
  simp only [table, tableJson, Table.map, rowGroupJson, RowGroup.map, unpack_six, lift_self, ok_bind, pair_arr,
    listOf_arr]
  simp only [rowGroup_map each t.head, rowGroup_map each t.foot, sections, ok_bind,
    caption_captionJson each t.caption, columns, attr_attrJson, pure_eq_ok]
  rfl

theorem wrapped_map (kind : WrapKind) (bs : List β) :
    wrapped child kind (.arr (bs.map written)) = .ok (.wrap kind (bs.map is)) := by
  have content (what : Text) := children_map each what bs
  cases kind <;> simp only [wrapped, inlines, blocks, content, ok_map]

/-- The contents of an element are read as they are written. -/
theorem contents_contentsJson {e : Element (List β) (Mapping β)} (inner : e.kind ≠ .document)
    (named : e.kind ≠ .list) :
    contents child e.kind ((contentsJson? (e.mapChildren written)).getD .null) =
      .ok (e.mapChildren is) := by
  cases e with
  | document => exact absurd rfl inner
  | list => exact absurd rfl named
  | metaMap entries =>
    have known := mapping_map each entries
    simp only [Element.mapChildren, Element.map, Element.kind, contentsJson?, Option.getD_some,
      contents, known, ok_map]
  | metaBool | math style t => rfl
  | text kind t => cases kind <;> rfl
  | mark kind => cases kind <;> rfl
  | raw kind format t => cases kind <;> rfl
  | wrap kind bs =>
    have known := wrapped_map each kind bs
    cases kind <;> exact known
  | items kind parts =>
    cases kind with
    | lineBlock =>
      have known := mapM_written (inlines_map each) parts
      simp only [Element.mapChildren, Element.map, Element.kind, ItemsKind.kind, contentsJson?,
        Option.getD_some, contents, listOf_arr, lift_self, ok_bind, known, pure_eq_ok]
    | bulletList =>
      simp only [Element.mapChildren, Element.map, Element.kind, ItemsKind.kind, contentsJson?,
        Option.getD_some, contents, blockLists_map each parts, ok_map]
  | orderedList numbering parts =>
    change orderedList child (.arr [numberingJson numbering,
      .arr ((parts.map (·.map written)).map .arr)]) = _
    simp only [orderedList, numberingJson, pair_arr, triple_arr, lift_self, ok_bind, blockLists_map each parts,
      whole_int, enumeration_enumerationJson]
    rfl
  | definitionList parts =>
    have known := mapM_written (definition_definitionJson each) parts
    simp only [Element.mapChildren, Element.map, Element.kind, contentsJson?, Option.getD_some,
      contents, listOf_arr, lift_self, ok_bind, known, pure_eq_ok]
  | header level a bs =>
    change header child (.arr [.int level, attrJson a, .arr (bs.map written)]) = _
    simp only [header, triple_arr, lift_self, ok_bind, whole_int, inlines_map each bs, attr_attrJson]
    rfl
  | table t => exact table_tableJson each t
  | figure a c bs =>
    change figure child (.arr [attrJson a, captionJson (c.map (·.map written)),
      .arr (bs.map written)]) = _
    simp only [figure, triple_arr, lift_self, ok_bind, blocks_map each bs, caption_captionJson each c,
      attr_attrJson]
    rfl
  | box kind a bs =>
    have asInlines := inlines_map each bs
    have asBlocks := blocks_map each bs
    cases kind <;>
      simp only [Element.mapChildren, Element.map, Element.kind, BoxKind.kind, contentsJson?,
        Option.getD_some, contents, box, pair_arr, lift_self, ok_bind, asInlines, asBlocks, attr_attrJson,
        pure_eq_ok]
  | verbatim kind a t =>
    cases kind <;>
      simp only [Element.mapChildren, Element.map, Element.kind, VerbatimKind.kind, contentsJson?,
        Option.getD_some, contents, verbatim, pair_arr, lift_self, ok_bind, attr_attrJson, asText_str, pure_eq_ok]
  | quoted style bs =>
    change quoted child (.arr [enumerationJson style, .arr (bs.map written)]) = _
    simp only [quoted, pair_arr, lift_self, ok_bind, enumeration_enumerationJson, inlines_map each bs]
    rfl
  | cite citations bs =>
    have known := mapM_written (citation_citationJson each) citations
    change cite child (.arr [.arr ((citations.map (·.map (·.map written))).map citationJson),
      .arr (bs.map written)]) = _
    simp only [cite, pair_arr, listOf_arr, lift_self, ok_bind, known, inlines_map each bs]
    rfl
  | target kind a bs url title =>
    have asInlines := inlines_map each bs
    have place : textsJson [url, title] = .arr [.str url, .str title] := rfl
    cases kind <;>
      simp only [Element.mapChildren, Element.map, Element.kind, TargetKind.kind, contentsJson?,
        Option.getD_some, contents, target, triple_arr, pair_arr, lift_self, ok_bind, place, asInlines,
        attr_attrJson, asText_str, pure_eq_ok]

end

theorem ofName?_name {kind : Kind} (inner : kind ≠ .document) (named : kind ≠ .list) :
    Kind.ofName? kind.name = some kind := by
  cases kind with
  | document => exact absurd rfl inner
  | list => exact absurd rfl named
  | _ => decide

theorem shape_obj {α : Type} {child : Json → Decoded α} {ms : Mapping Json} {kind : Kind}
    {e : Shape α} (inner : kind ≠ .document) (named : kind ≠ .list)
    (tag : ms.get? "t" = some (.str kind.name))
    (known : contents child kind (memberOr "c" .null (.obj ms)) = .ok e) :
    shape child (.obj ms) = .ok e := by
  simp only [shape, tag, kindOf, ofName?_name inner named, lift_self, ok_bind, known, inElement_eq]

theorem memberOr_shapeJson (e : Element (List Json) (Mapping Json)) :
    memberOr "c" .null (shapeJson e) = (contentsJson? e).getD .null := by
  unfold shapeJson
  cases contentsJson? e <;> rfl

theorem shape_shapeJson {α β : Type} {child : Json → Decoded α} {written : β → Json} {is : β → α}
    (each : ∀ b, child (written b) = .ok (is b)) {e : Element (List β) (Mapping β)}
    (inner : e.kind ≠ .document) (named : e.kind ≠ .list) :
    shape child (shapeJson (e.mapChildren written)) = .ok (e.mapChildren is) := by
  have tag : Mapping.get? "t" [("t", Json.str (e.mapChildren written).name)] =
      some (.str e.kind.name) := by
    rw [Element.name, Element.kind_mapChildren]
    rfl
  have known := contents_contentsJson each inner named
  rw [← memberOr_shapeJson] at known
  exact shape_obj inner named tag known

theorem elementWithin_elementJson {n : Node} (proper : n.Proper) {fuel : Nat}
    (enough : (elementJson n).height ≤ fuel) : elementWithin fuel (elementJson n) = .ok n := by
  induction proper generalizing fuel with
  | @mk e inner named below ih =>
    rw [elementJson_mk] at enough ⊢
    cases fuel with
    | zero =>
      rw [shapeJson, Json.height] at enough
      omega
    | succ fuel =>
      have each : ∀ n ∈ e.children, elementWithin fuel (elementJson n) = .ok n := by
        intro n child
        have lower : (elementJson n).height < (shapeJson (e.mapChildren elementJson)).height := by
          refine height_lt_shapeJson (by rwa [Element.kind_mapChildren]) ?_
          rw [Element.children_mapChildren]
          exact List.mem_map_of_mem child
        exact ih n child (by omega)
      obtain ⟨attached, rfl⟩ := Element.exists_attached named each
      rw [Element.kind_mapChildren] at inner named
      have known : shape (elementWithin fuel) (shapeJson (attached.mapChildren (elementJson ·.1))) =
          .ok (attached.mapChildren (·.1)) := shape_shapeJson (fun n => n.2) inner named
      rw [Element.mapChildren_mapChildren]
      rw [elementWithin_succ]
      exact congrArg (Node.mk <$> ·) known

theorem element_elementJson {n : Node} (proper : n.Proper) : element (elementJson n) = .ok n :=
  elementWithin_elementJson proper (Nat.le_refl _)

theorem elements_read {ns : List Node} (proper : ∀ n ∈ ns, n.Proper) :
    (ns.map elementJson).mapM element = .ok ns :=
  mapM_restored fun n member => element_elementJson (proper n member)

theorem mapping_read {m : Mapping Node} (proper : ∀ entry ∈ m, entry.2.Proper) :
    mapping element (.obj (m.map fun (key, n) => (key, elementJson n))) = .ok m := by
  rw [mapping_obj]
  refine mapM_restored fun e member => ?_
  simp only [entry, element_elementJson (proper e member), ok_bind, pure_eq_ok]

theorem version_read (v : List Int) : version (.arr (v.map .int)) = .ok v := by
  have parts : (v.map Json.int).mapM whole = .ok v :=
    mapM_restored fun n _ => whole_int n
  simp only [version, listOf_arr, ok_bind, parts]

theorem isOldLayout_elementJson (ns : List Node) : isOldLayout (ns.map elementJson) = false := by
  match ns with
  | [.mk e, n] =>
    rw [List.map_cons, elementJson_mk, shapeJson]
    cases contentsJson? (e.mapChildren elementJson) <;> rfl
  | [] | [_] | _ :: _ :: _ :: _ => simp [isOldLayout]

section

variable [Versioning]

theorem decode_shapeJson (options : Options) (e : Element (List Json) (Mapping Json)) :
    decode options (shapeJson e) = .node <$> element (shapeJson e) := by
  unfold shapeJson
  cases contentsJson? e <;> rfl

/-- A document is read by its keys, in whatever order they are. -/
theorem document_read {options : Options} {ms : Mapping Json} {versionJ metaJ blocksJ : Json}
    {v : List Int} {metadata : Mapping Node} {content : List Node}
    (versionAt : ms.get? versionKey = some versionJ) (versionIs : version versionJ = .ok v)
    (letThrough : options.validates = true → checkVersion options v = .ok ())
    (metaAt : ms.get? "meta" = some metaJ) (metaIs : mapping element metaJ = .ok metadata)
    (blocksAt : ms.get? "blocks" = some blocksJ) (blocksIs : blocks element blocksJ = .ok content) :
    decode options (.obj ms) = .ok (.node (.mk (.document v metadata content))) := by
  have content : (body v ms : Decoded Node) = .ok (.mk (.document v metadata content)) := by
    simp only [body, blocksAt, metaAt, Option.getD_some]
    change (blocks element blocksJ >>= fun content => mapping element metaJ >>= fun metadata =>
      pure (Node.mk (.document v metadata content))) = _
    rw [blocksIs, ok_bind, metaIs, ok_bind]
    rfl
  rw [decode_document options versionAt, versionIs, ok_bind]
  cases checked : options.validates with
  | false => exact congrArg (Tree.node <$> ·) content
  | true =>
    rw [letThrough checked]
    exact congrArg (Tree.node <$> ·) content

end

end DocTree.Codec

namespace DocTree

def Tree.version? : Tree → Option (List Int)
  | .node (.mk (.document version _ _)) => some version
  | _ => none

namespace Codec

theorem decode_treeJson [Versioning] {t : Tree} (proper : t.Proper) {options : Options}
    (accepted : options.validates = true → ∀ v, t.version? = some v → checkVersion options v = .ok ()) :
    decode options (treeJson t) = .ok t := by
  cases t with
  | list ns =>
    have read := elements_read proper
    rw [treeJson, decode_arr, isOldLayout_elementJson, read]
    rfl
  | node n =>
    obtain ⟨e⟩ := n
    obtain ⟨named, below⟩ := proper
    by_cases root : e.kind = .document
    · obtain ⟨v, metadata, blocks, rfl⟩ := Element.eq_document root
      have values := mapping_read fun entry (member : entry ∈ metadata) =>
        below entry.2 (Element.mapping_children List.mem_cons_self member)
      have content := elements_read fun n (member : n ∈ blocks) =>
        below n (Element.sequence_children (.tail _ (.head _)) member)
      rw [← elements_eq element "block list"] at content
      exact document_read rfl (version_read v) (fun checked => accepted checked v rfl) rfl values
        rfl content
    · have read := element_elementJson (.mk root named below)
      rw [treeJson_element root, elementJson_mk, decode_shapeJson, ← elementJson_mk, read]
      rfl

/-- Every tree that can stand for a document, an element or a list of elements is read back as it was
written, if its version is let through. -/
theorem decode_encode [Versioning] {t : Tree} (proper : t.Proper) {options : Options}
    (accepted : options.validates = true → ∀ v, t.version? = some v → checkVersion options v = .ok ()) :
    ∃ j, encode t = .ok j ∧ decode options j = .ok t :=
  ⟨treeJson t, encode_eq proper, decode_treeJson proper accepted⟩

def titled : Tree :=
  .node (.mk (.document [1, 23, 1] [("title", .mk (.text .metaString "x"))]
    [.mk (.wrap .para [.mk (.text .str "a"), .mk (.mark .space)])]))

section

attribute [local instance] Versioning.ofClauses

theorem titled_read : titled.Proper ∧ checkVersion .default [1, 23, 1] = .ok () ∧
    ∃ j, encode titled = .ok j ∧ decode .default j = .ok titled := by
  have proper : titled.Proper := by decide
  have supported : checkVersion .default [1, 23, 1] = .ok () := by cbv
  have accepted : ∀ v, titled.version? = some v → checkVersion .default v = .ok () := by
    rintro v version
    obtain rfl := Option.some.inj version
    exact supported
  exact ⟨proper, supported, decode_encode proper fun _ => accepted⟩

end

end Codec

end DocTree
