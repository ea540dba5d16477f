import DocTree.Proofs.Codec.Layout
import DocTree.Proofs.Codec.RoundTrip
import DocTree.Proofs.Text.Mapping
/-!
Values that are laid out as the parts of a document are read, and what they are read as is written as
these values again. Only the order of the keys may differ.
-/

namespace DocTree

/-- Equal but for the order of keys, at any depth. -/
inductive Json.Alike : Json → Json → Prop
  | refl (j : Json) : Alike j j
  | trans {j₁ j₂ j₃ : Json} (first : Alike j₁ j₂) (second : Alike j₂ j₃) : Alike j₁ j₃
  | order {ms ms' : List (Text × Json)} (order : ms.Perm ms') : Alike (.obj ms) (.obj ms')
  | item {j j' : Json} {js js' : List Json} (head : Alike j j') (tail : Alike (.arr js) (.arr js')) :
    Alike (.arr (j :: js)) (.arr (j' :: js'))
  | member {key : Text} {j j' : Json} {ms ms' : List (Text × Json)} (head : Alike j j')
    (tail : Alike (.obj ms) (.obj ms')) : Alike (.obj ((key, j) :: ms)) (.obj ((key, j') :: ms'))

namespace Codec

open Json (Alike)

def Reads {α : Type} (read : Json → Decoded α) (written : α → Json) (good : α → Prop) (j : Json) :
    Prop :=
  ∃ a, read j = .ok a ∧ Alike (written a) j ∧ good a

section

variable {P : Json → Prop} {j : Json}

theorem Fits.items {l : Layout} (h : Fits P (.list l) j) : ∃ js, j = .arr js ∧ ∀ j ∈ js, Fits P l j := by
  cases h with
  | list fit => exact ⟨_, rfl, fit⟩

theorem Fits.array {ls : List Layout} (h : Fits P (.tuple ls) j) : ∃ js, j = .arr js := by
  cases h <;> exact ⟨_, rfl⟩

theorem Fits.next {l : Layout} {ls : List Layout} {js : List Json}
    (h : Fits P (.tuple (l :: ls)) (.arr js)) :
    ∃ j rest, js = j :: rest ∧ Fits P l j ∧ Fits P (.tuple ls) (.arr rest) := by
  cases h with
  | part fits others => exact ⟨_, _, rfl, fits, others⟩

theorem Fits.last {js : List Json} (h : Fits P (.tuple []) (.arr js)) : js = [] := by
  cases h
  rfl

theorem Fits.object {fields : List (Text × Layout)} (h : Fits P (.record fields) j) :
    ∃ ms, j = .obj ms := by
  cases h <;> exact ⟨_, rfl⟩

theorem Fits.nextField {key : Text} {l : Layout} {fields : List (Text × Layout)} {ms : Mapping Json}
    (h : Fits P (.record ((key, l) :: fields)) (.obj ms)) :
    ∃ j rest, ms.Perm ((key, j) :: rest) ∧ Fits P l j ∧ Fits P (.record fields) (.obj rest) := by
  cases h with
  | field fits others order => exact ⟨_, _, order, fits, others⟩

theorem Fits.lastField {ms : Mapping Json} (h : Fits P (.record []) (.obj ms)) : ms = [] := by
  cases h
  rfl

theorem Fits.pair {l₁ l₂ : Layout} (h : Fits P (.tuple [l₁, l₂]) j) :
    ∃ a b, j = .arr [a, b] ∧ Fits P l₁ a ∧ Fits P l₂ b := by
  obtain ⟨_, rfl⟩ := h.array
  obtain ⟨a, _, rfl, first, h⟩ := h.next
  obtain ⟨b, _, rfl, second, h⟩ := h.next
  obtain rfl := h.last
  exact ⟨a, b, rfl, first, second⟩

theorem Fits.triple {l₁ l₂ l₃ : Layout} (h : Fits P (.tuple [l₁, l₂, l₃]) j) :
    ∃ a b c, j = .arr [a, b, c] ∧ Fits P l₁ a ∧ Fits P l₂ b ∧ Fits P l₃ c := by
  obtain ⟨_, rfl⟩ := h.array
  obtain ⟨a, _, rfl, first, h⟩ := h.next
  obtain ⟨b, _, rfl, second, h⟩ := h.next
  obtain ⟨c, _, rfl, third, h⟩ := h.next
  obtain rfl := h.last
  exact ⟨a, b, c, rfl, first, second, third⟩

theorem Fits.isText (h : Fits P .text j) : ∃ t, j = .str t := by
  cases h
  exact ⟨_, rfl⟩

theorem Fits.isWhole (h : Fits P .whole j) : ∃ n, j = .int n := by
  cases h
  exact ⟨_, rfl⟩

theorem Fits.isEnumeration (h : Fits P .enumeration j) : ∃ name, j = enumerationJson name := by
  cases h
  exact ⟨_, rfl⟩

theorem Fits.areTexts (h : Fits P (.list .text) j) : ∃ ts, j = textsJson ts := by
  obtain ⟨js, rfl, fit⟩ := h.items
  clear h
  induction js with
  | nil => exact ⟨[], rfl⟩
  | cons first rest ih =>
    obtain ⟨t, rfl⟩ := (fit first List.mem_cons_self).isText
    obtain ⟨ts, eq⟩ := ih fun j member => fit j (List.mem_cons_of_mem _ member)
    exact ⟨t :: ts, by rw [textsJson, List.map_cons, ← Json.arr.inj eq]⟩

theorem Fits.arePairs (h : Fits P (.list (.tuple [.text, .text])) j) :
    ∃ pairs : List (Text × Text), j = .arr (pairs.map fun (key, value) => textsJson [key, value]) := by
  obtain ⟨js, rfl, fit⟩ := h.items
  clear h
  induction js with
  | nil => exact ⟨[], rfl⟩
  | cons first rest ih =>
    obtain ⟨_, _, rfl, isKey, isValue⟩ := (fit first List.mem_cons_self).pair
    obtain ⟨key, rfl⟩ := isKey.isText
    obtain ⟨value, rfl⟩ := isValue.isText
    obtain ⟨pairs, eq⟩ := ih fun j member => fit j (List.mem_cons_of_mem _ member)
    exact ⟨(key, value) :: pairs, by rw [List.map_cons, ← Json.arr.inj eq]; rfl⟩

theorem Fits.isAttr (h : Fits P .attr j) : ∃ a, j = attrJson a := by
  obtain ⟨_, _, _, rfl, isIdentifier, areClasses, arePairs⟩ := h.triple
  obtain ⟨identifier, rfl⟩ := isIdentifier.isText
  obtain ⟨classes, rfl⟩ := areClasses.areTexts
  obtain ⟨pairs, rfl⟩ := arePairs.arePairs
  exact ⟨⟨identifier, classes, pairs⟩, rfl⟩

theorem mapM_reads {α β : Type} {read : Json → Decoded α} {f : α → β} {written : β → Json}
    {good : α → Prop} {js : List Json}
    (each : ∀ j ∈ js, Reads read (fun a => written (f a)) good j) :
    ∃ as, js.mapM read = .ok as ∧ Alike (.arr ((as.map f).map written)) (.arr js) ∧
      ∀ a ∈ as, good a := by
  induction js with
  | nil => exact ⟨[], rfl, .refl _, by simp⟩
  | cons first rest ih =>
    obtain ⟨a, isRead, alike, isGood⟩ := each first List.mem_cons_self
    obtain ⟨as, areRead, others, all⟩ := ih fun j member => each j (List.mem_cons_of_mem _ member)
    refine ⟨a :: as, ?_, .item alike others, List.forall_mem_cons.mpr ⟨isGood, all⟩⟩
    rw [List.mapM_cons, isRead, ok_bind, areRead, ok_bind, pure_eq_ok]

theorem Reads.items {α β : Type} {l : Layout} {read : Json → Decoded α} {f : α → β}
    {written : β → Json} {good : α → Prop}
    (each : ∀ {j}, Fits P l j → Reads read (fun a => written (f a)) good j)
    (h : Fits P (.list l) j) :
    ∃ js as, j = .arr js ∧ js.mapM read = .ok as ∧
      Alike (.arr ((as.map f).map written)) (.arr js) ∧ ∀ a ∈ as, good a := by
  obtain ⟨js, rfl, fit⟩ := h.items
  obtain ⟨as, areRead, alike, all⟩ := mapM_reads fun j member => each (fit j member)
  exact ⟨js, as, rfl, areRead, alike, all⟩

theorem column_reads (h : Fits P .column j) : Reads column columnJson (fun _ => True) j := by
  obtain ⟨_, _, rfl, isAlignment, isWidth⟩ := h.pair
  obtain ⟨alignment, rfl⟩ := isAlignment.isEnumeration
  cases isWidth with
  | defaultWidth => exact ⟨⟨alignment, none⟩, rfl, .refl _, trivial⟩
  | @width x ms _ order =>
    have distinct : List.Nodup [("t" : Text), "c"] := by decide
    have tag : ms.get? "t" = some (.str "ColWidth") := Mapping.get?_of_perm order distinct
    have number : ms.get? "c" = some (.float x) := Mapping.get?_of_perm order distinct
    refine ⟨⟨alignment, some x⟩, ?_, .item (.refl _) (.item (.order order.symm) (.refl _)), trivial⟩
    have fixed : ("ColWidth" : Text) ≠ "ColWidthDefault" := fun eq => by
      have lengths := congrArg List.length eq
      revert lengths
      decide
    have isTag : enumeration (.obj ms) = .ok "ColWidth" := by
      rw [enumeration, member, tag]
      rfl
    have isReal : real (.float x) = .ok x := rfl
    simp only [column, pair_arr, ok_bind, isTag, if_neg fixed, member, number, Bind.bindLeft, isReal,
      ok_map, enumeration_enumerationJson, pure_eq_ok]

end

def AllProper (sequences : List (List Node)) : Prop := ∀ ns ∈ sequences, ∀ n ∈ ns, n.Proper

theorem AllProper.append {first second : List (List Node)} (h : AllProper first)
    (h' : AllProper second) : AllProper (first ++ second) := List.forall_mem_append.mpr ⟨h, h'⟩

theorem AllProper.cons {ns : List Node} {others : List (List Node)} (h : AllProper [ns])
    (h' : AllProper others) : AllProper (ns :: others) := h.append h'

section

variable {child : Json → Decoded Node} {j : Json}

abbrev ReadsElement (child : Json → Decoded Node) : Json → Prop := Reads child elementJson Node.Proper

theorem elements_reads (what : Text) (h : Fits (ReadsElement child) .elements j) :
    Reads (children child what) (fun ns => .arr (ns.map elementJson)) (fun ns => AllProper [ns]) j := by
  obtain ⟨js, rfl, fit⟩ := h.items
  have each : ∀ j ∈ js, ReadsElement child j := by
    intro j member
    cases fit j member with
    | element known => exact known
  obtain ⟨ns, areRead, alike, proper⟩ := mapM_reads (f := id) each
  rw [List.map_id] at alike
  exact ⟨ns, by rw [elements_eq, areRead], alike, by simpa [AllProper] using proper⟩

theorem blockLists_reads (h : Fits (ReadsElement child) (.list .elements) j) :
    Reads (blockLists child) (fun lists => .arr ((lists.map (·.map elementJson)).map .arr))
      AllProper j := by
  obtain ⟨js, lists, rfl, areRead, alike, proper⟩ := Reads.items (elements_reads "block list") h
  exact ⟨lists, areRead, alike, fun ns inside => proper ns inside ns List.mem_cons_self⟩

theorem entries_reads (h : Fits (ReadsElement child) (.entries .element) j) :
    Reads (mapping child) (fun m => .obj (m.map fun (key, n) => (key, elementJson n)))
      (fun m => ∀ entry ∈ m, entry.2.Proper) j := by
  cases h with
  | @entries _ ms fit =>
    suffices known : ∃ m, ms.mapM (entry child) = .ok m ∧
        Alike (.obj (m.map fun (key, n) => (key, elementJson n))) (.obj ms) ∧
        ∀ entry ∈ m, entry.2.Proper by simpa only [Reads, mapping_obj] using known
    induction ms with
    | nil => exact ⟨[], rfl, .refl _, by simp⟩
    | cons first rest ih =>
      obtain ⟨key, j⟩ := first
      obtain ⟨m, areRead, others, all⟩ := ih fun e member => fit e (List.mem_cons_of_mem _ member)
      cases fit (key, j) List.mem_cons_self with
      | element known =>
        obtain ⟨n, isRead, alike, proper⟩ := known
        refine ⟨(key, n) :: m, ?_, .member alike others, List.forall_mem_cons.mpr ⟨proper, all⟩⟩
        simp only [List.mapM_cons, entry, isRead, ok_bind, pure_eq_ok, areRead]

theorem caption_reads (h : Fits (ReadsElement child) .caption j) :
    Reads (caption child) (fun c => captionJson (c.map (·.map elementJson)))
      (fun c => AllProper c.sequences) j := by
  obtain ⟨_, _, rfl, isShort, isLong⟩ := h.pair
  obtain ⟨long, longRead, longAlike, longProper⟩ := elements_reads "block list" isLong
  have longIs : blocks child _ = .ok long := longRead
  cases isShort with
  | absent =>
    refine ⟨⟨long, none⟩, ?_, .item (.refl _) (.item longAlike (.refl _)), longProper⟩
    simp only [caption, pair_arr, lift_self, ok_bind, longIs, pure_eq_ok]
  | present fits =>
    obtain ⟨short, shortRead, shortAlike, shortProper⟩ := elements_reads "inline list" fits
    obtain ⟨js, rfl, _⟩ := fits.items
    have shortIs : inlines child _ = .ok short := shortRead
    refine ⟨⟨long, some short⟩, ?_, .item shortAlike (.item longAlike (.refl _)), ?_⟩
    · simp only [caption, pair_arr, lift_self, ok_bind, longIs, shortIs, ok_map, pure_eq_ok]
    · exact shortProper.cons longProper

theorem Fits.isCitation {P : Json → Prop} (h : Fits P .citation j) :
    ∃ ms id lead trail mode noteNum hash, j = .obj ms ∧ Fits P .elements lead ∧
      Fits P .elements trail ∧
      ms.Perm [("citationId", .str id), ("citationPrefix", lead), ("citationSuffix", trail),
        ("citationMode", enumerationJson mode), ("citationNoteNum", .int noteNum),
        ("citationHash", .int hash)] := by
  obtain ⟨ms, rfl⟩ := h.object
  obtain ⟨_, _, order₁, isId, h⟩ := h.nextField
  obtain ⟨lead, _, order₂, isLead, h⟩ := h.nextField
  obtain ⟨trail, _, order₃, isTrail, h⟩ := h.nextField
  obtain ⟨_, _, order₄, isMode, h⟩ := h.nextField
  obtain ⟨_, _, order₅, isNoteNum, h⟩ := h.nextField
  obtain ⟨_, _, order₆, isHash, h⟩ := h.nextField
  obtain rfl := h.lastField
  obtain ⟨id, rfl⟩ := isId.isText
  obtain ⟨mode, rfl⟩ := isMode.isEnumeration
  obtain ⟨noteNum, rfl⟩ := isNoteNum.isWhole
  obtain ⟨hash, rfl⟩ := isHash.isWhole
  have last := order₅.trans (order₆.cons _)
  have later := order₃.trans ((order₄.trans (last.cons _)).cons _)
  exact ⟨ms, id, lead, trail, mode, noteNum, hash, rfl, isLead, isTrail,
    order₁.trans ((order₂.trans (later.cons _)).cons _)⟩

theorem citation_reads (h : Fits (ReadsElement child) .citation j) :
    Reads (citation child) (fun c => citationJson (c.map (·.map elementJson)))
      (fun c => AllProper c.sequences) j := by
  obtain ⟨ms, id, _, _, mode, noteNum, hash, rfl, isLead, isTrail, order⟩ := h.isCitation
  obtain ⟨lead, leadRead, leadAlike, leadProper⟩ := elements_reads "inline list" isLead
  obtain ⟨trail, trailRead, trailAlike, trailProper⟩ := elements_reads "inline list" isTrail
  have distinct : List.Nodup [("citationId" : Text), "citationPrefix", "citationSuffix",
      "citationMode", "citationNoteNum", "citationHash"] := by decide
  have found (key : Text) : Mapping.get? key ms = _ := Mapping.get?_of_perm order distinct
  refine ⟨⟨.str id, lead, trail, mode, noteNum, hash⟩, ?_, ?_, ?_⟩
  · exact citation_obj (found _) (found _) leadRead (found _) trailRead (found _)
      (enumeration_enumerationJson mode) (found _) (whole_int noteNum) (found _) (whole_int hash)
  · refine .trans ?_ (.order order.symm)
    exact .member (.refl _) (.member leadAlike (.member trailAlike (.refl _)))
  · exact leadProper.cons trailProper

theorem cell_reads (h : Fits (ReadsElement child) .cell j) :
    Reads (cell child) (fun c => cellJson (c.map (·.map elementJson)))
      (fun c => AllProper [c.content]) j := by
  obtain ⟨_, rfl⟩ := h.array
  obtain ⟨_, _, rfl, isAttr, h⟩ := h.next
  obtain ⟨_, _, rfl, isAlignment, h⟩ := h.next
  obtain ⟨_, _, rfl, isRowSpan, h⟩ := h.next
  obtain ⟨_, _, rfl, isColSpan, h⟩ := h.next
  obtain ⟨_, _, rfl, areElements, h⟩ := h.next
  obtain rfl := h.last
  obtain ⟨a, rfl⟩ := isAttr.isAttr
  obtain ⟨alignment, rfl⟩ := isAlignment.isEnumeration
  obtain ⟨rowSpan, rfl⟩ := isRowSpan.isWhole
  obtain ⟨colSpan, rfl⟩ := isColSpan.isWhole
  obtain ⟨content, isRead, alike, proper⟩ := elements_reads "block list" areElements
  have contentIs : blocks child _ = .ok content := isRead
  refine ⟨⟨a, alignment, rowSpan, colSpan, content⟩, ?_, ?_, proper⟩
  · simp only [cell, unpack_five, lift_self, ok_bind, contentIs, enumeration_enumerationJson, whole_int,
      attr_attrJson, pure_eq_ok]
  · exact .item (.refl _) (.item (.refl _) (.item (.refl _) (.item (.refl _) (.item alike (.refl _)))))

theorem row_reads (h : Fits (ReadsElement child) .row j) :
    Reads (row child) (fun r => rowJson (r.map (·.map elementJson)))
      (fun r => AllProper r.sequences) j := by
  obtain ⟨_, _, rfl, isAttr, areCells⟩ := h.pair
  obtain ⟨a, rfl⟩ := isAttr.isAttr
  obtain ⟨_, cells, rfl, areRead, alike, proper⟩ := Reads.items cell_reads areCells
  refine ⟨⟨a, cells⟩, ?_, .item (.refl _) (.item alike (.refl _)), ?_⟩
  · simp only [row, pair_arr, lift_self, ok_bind, listOf_arr, areRead, attr_attrJson, pure_eq_ok]
  · intro ns inside
    obtain ⟨c, member, rfl⟩ := List.mem_map.mp inside
    exact proper c member _ List.mem_cons_self

theorem rows_reads (h : Fits (ReadsElement child) (.list .row) j) :
    Reads (rows child) (fun rs => .arr ((rs.map (·.map (·.map elementJson))).map rowJson))
      (fun rs => AllProper (rs.flatMap (·.sequences))) j := by
  obtain ⟨_, rs, rfl, areRead, alike, proper⟩ := Reads.items row_reads h
  refine ⟨rs, areRead, alike, fun ns inside => ?_⟩
  obtain ⟨r, member, inRow⟩ := List.mem_flatMap.mp inside
  exact proper r member ns inRow

theorem rowGroup_reads (h : Fits (ReadsElement child) .rowGroup j) :
    ∃ a rowList g, j = .arr [a, rowList] ∧ rowGroup child a rowList = .ok g ∧
      Alike (rowGroupJson (g.map (·.map elementJson))) j ∧ AllProper g.sequences := by
  obtain ⟨_, _, rfl, isAttr, areRows⟩ := h.pair
  obtain ⟨a, rfl⟩ := isAttr.isAttr
  obtain ⟨rs, areRead, alike, proper⟩ := rows_reads areRows
  refine ⟨_, _, ⟨a, rs⟩, rfl, ?_, .item (.refl _) (.item alike (.refl _)), proper⟩
  simp only [rowGroup, areRead, lift_self, ok_bind, attr_attrJson, pure_eq_ok]

theorem tableSection_reads (h : Fits (ReadsElement child) .tableSection j) :
    Reads (tableSection child) (fun s => sectionJson (s.map (·.map elementJson)))
      (fun s => AllProper s.sequences) j := by
  obtain ⟨_, rfl⟩ := h.array
  obtain ⟨_, _, rfl, isAttr, h⟩ := h.next
  obtain ⟨_, _, rfl, isHeadColumns, h⟩ := h.next
  obtain ⟨_, _, rfl, areHead, h⟩ := h.next
  obtain ⟨_, _, rfl, areBody, h⟩ := h.next
  obtain rfl := h.last
  obtain ⟨a, rfl⟩ := isAttr.isAttr
  obtain ⟨headColumns, rfl⟩ := isHeadColumns.isWhole
  obtain ⟨head, headRead, headAlike, headProper⟩ := rows_reads areHead
  obtain ⟨body, bodyRead, bodyAlike, bodyProper⟩ := rows_reads areBody
  refine ⟨⟨a, headColumns, head, body⟩, ?_, ?_, headProper.append bodyProper⟩
  · simp only [tableSection, unpack_four, lift_self, ok_bind, bodyRead, headRead, whole_int, attr_attrJson,
      pure_eq_ok]
  · exact .item (.refl _) (.item (.refl _) (.item headAlike (.item bodyAlike (.refl _))))

theorem definition_reads (h : Fits (ReadsElement child) .definition j) :
    Reads (definition child) (fun d => definitionJson (d.map (·.map elementJson)))
      (fun d => AllProper d.sequences) j := by
  obtain ⟨_, _, rfl, isTerm, areMeanings⟩ := h.pair
  obtain ⟨term, termRead, termAlike, termProper⟩ := elements_reads "inline list" isTerm
  obtain ⟨meanings, areRead, alike, proper⟩ := blockLists_reads areMeanings
  have termIs : inlines child _ = .ok term := termRead
  refine ⟨⟨term, meanings⟩, ?_, .item termAlike (.item alike (.refl _)), ?_⟩
  · simp only [definition, pair_arr, lift_self, ok_bind, termIs, areRead, pure_eq_ok]
  · exact termProper.cons proper

theorem table_reads (h : Fits (ReadsElement child) .table j) :
    ∃ t : Table (List Node), table child j = .ok (.table t) ∧
      Alike (tableJson (t.map (·.map elementJson))) j ∧ AllProper t.sequences := by
  obtain ⟨_, rfl⟩ := h.array
  obtain ⟨_, _, rfl, isAttr, h⟩ := h.next
  obtain ⟨_, _, rfl, isCaption, h⟩ := h.next
  obtain ⟨_, _, rfl, areColumns, h⟩ := h.next
  obtain ⟨_, _, rfl, isHead, h⟩ := h.next
  obtain ⟨_, _, rfl, areSections, h⟩ := h.next
  obtain ⟨_, _, rfl, isFoot, h⟩ := h.next
  obtain rfl := h.last
  obtain ⟨a, rfl⟩ := isAttr.isAttr
  obtain ⟨c, captionRead, captionAlike, captionProper⟩ := caption_reads isCaption
  obtain ⟨_, columns, rfl, columnsRead, columnsAlike, _⟩ := Reads.items (f := id) column_reads areColumns
  obtain ⟨headAttr, headRows, head, rfl, headRead, headAlike, headProper⟩ := rowGroup_reads isHead
  obtain ⟨_, sections, rfl, sectionsRead, sectionsAlike, sectionsProper⟩ :=
    Reads.items tableSection_reads areSections
  obtain ⟨footAttr, footRows, foot, rfl, footRead, footAlike, footProper⟩ := rowGroup_reads isFoot
  rw [List.map_id] at columnsAlike
  refine ⟨⟨a, c, columns, head, sections, foot⟩, ?_, ?_, ?_⟩
  · simp only [table, unpack_six, lift_self, ok_bind, pair_arr, listOf_arr, headRead, sectionsRead, footRead,
      captionRead, Codec.columns, columnsRead, attr_attrJson, pure_eq_ok]
  · exact .item (.refl _) (.item captionAlike (.item columnsAlike (.item headAlike
      (.item sectionsAlike (.item footAlike (.refl _))))))
  · have inSections : AllProper (sections.flatMap (·.sequences)) := by
      intro ns inside
      obtain ⟨s, member, own⟩ := List.mem_flatMap.mp inside
      exact sectionsProper s member ns own
    exact ((captionProper.append headProper).append inSections).append footProper

/-- The contents of an element of a kind are read, as contents that are written as that value. -/
def ReadsContents (child : Json → Decoded Node) (kind : Kind) (c : Json) : Prop :=
  ∃ e written, contents child kind c = .ok e ∧ e.kind = kind ∧
    contentsJson? (e.mapChildren elementJson) = some written ∧ Alike written c ∧
    ∀ n ∈ e.children, n.Proper

theorem children_proper {e : Element (List Node) (Mapping Node)} (sequences : List (List Node))
    (slots : e.slots = sequences.map .sequence) (proper : AllProper sequences) :
    ∀ n ∈ e.children, n.Proper := by
  intro n inside
  obtain ⟨slot, own, member⟩ := List.mem_flatMap.mp inside
  rw [slots] at own
  obtain ⟨ns, sequence, rfl⟩ := List.mem_map.mp own
  exact proper ns sequence n member

variable {c : Json}

theorem wrapped_reads (kind : WrapKind) (h : Fits (ReadsElement child) .elements c) :
    ReadsContents child kind.kind c := by
  have known (what : Text) := elements_reads what h
  have read : ∃ ns, wrapped child kind c = .ok (.wrap kind ns) ∧
      Alike (.arr (ns.map elementJson)) c ∧ AllProper [ns] := by
    cases kind with
    | metaList =>
      obtain ⟨ns, isRead, alike, proper⟩ := known "MetaList"
      exact ⟨ns, congrArg (Element.wrap _ <$> ·) isRead, alike, proper⟩
    | metaBlocks | blockQuote | note =>
      obtain ⟨ns, isRead, alike, proper⟩ := known "block list"
      exact ⟨ns, congrArg (Element.wrap _ <$> ·) isRead, alike, proper⟩
    | _ =>
      obtain ⟨ns, isRead, alike, proper⟩ := known "inline list"
      exact ⟨ns, congrArg (Element.wrap _ <$> ·) isRead, alike, proper⟩
  obtain ⟨ns, isRead, alike, proper⟩ := read
  have same : contents child kind.kind c = wrapped child kind c := by cases kind <;> rfl
  exact ⟨_, _, same.trans isRead, rfl, rfl, alike, children_proper [_] rfl proper⟩

theorem leafText_reads (kind : TextKind) (h : Fits (ReadsElement child) .text c) :
    ReadsContents child kind.kind c := by
  obtain ⟨t, rfl⟩ := h.isText
  have same : contents child kind.kind (.str t) = .ok (.text kind t) := by cases kind <;> rfl
  exact ⟨_, _, same, rfl, rfl, .refl _, children_proper [] rfl nofun⟩

theorem box_reads (kind : BoxKind) (h : Fits (ReadsElement child) (.tuple [.attr, .elements]) c) :
    ReadsContents child kind.kind c := by
  obtain ⟨_, _, rfl, isAttr, areElements⟩ := h.pair
  obtain ⟨a, rfl⟩ := isAttr.isAttr
  cases kind with
  | div =>
    obtain ⟨ns, isRead, alike, proper⟩ := elements_reads "block list" areElements
    refine ⟨.box .div a ns, _, ?_, rfl, rfl, .item (.refl _) (.item alike (.refl _)),
      children_proper [_] rfl proper⟩
    have content : blocks child _ = .ok ns := isRead
    simp only [BoxKind.kind, contents, box, pair_arr, lift_self, ok_bind, content, attr_attrJson, pure_eq_ok]
  | span =>
    obtain ⟨ns, isRead, alike, proper⟩ := elements_reads "inline list" areElements
    refine ⟨.box .span a ns, _, ?_, rfl, rfl, .item (.refl _) (.item alike (.refl _)),
      children_proper [_] rfl proper⟩
    have content : inlines child _ = .ok ns := isRead
    simp only [BoxKind.kind, contents, box, pair_arr, lift_self, ok_bind, content, attr_attrJson, pure_eq_ok]

theorem verbatim_reads (kind : VerbatimKind) (h : Fits (ReadsElement child) (.tuple [.attr, .text]) c) :
    ReadsContents child kind.kind c := by
  obtain ⟨_, _, rfl, isAttr, isText⟩ := h.pair
  obtain ⟨a, rfl⟩ := isAttr.isAttr
  obtain ⟨t, rfl⟩ := isText.isText
  refine ⟨.verbatim kind a t, _, ?_, rfl, rfl, .refl _, children_proper [] rfl nofun⟩
  cases kind <;>
    simp only [VerbatimKind.kind, contents, verbatim, pair_arr, lift_self, ok_bind, attr_attrJson, asText_str,
      pure_eq_ok]

theorem raw_reads (kind : RawKind) (h : Fits (ReadsElement child) (.tuple [.text, .text]) c) :
    ReadsContents child kind.kind c := by
  obtain ⟨_, _, rfl, isFormat, isText⟩ := h.pair
  obtain ⟨format, rfl⟩ := isFormat.isText
  obtain ⟨t, rfl⟩ := isText.isText
  refine ⟨.raw kind format t, _, ?_, rfl, rfl, .refl _, children_proper [] rfl nofun⟩
  cases kind <;> rfl

theorem target_reads (kind : TargetKind)
    (h : Fits (ReadsElement child) (.tuple [.attr, .elements, .tuple [.text, .text]]) c) :
    ReadsContents child kind.kind c := by
  obtain ⟨_, _, _, rfl, isAttr, areElements, isPlace⟩ := h.triple
  obtain ⟨a, rfl⟩ := isAttr.isAttr
  obtain ⟨ns, isRead, alike, proper⟩ := elements_reads "inline list" areElements
  obtain ⟨_, _, rfl, isUrl, isTitle⟩ := isPlace.pair
  obtain ⟨url, rfl⟩ := isUrl.isText
  obtain ⟨title, rfl⟩ := isTitle.isText
  have content : inlines child _ = .ok ns := isRead
  refine ⟨.target kind a ns url title, _, ?_, rfl, rfl, .item (.refl _) (.item alike (.refl _)),
    children_proper [_] rfl proper⟩
  cases kind <;>
    simp only [TargetKind.kind, contents, target, triple_arr, pair_arr, lift_self, ok_bind, content,
      attr_attrJson, asText_str, pure_eq_ok]

theorem items_reads (kind : ItemsKind) (h : Fits (ReadsElement child) (.list .elements) c) :
    ReadsContents child kind.kind c := by
  cases kind with
  | lineBlock =>
    obtain ⟨_, parts, rfl, areRead, alike, proper⟩ := Reads.items (elements_reads "inline list") h
    refine ⟨.items .lineBlock parts, _, ?_, rfl, rfl, alike, children_proper parts rfl ?_⟩
    · have content : List.mapM (inlines child) _ = .ok parts := areRead
      simp only [ItemsKind.kind, contents, listOf_arr, lift_self, ok_bind, content, pure_eq_ok]
    · exact fun ns inside => proper ns inside ns List.mem_cons_self
  | bulletList =>
    obtain ⟨parts, areRead, alike, proper⟩ := blockLists_reads h
    exact ⟨.items .bulletList parts, _, congrArg (Element.items _ <$> ·) areRead, rfl, rfl, alike,
      children_proper parts rfl proper⟩

theorem orderedList_reads
    (h : Fits (ReadsElement child) (.tuple [.numbering, .list .elements]) c) :
    ReadsContents child .orderedList c := by
  obtain ⟨_, _, rfl, isNumbering, areParts⟩ := h.pair
  obtain ⟨_, _, _, rfl, isStart, isStyle, isDelimiter⟩ := isNumbering.triple
  obtain ⟨start, rfl⟩ := isStart.isWhole
  obtain ⟨style, rfl⟩ := isStyle.isEnumeration
  obtain ⟨delimiter, rfl⟩ := isDelimiter.isEnumeration
  obtain ⟨parts, areRead, alike, proper⟩ := blockLists_reads areParts
  refine ⟨.orderedList ⟨start, style, delimiter⟩ parts, _, ?_, rfl, rfl,
    .item (.refl _) (.item alike (.refl _)), children_proper parts rfl proper⟩
  simp only [contents, orderedList, pair_arr, triple_arr, lift_self, ok_bind, areRead, whole_int,
    enumeration_enumerationJson, pure_eq_ok]

theorem definitionList_reads (h : Fits (ReadsElement child) (.list .definition) c) :
    ReadsContents child .definitionList c := by
  obtain ⟨_, parts, rfl, areRead, alike, proper⟩ := Reads.items definition_reads h
  refine ⟨.definitionList parts, _, ?_, rfl, rfl, alike,
    children_proper (parts.flatMap (·.sequences)) rfl ?_⟩
  · simp only [contents, listOf_arr, lift_self, ok_bind, areRead, pure_eq_ok]
  · intro ns inside
    obtain ⟨d, member, own⟩ := List.mem_flatMap.mp inside
    exact proper d member ns own

theorem header_reads (h : Fits (ReadsElement child) (.tuple [.whole, .attr, .elements]) c) :
    ReadsContents child .header c := by
  obtain ⟨_, _, _, rfl, isLevel, isAttr, areElements⟩ := h.triple
  obtain ⟨level, rfl⟩ := isLevel.isWhole
  obtain ⟨a, rfl⟩ := isAttr.isAttr
  obtain ⟨ns, isRead, alike, proper⟩ := elements_reads "inline list" areElements
  have content : inlines child _ = .ok ns := isRead
  refine ⟨.header level a ns, _, ?_, rfl, rfl,
    .item (.refl _) (.item (.refl _) (.item alike (.refl _))), children_proper [_] rfl proper⟩
  simp only [contents, header, triple_arr, lift_self, ok_bind, whole_int, content, attr_attrJson, pure_eq_ok]

theorem figure_reads (h : Fits (ReadsElement child) (.tuple [.attr, .caption, .elements]) c) :
    ReadsContents child .figure c := by
  obtain ⟨_, _, _, rfl, isAttr, isCaption, areElements⟩ := h.triple
  obtain ⟨a, rfl⟩ := isAttr.isAttr
  obtain ⟨legend, captionRead, captionAlike, captionProper⟩ := caption_reads isCaption
  obtain ⟨ns, isRead, alike, proper⟩ := elements_reads "block list" areElements
  have content : blocks child _ = .ok ns := isRead
  refine ⟨.figure a legend ns, _, ?_, rfl, rfl,
    .item (.refl _) (.item captionAlike (.item alike (.refl _))),
    children_proper (legend.sequences ++ [ns]) rfl (captionProper.append proper)⟩
  simp only [contents, figure, triple_arr, lift_self, ok_bind, content, captionRead, attr_attrJson, pure_eq_ok]

theorem quoted_reads (h : Fits (ReadsElement child) (.tuple [.enumeration, .elements]) c) :
    ReadsContents child .quoted c := by
  obtain ⟨_, _, rfl, isStyle, areElements⟩ := h.pair
  obtain ⟨style, rfl⟩ := isStyle.isEnumeration
  obtain ⟨ns, isRead, alike, proper⟩ := elements_reads "inline list" areElements
  have content : inlines child _ = .ok ns := isRead
  refine ⟨.quoted style ns, _, ?_, rfl, rfl, .item (.refl _) (.item alike (.refl _)),
    children_proper [_] rfl proper⟩
  simp only [contents, quoted, pair_arr, lift_self, ok_bind, enumeration_enumerationJson, content, pure_eq_ok]

theorem cite_reads (h : Fits (ReadsElement child) (.tuple [.list .citation, .elements]) c) :
    ReadsContents child .cite c := by
  obtain ⟨_, _, rfl, areCitations, areElements⟩ := h.pair
  obtain ⟨_, citations, rfl, areRead, citationsAlike, citationsProper⟩ :=
    Reads.items citation_reads areCitations
  obtain ⟨ns, isRead, alike, proper⟩ := elements_reads "inline list" areElements
  have content : inlines child _ = .ok ns := isRead
  have inCitations : AllProper (citations.flatMap (·.sequences)) := by
    intro ns inside
    obtain ⟨d, member, own⟩ := List.mem_flatMap.mp inside
    exact citationsProper d member ns own
  refine ⟨.cite citations ns, _, ?_, rfl, rfl, .item citationsAlike (.item alike (.refl _)),
    children_proper (citations.flatMap (·.sequences) ++ [ns]) rfl (inCitations.append proper)⟩
  simp only [contents, cite, pair_arr, listOf_arr, lift_self, ok_bind, areRead, content, pure_eq_ok]

theorem math_reads (h : Fits (ReadsElement child) (.tuple [.enumeration, .text]) c) :
    ReadsContents child .math c := by
  obtain ⟨_, _, rfl, isStyle, isText⟩ := h.pair
  obtain ⟨style, rfl⟩ := isStyle.isEnumeration
  obtain ⟨t, rfl⟩ := isText.isText
  exact ⟨.math style t, _, rfl, rfl, rfl, .refl _, children_proper [] rfl nofun⟩

theorem contents_reads {kind : Kind} {l : Layout} (layout : Layout.ofKind? kind = some l)
    (h : Fits (ReadsElement child) l c) : ReadsContents child kind c := by
  cases kind <;> cases layout
  case metaMap =>
    obtain ⟨m, areRead, alike, proper⟩ := entries_reads h
    refine ⟨.metaMap m, _, congrArg (Element.metaMap <$> ·) areRead, rfl, rfl, alike, ?_⟩
    intro n inside
    obtain ⟨slot, own, member⟩ := List.mem_flatMap.mp inside
    obtain rfl := List.mem_singleton.mp own
    obtain ⟨entry, inEntries, rfl⟩ := List.mem_map.mp member
    exact proper entry inEntries
  case metaBool =>
    cases h with
    | flag b => exact ⟨.metaBool b, _, rfl, rfl, rfl, .refl _, children_proper [] rfl nofun⟩
  case metaList => exact wrapped_reads .metaList h
  case metaInlines => exact wrapped_reads .metaInlines h
  case metaBlocks => exact wrapped_reads .metaBlocks h
  case plain => exact wrapped_reads .plain h
  case para => exact wrapped_reads .para h
  case blockQuote => exact wrapped_reads .blockQuote h
  case emph => exact wrapped_reads .emph h
  case underline => exact wrapped_reads .underline h
  case strong => exact wrapped_reads .strong h
  case strikeout => exact wrapped_reads .strikeout h
  case superscript => exact wrapped_reads .superscript h
  case subscript => exact wrapped_reads .subscript h
  case smallCaps => exact wrapped_reads .smallCaps h
  case note => exact wrapped_reads .note h
  case metaString => exact leafText_reads .metaString h
  case str => exact leafText_reads .str h
  case lineBlock => exact items_reads .lineBlock h
  case bulletList => exact items_reads .bulletList h
  case codeBlock => exact verbatim_reads .codeBlock h
  case code => exact verbatim_reads .code h
  case rawBlock => exact raw_reads .rawBlock h
  case rawInline => exact raw_reads .rawInline h
  case div => exact box_reads .div h
  case span => exact box_reads .span h
  case link => exact target_reads .link h
  case image => exact target_reads .image h
  case orderedList => exact orderedList_reads h
  case definitionList => exact definitionList_reads h
  case header => exact header_reads h
  case table =>
    obtain ⟨t, isRead, alike, proper⟩ := table_reads h
    exact ⟨.table t, _, isRead, rfl, rfl, alike, children_proper t.sequences rfl proper⟩
  case figure => exact figure_reads h
  case quoted => exact quoted_reads h
  case cite => exact cite_reads h
  case math => exact math_reads h

end

end Codec

end DocTree
