import DocTree.Proofs.Codec.Faults
/-!
The depth that is given to the decoder of elements makes no difference, so long as it is enough. An element
asks the decoder of its children only about values inside its own, which are less high.
-/

namespace DocTree

namespace Json

/-- A value is found strictly inside another. -/
inductive Inside (i : Json) : Json → Prop
  | item {items : List Json} (member : i ∈ items) : Inside i (.arr items)
  | value {members : List (Text × Json)} {entry : Text × Json} (member : entry ∈ members)
    (same : i = entry.2) : Inside i (.obj members)
  | inItem {items : List Json} {j : Json} (member : j ∈ items) (inside : Inside i j) :
    Inside i (.arr items)
  | inValue {members : List (Text × Json)} {entry : Text × Json} (member : entry ∈ members)
    (inside : Inside i entry.2) : Inside i (.obj members)

theorem height_pos (j : Json) : 0 < j.height := by
  cases j <;> simp [height]

theorem Inside.trans {i j k : Json} (inner : i.Inside j) (outer : j.Inside k) : i.Inside k := by
  induction outer with
  | item member => exact .inItem member inner
  | value member same => exact .inValue member (same ▸ inner)
  | inItem member _ ih => exact .inItem member ih
  | inValue member _ ih => exact .inValue member ih

theorem Inside.height_lt {i j : Json} (inside : i.Inside j) : i.height < j.height := by
  induction inside with
  | item member => exact Codec.height_lt_arr member
  | value member same => exact same ▸ Codec.height_lt_obj member
  | inItem member _ ih => exact Nat.lt_trans ih (Codec.height_lt_arr member)
  | inValue member _ ih => exact Nat.lt_trans ih (Codec.height_lt_obj member)

end Json

namespace Codec

section

variable {α β : Type} {good : α → Prop} {bad : Fault → Prop}

theorem Ends.bind_congr {x : Decoded α} {f g : α → Decoded β} (ends : Ends good bad x)
    (same : ∀ a, good a → f a = g a) : x >>= f = x >>= g := by
  cases x with
  | ok a => exact same a ends
  | error _ => rfl

end

/-- Two decoders of elements do the same with all that is inside a value. -/
def AgreeIn (child child' : Json → Decoded Node) (j : Json) : Prop :=
  ∀ i : Json, i.Inside j → child i = child' i

section

variable {child child' : Json → Decoded Node} {j : Json}

namespace AgreeIn

theorem inside (agree : AgreeIn child child' j) {i : Json} (within : i.Inside j) :
    AgreeIn child child' i := fun i' inner => agree i' (inner.trans within)

theorem null : AgreeIn child child' .null := fun _ within => nomatch within

theorem str (t : Text) : AgreeIn child child' (.str t) := fun _ within => nomatch within

theorem part (agree : AgreeIn child child' j) {js : List Json} (parts : sequence? j = some js)
    {i : Json} (member : i ∈ js) : AgreeIn child child' i := by
  cases j with
  | arr items =>
    cases parts
    exact agree.inside (.item member)
  | str t =>
    cases parts
    obtain ⟨c, -, rfl⟩ := List.mem_map.mp member
    exact str [c]
  | obj ms =>
    cases parts
    obtain ⟨entry, -, rfl⟩ := List.mem_map.mp member
    exact str entry.1
  | null | bool | int | float => cases parts

theorem memberOr (agree : AgreeIn child child' j) (key : Text) :
    AgreeIn child child' (Codec.memberOr key (.arr []) j) := by
  have empty : AgreeIn child child' (.arr []) := fun _ within => by
    cases within with
    | item member => exact absurd member List.not_mem_nil
    | inItem member => exact absurd member List.not_mem_nil
  cases j with
  | obj ms =>
    rw [Codec.memberOr]
    cases found : Mapping.get? key ms with
    | none => exact empty
    | some v => exact agree.inside (.value (Mapping.get?_mem found) rfl)
  | _ => exact empty

end AgreeIn

section

variable (agree : AgreeIn child child' j)

include agree

theorem items_congr {α : Type} {read read' : Json → Decoded α} (what : Text)
    (each : ∀ i : Json, i.Inside j → read i = read' i) :
    (do (← listOf what j).mapM read) = (do (← listOf what j).mapM read') := by
  refine (listOf_ends what j).bind_congr fun items isList => ?_
  subst isList
  exact mapM_congr fun i member => each i (.item member)

theorem children_congr (what : Text) : children child what j = children child' what j := by
  rw [children_eq, children_eq]
  exact items_congr agree what agree

theorem inlines_congr : inlines child j = inlines child' j := children_congr agree "inline list"

theorem blocks_congr : blocks child j = blocks child' j := children_congr agree "block list"

theorem blockLists_congr : blockLists child j = blockLists child' j :=
  items_congr agree "list items" fun _ within => blocks_congr (agree.inside within)

theorem mapping_congr : mapping child j = mapping child' j := by
  cases j with
  | obj ms =>
    rw [mapping_obj, mapping_obj]
    refine mapM_congr fun e member => ?_
    rw [entry, entry, agree e.2 (.value member rfl)]
  | _ => rfl

theorem citation_congr : citation child j = citation child' j := by
  rw [citation, citation, inlines_congr (agree.memberOr "citationPrefix"),
    inlines_congr (agree.memberOr "citationSuffix")]

theorem pair_congr {α : Type} {f g : Json × Json → Decoded α}
    (same : ∀ a b, AgreeIn child child' a → AgreeIn child child' b → f (a, b) = g (a, b)) :
    (pair j >>= f) = (pair j >>= g) :=
  (pair_ends j).bind_congr fun (a, b) parts =>
    same a b (agree.part parts (.head _)) (agree.part parts (.tail _ (.head _)))

theorem triple_congr {α : Type} {f g : Json × Json × Json → Decoded α}
    (same : ∀ a b c, AgreeIn child child' b → AgreeIn child child' c → f (a, b, c) = g (a, b, c)) :
    (triple j >>= f) = (triple j >>= g) :=
  (triple_ends j).bind_congr fun (a, b, c) parts =>
    same a b c (agree.part parts (.tail _ (.head _))) (agree.part parts (.tail _ (.tail _ (.head _))))

theorem unpack_congr {α : Type} {count : Nat} {f g : List Json → Decoded α}
    (same : ∀ js, (∀ i ∈ js, AgreeIn child child' i) → f js = g js) :
    (unpack count j >>= f) = (unpack count j >>= g) :=
  (unpack_ends count j).bind_congr fun js known => same js fun _ member => agree.part known.1 member

theorem list_congr {α β : Type} {read read' : Json → Decoded α} {next : List α → Decoded β} (what : Text)
    (each : ∀ i : Json, i.Inside j → read i = read' i) :
    (do next (← (← listOf what j).mapM read)) = (do next (← (← listOf what j).mapM read')) := by
  rw [← bind_assoc, ← bind_assoc, items_congr agree what each]

theorem caption_congr : caption child j = caption child' j := by
  refine pair_congr agree fun short long isShort isLong => ?_
  dsimp only
  rw [blocks_congr isLong]
  cases short with
  | null => rfl
  | _ => simp only [inlines_congr isShort]

theorem cell_congr : cell child j = cell child' j := by
  refine unpack_congr agree fun js parts => ?_
  split
  · next a alignment rowSpan colSpan content =>
    have inContent : AgreeIn child child' content := parts content (by simp)
    rw [blocks_congr inContent]
  · rfl

theorem row_congr : row child j = row child' j := by
  refine pair_congr agree fun a cells _ inCells => ?_
  exact list_congr inCells "row cells" fun _ within => cell_congr (inCells.inside within)

theorem rows_congr : rows child j = rows child' j :=
  items_congr agree "table rows" fun _ within => row_congr (agree.inside within)

theorem rowGroup_congr (a : Json) : rowGroup child a j = rowGroup child' a j := by
  rw [rowGroup, rowGroup, rows_congr agree]

theorem tableSection_congr : tableSection child j = tableSection child' j := by
  refine unpack_congr agree fun js parts => ?_
  split
  · next a headColumns head body =>
    have inHead : AgreeIn child child' head := parts head (by simp)
    have inBody : AgreeIn child child' body := parts body (by simp)
    rw [rows_congr inHead, rows_congr inBody]
  · rfl

theorem definition_congr : definition child j = definition child' j := by
  refine pair_congr agree fun term meanings inTerm inMeanings => ?_
  dsimp only
  rw [inlines_congr inTerm, blockLists_congr inMeanings]

theorem wrapped_congr (kind : WrapKind) : wrapped child kind j = wrapped child' kind j := by
  have same (what : Text) := children_congr agree what
  cases kind <;> exact congrArg (Element.wrap _ <$> ·) (same _)

theorem orderedList_congr : orderedList child j = orderedList child' j := by
  refine pair_congr agree fun numbering parts _ inParts => ?_
  dsimp only
  rw [blockLists_congr inParts]

theorem header_congr : header child j = header child' j := by
  refine triple_congr agree fun level a content _ inContent => ?_
  dsimp only
  rw [inlines_congr inContent]

theorem table_congr : table child j = table child' j := by
  refine unpack_congr agree fun js parts => ?_
  split
  · next a legend columns head sections foot =>
    have inLegend : AgreeIn child child' legend := parts legend (by simp)
    have inHead : AgreeIn child child' head := parts head (by simp)
    have inSections : AgreeIn child child' sections := parts sections (by simp)
    have inFoot : AgreeIn child child' foot := parts foot (by simp)
    refine pair_congr inHead fun headAttr headRows _ inHeadRows => ?_
    refine pair_congr inFoot fun footAttr footRows _ inFootRows => ?_
    dsimp only
    rw [rowGroup_congr inHeadRows, rowGroup_congr inFootRows, caption_congr inLegend]
    refine congrArg _ (funext fun head => ?_)
    exact list_congr inSections "table bodies" fun _ within => tableSection_congr (inSections.inside within)
  · rfl

theorem figure_congr : figure child j = figure child' j := by
  refine triple_congr agree fun a legend content inLegend inContent => ?_
  dsimp only
  rw [blocks_congr inContent, caption_congr inLegend]

theorem box_congr (kind : BoxKind) : box child kind j = box child' kind j := by
  refine pair_congr agree fun a content _ inContent => ?_
  dsimp only
  rw [blocks_congr inContent, inlines_congr inContent]

theorem quoted_congr : quoted child j = quoted child' j := by
  refine pair_congr agree fun style content _ inContent => ?_
  dsimp only
  rw [inlines_congr inContent]

theorem cite_congr : cite child j = cite child' j := by
  refine pair_congr agree fun citations content inCitations inContent => ?_
  dsimp only
  rw [inlines_congr inContent]
  exact list_congr inCitations "citations" fun _ within => citation_congr (inCitations.inside within)

theorem target_congr (kind : TargetKind) : target child kind j = target child' kind j := by
  refine triple_congr agree fun a content place inContent _ => ?_
  dsimp only
  rw [inlines_congr inContent]

theorem contents_congr (kind : Kind) : contents child kind j = contents child' kind j := by
  cases kind
  case metaMap => exact congrArg (Element.metaMap <$> ·) (mapping_congr agree)
  case metaList => exact wrapped_congr agree .metaList
  case metaInlines => exact wrapped_congr agree .metaInlines
  case metaBlocks => exact wrapped_congr agree .metaBlocks
  case plain => exact wrapped_congr agree .plain
  case para => exact wrapped_congr agree .para
  case blockQuote => exact wrapped_congr agree .blockQuote
  case emph => exact wrapped_congr agree .emph
  case underline => exact wrapped_congr agree .underline
  case strong => exact wrapped_congr agree .strong
  case strikeout => exact wrapped_congr agree .strikeout
  case superscript => exact wrapped_congr agree .superscript
  case subscript => exact wrapped_congr agree .subscript
  case smallCaps => exact wrapped_congr agree .smallCaps
  case note => exact wrapped_congr agree .note
  case lineBlock => exact list_congr agree "LineBlock" fun _ within => inlines_congr (agree.inside within)
  case bulletList => exact congrArg (Element.items .bulletList <$> ·) (blockLists_congr agree)
  case orderedList => exact orderedList_congr agree
  case definitionList =>
    exact list_congr agree "definition list items" fun _ within => definition_congr (agree.inside within)
  case header => exact header_congr agree
  case table => exact table_congr agree
  case figure => exact figure_congr agree
  case div => exact box_congr agree .div
  case span => exact box_congr agree .span
  case quoted => exact quoted_congr agree
  case cite => exact cite_congr agree
  case link => exact target_congr agree .link
  case image => exact target_congr agree .image
  all_goals rfl

theorem shape_congr : shape child j = shape child' j := by
  cases j with
  | obj ms =>
    have inContents : AgreeIn child child' (memberOr "c" .null (.obj ms)) := by
      rw [memberOr]
      cases found : Mapping.get? "c" ms with
      | none => exact .null
      | some c => exact agree.inside (.value (Mapping.get?_mem found) rfl)
    simp only [shape, contents_congr inContents]
  | _ => rfl

end

end

theorem elementWithin_eq {j : Json} {fuel : Nat} (enough : j.height ≤ fuel) :
    elementWithin fuel j = element j := by
  suffices same : ∀ fuel fuel' (j : Json), j.height ≤ fuel → j.height ≤ fuel' →
      elementWithin fuel j = elementWithin fuel' j from same _ _ j enough (Nat.le_refl _)
  intro fuel
  induction fuel with
  | zero => exact fun _ j low _ => absurd j.height_pos (by omega)
  | succ fuel ih =>
    intro fuel' j low low'
    cases fuel' with
    | zero => exact absurd j.height_pos (by omega)
    | succ fuel' =>
      have agree : AgreeIn (elementWithin fuel) (elementWithin fuel') j := fun i within =>
        ih fuel' i (by have := within.height_lt; omega) (by have := within.height_lt; omega)
      rw [elementWithin_succ, elementWithin_succ, shape_congr agree]

end Codec

end DocTree
