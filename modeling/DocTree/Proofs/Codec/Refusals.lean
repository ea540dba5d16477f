import DocTree.Codec.Decode
/-!
Refusals that are about the version of a document. No element is ever refused for it, whatever it is.
-/

namespace DocTree.Codec

def Refusal.isOfVersion : Refusal → Bool
  | badVersion .. | invalidVersion .. | unsupportedVersion .. => true
  | _ => false

def Unversioned {α : Type} (x : Decoded α) : Prop :=
  ∀ r, x = .error (.refused r) → r.isOfVersion = false

namespace Unversioned

variable {α β γ : Type}

theorem ok (a : α) : Unversioned (.ok a : Decoded α) := nofun

theorem of_fail (d : Defect) : Unversioned (fail d : Decoded α) := nofun

theorem of_refuse {r : Refusal} (other : r.isOfVersion = false) : Unversioned (refuse r : Decoded α) := by
  rintro _ ⟨⟩
  exact other

theorem bind {x : Decoded α} {next : α → Decoded β} (first : Unversioned x)
    (later : ∀ a, Unversioned (next a)) : Unversioned (x >>= next) := by
  cases x with
  | ok a => exact later a
  | error f =>
    rintro r ⟨⟩
    exact first r rfl

theorem map {x : Decoded α} (known : Unversioned x) (g : α → β) : Unversioned (g <$> x) := by
  cases x with
  | ok a => exact nofun
  | error f =>
    rintro r ⟨⟩
    exact known r rfl

theorem mapM {read : γ → Decoded α} (each : ∀ c, Unversioned (read c)) (items : List γ) :
    Unversioned (items.mapM read) := by
  induction items with
  | nil => exact .ok []
  | cons c items ih =>
    rw [List.mapM_cons]
    exact (each c).bind fun a => ih.bind fun as => .ok (a :: as)

end Unversioned

theorem unpack_unversioned (count : Nat) (j : Json) : Unversioned (unpack count j) := by
  unfold unpack
  repeat' split
  all_goals exact nofun

theorem pair_unversioned (j : Json) : Unversioned (pair j) :=
  (unpack_unversioned 2 j).bind fun parts => by split <;> exact nofun

theorem triple_unversioned (j : Json) : Unversioned (triple j) :=
  (unpack_unversioned 3 j).bind fun parts => by split <;> exact nofun

theorem listOf_unversioned (what : Text) (j : Json) : Unversioned (listOf what j) := by
  cases j with
  | arr items => exact .ok items
  | _ => exact .of_refuse rfl

theorem member_unversioned (key : Text) (j : Json) : Unversioned (member key j) := by
  cases j with
  | obj members =>
    rw [member]
    split <;> exact nofun
  | _ => exact .of_fail _

theorem enumeration_unversioned (j : Json) : Unversioned (enumeration j) := (member_unversioned "t" j).map _

theorem whole_unversioned (j : Json) : Unversioned (whole j) := by
  unfold whole
  repeat' split
  all_goals exact nofun

theorem real_unversioned (j : Json) : Unversioned (real j) := by
  unfold real
  repeat' split
  all_goals exact nofun

theorem textPair_unversioned (j : Json) : Unversioned (textPair j) := (pair_unversioned j).bind fun _ => .ok _

theorem items_unversioned {α β : Type} {read : Json → Decoded α} {next : List α → Decoded β}
    (each : ∀ j, Unversioned (read j)) (what : Text) (j : Json) (later : ∀ as, Unversioned (next as)) :
    Unversioned (do next (← (← listOf what j).mapM read)) :=
  (listOf_unversioned what j).bind fun items => (Unversioned.mapM each items).bind later

theorem attr_unversioned (j : Json) : Unversioned (attr j) :=
  (triple_unversioned j).bind fun _ => (listOf_unversioned _ _).bind fun _ =>
    items_unversioned textPair_unversioned _ _ fun _ => .ok _

section

variable {child : Json → Decoded Node} (each : ∀ j, Unversioned (child j))

include each

theorem children_unversioned (what : Text) (j : Json) : Unversioned (children child what j) := by
  rw [children_eq]
  exact (listOf_unversioned what j).bind (Unversioned.mapM each)

theorem blockLists_unversioned (j : Json) : Unversioned (blockLists child j) :=
  (listOf_unversioned _ j).bind (.mapM (children_unversioned each _))

theorem mapping_unversioned (j : Json) : Unversioned (mapping child j) := by
  cases j with
  | obj members =>
    rw [mapping_obj]
    exact .mapM (fun e => (each e.2).bind fun _ => .ok _) members
  | _ => exact .of_refuse rfl

theorem citation_unversioned (j : Json) : Unversioned (citation child j) :=
  (member_unversioned _ j).bind fun _ => (children_unversioned each _ _).bind fun _ =>
    (children_unversioned each _ _).bind fun _ => (member_unversioned _ j).bind fun mode =>
      (enumeration_unversioned mode).bind fun _ => (whole_unversioned _).bind fun _ =>
        (whole_unversioned _).bind fun _ => .ok _

theorem caption_unversioned (j : Json) : Unversioned (caption child j) := by
  refine (pair_unversioned j).bind fun (short, long) => (children_unversioned each _ long).bind fun _ => ?_
  have present : Unversioned (some <$> inlines child short) := (children_unversioned each _ short).map _
  cases short with
  | null => exact .ok _
  | _ => exact present.bind fun _ => .ok _

omit each in
theorem column_unversioned (j : Json) : Unversioned (column j) := by
  refine (pair_unversioned j).bind fun (alignment, width) => (enumeration_unversioned width).bind fun _ => ?_
  have last (w : Option Binary64) : Unversioned (do return (⟨← enumeration alignment, w⟩ : Column)) :=
    (enumeration_unversioned alignment).bind fun _ => .ok _
  split
  · exact last none
  · exact (((member_unversioned "c" width).bind real_unversioned).map some).bind last

omit each in
theorem columns_unversioned (j : Json) : Unversioned (columns j) :=
  (listOf_unversioned _ j).bind (.mapM column_unversioned)

theorem cell_unversioned (j : Json) : Unversioned (cell child j) := by
  refine (unpack_unversioned 5 j).bind fun parts => ?_
  split
  · exact (children_unversioned each _ _).bind fun _ => (enumeration_unversioned _).bind fun _ =>
      (whole_unversioned _).bind fun _ => (whole_unversioned _).bind fun _ =>
        (attr_unversioned _).bind fun _ => .ok _
  · exact .of_fail _

theorem row_unversioned (j : Json) : Unversioned (row child j) :=
  (pair_unversioned j).bind fun _ => items_unversioned (cell_unversioned each) _ _ fun _ =>
    (attr_unversioned _).bind fun _ => .ok _

theorem rows_unversioned (j : Json) : Unversioned (rows child j) :=
  (listOf_unversioned _ j).bind (.mapM (row_unversioned each))

theorem rowGroup_unversioned (a rowList : Json) : Unversioned (rowGroup child a rowList) :=
  (rows_unversioned each rowList).bind fun _ => (attr_unversioned a).bind fun _ => .ok _

theorem tableSection_unversioned (j : Json) : Unversioned (tableSection child j) := by
  refine (unpack_unversioned 4 j).bind fun parts => ?_
  split
  · exact (rows_unversioned each _).bind fun _ => (rows_unversioned each _).bind fun _ =>
      (whole_unversioned _).bind fun _ => (attr_unversioned _).bind fun _ => .ok _
  · exact .of_fail _

theorem definition_unversioned (j : Json) : Unversioned (definition child j) :=
  (pair_unversioned j).bind fun (term, meanings) => (children_unversioned each _ term).bind fun _ =>
    (blockLists_unversioned each meanings).bind fun _ => .ok _

theorem wrapped_unversioned (kind : WrapKind) (j : Json) : Unversioned (wrapped child kind j) := by
  cases kind <;> exact (children_unversioned each _ j).map _

theorem orderedList_unversioned (j : Json) : Unversioned (orderedList child j) :=
  (pair_unversioned j).bind fun (numbering, parts) => (triple_unversioned numbering).bind fun _ =>
    (blockLists_unversioned each parts).bind fun _ => (whole_unversioned _).bind fun _ =>
      (enumeration_unversioned _).bind fun _ => (enumeration_unversioned _).bind fun _ => .ok _

theorem header_unversioned (j : Json) : Unversioned (header child j) :=
  (triple_unversioned j).bind fun _ => (whole_unversioned _).bind fun _ =>
    (children_unversioned each _ _).bind fun _ => (attr_unversioned _).bind fun _ => .ok _

theorem table_unversioned (j : Json) : Unversioned (table child j) := by
  refine (unpack_unversioned 6 j).bind fun parts => ?_
  split
  · exact (pair_unversioned _).bind fun _ => (pair_unversioned _).bind fun _ =>
      (rowGroup_unversioned each _ _).bind fun _ => items_unversioned (tableSection_unversioned each) _ _
        fun _ => (rowGroup_unversioned each _ _).bind fun _ => (caption_unversioned each _).bind
          fun _ => (columns_unversioned _).bind fun _ => (attr_unversioned _).bind fun _ => .ok _
  · exact .of_fail _

theorem figure_unversioned (j : Json) : Unversioned (figure child j) :=
  (triple_unversioned j).bind fun _ => (children_unversioned each _ _).bind fun _ =>
    (caption_unversioned each _).bind fun _ => (attr_unversioned _).bind fun _ => .ok _

theorem box_unversioned (kind : BoxKind) (j : Json) : Unversioned (box child kind j) := by
  refine (pair_unversioned j).bind fun (a, content) => ?_
  cases kind <;>
    exact (children_unversioned each _ content).bind fun _ => (attr_unversioned a).bind fun _ => .ok _

omit each in
theorem verbatim_unversioned (kind : VerbatimKind) (j : Json) :
    Unversioned (verbatim kind j : Decoded (Shape Node)) :=
  (pair_unversioned j).bind fun (a, _) => (attr_unversioned a).bind fun _ => .ok _

theorem quoted_unversioned (j : Json) : Unversioned (quoted child j) :=
  (pair_unversioned j).bind fun _ => (enumeration_unversioned _).bind fun _ =>
    (children_unversioned each _ _).bind fun _ => .ok _

theorem cite_unversioned (j : Json) : Unversioned (cite child j) :=
  (pair_unversioned j).bind fun _ => items_unversioned (citation_unversioned each) _ _ fun _ =>
    (children_unversioned each _ _).bind fun _ => .ok _

theorem target_unversioned (kind : TargetKind) (j : Json) : Unversioned (target child kind j) :=
  (triple_unversioned j).bind fun _ => (pair_unversioned _).bind fun _ =>
    (children_unversioned each _ _).bind fun _ => (attr_unversioned _).bind fun _ => .ok _

theorem contents_unversioned (kind : Kind) (j : Json) : Unversioned (contents child kind j) := by
  cases kind
  case document | list => exact .of_refuse rfl
  case metaMap => exact (mapping_unversioned each j).map _
  case metaBool => cases j <;> first | exact .ok _ | exact .of_refuse rfl
  case metaString | str => cases j <;> first | exact .ok _ | exact .of_refuse rfl
  case lineBlock => exact items_unversioned (children_unversioned each _) _ j fun _ => .ok _
  case bulletList => exact (blockLists_unversioned each j).map _
  case definitionList => exact items_unversioned (definition_unversioned each) _ j fun _ => .ok _
  case codeBlock | code => exact verbatim_unversioned _ j
  case rawBlock | rawInline => exact (pair_unversioned j).bind fun _ => .ok _
  case math => exact (pair_unversioned j).bind fun _ => (enumeration_unversioned _).bind fun _ => .ok _
  case orderedList => exact orderedList_unversioned each j
  case header => exact header_unversioned each j
  case table => exact table_unversioned each j
  case figure => exact figure_unversioned each j
  case div => exact box_unversioned each .div j
  case span => exact box_unversioned each .span j
  case quoted => exact quoted_unversioned each j
  case cite => exact cite_unversioned each j
  case link | image => exact target_unversioned each _ j
  case horizontalRule | null | space | softBreak | lineBreak => exact .ok _
  all_goals exact wrapped_unversioned each _ j

omit each in
theorem kindOf_unversioned (tag : Json) : Unversioned (kindOf tag) := by
  unfold kindOf
  repeat' split
  all_goals first | exact .of_refuse rfl | exact nofun

omit each in
theorem inElement_unversioned (kind : Kind) {x : Decoded (Shape Node)} (known : Unversioned x) :
    Unversioned (inElement kind x) := by
  rw [inElement_eq]
  split
  · exact .of_refuse rfl
  · exact known

theorem shape_unversioned (j : Json) : Unversioned (shape child j) := by
  unfold shape
  repeat' split
  · exact .of_refuse rfl
  · exact (kindOf_unversioned _).bind fun kind => inElement_unversioned kind (contents_unversioned each kind _)
  · exact .of_refuse rfl

end

theorem element_unversioned (j : Json) : Unversioned (element j) := by
  have within (fuel : Nat) : ∀ j, Unversioned (elementWithin fuel j) := by
    induction fuel with
    | zero => exact fun j => .of_refuse rfl
    | succ fuel ih =>
      intro j
      rw [elementWithin_succ]
      exact (shape_unversioned ih j).map _
  exact within j.height j

end DocTree.Codec
