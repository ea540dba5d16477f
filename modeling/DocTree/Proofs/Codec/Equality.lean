import DocTree.Proofs.Filter.Key
import DocTree.Proofs.Json.Equality
/-!
Equality of trees is equality of what they are written as.
-/

namespace DocTree

section

variable {α β γ δ : Type}

theorem sameLists_beq [BEq α] [LawfulBEq α] (xs ys : List α) : sameLists (· == ·) xs ys = (xs == ys) := by
  induction xs generalizing ys with
  | nil => cases ys <;> rfl
  | cons x xs ih => cases ys <;> simp [sameLists, ih]

theorem sameLists_congr {same : α → β → Bool} {same' : α → β → Bool} {xs : List α} {ys : List β}
    (each : ∀ x ∈ xs, ∀ y, same x y = same' x y) : sameLists same xs ys = sameLists same' xs ys := by
  induction xs generalizing ys with
  | nil => cases ys <;> rfl
  | cons x xs ih =>
    obtain ⟨first, later⟩ := List.forall_mem_cons.mp each
    cases ys with
    | nil => rfl
    | cons y ys => rw [sameLists, sameLists, first, ih later]

theorem sameMappings_keys {same : α → β → Bool} {m : Mapping α} {n : Mapping β} (distinct : n.keys.Nodup)
    (keys : m.keys = n.keys) :
    sameMappings same m n = sameLists same (m.map (·.2)) (n.map (·.2)) := by
  have length : m.length = n.length := by simpa [Mapping.keys] using congrArg List.length keys
  -- All that comes before is no matter for the keys that are left.
  suffices later : ∀ (settled : Mapping β) (m : Mapping α) (n : Mapping β), m.keys = n.keys →
      (Mapping.keys (settled ++ n)).Nodup →
      (m.all fun entry => (Mapping.get? entry.1 (settled ++ n)).any (same entry.2)) =
        sameLists same (m.map (·.2)) (n.map (·.2)) by
    rw [sameMappings, length, beq_self_eq_true, Bool.true_and]
    exact later [] m n keys distinct
  intro settled m
  induction m generalizing settled with
  | nil =>
    intro n keys _
    obtain rfl : n = [] := List.map_eq_nil_iff.mp keys.symm
    rfl
  | cons entry m ih =>
    intro n keys distinct
    cases n with
    | nil => cases keys
    | cons other n =>
      obtain ⟨key, a⟩ := entry
      obtain ⟨key', b⟩ := other
      simp only [Mapping.keys, List.map_cons, List.cons.injEq] at keys
      obtain ⟨rfl, keys⟩ := keys
      have here : Mapping.get? key (settled ++ (key, b) :: n) = some b :=
        Mapping.get?_middle (Mapping.fresh_of_nodup distinct)
      rw [List.append_cons] at distinct
      have rest := ih (settled ++ [(key, b)]) n keys distinct
      rw [List.append_assoc, List.singleton_append] at rest
      rw [List.all_cons, rest]
      dsimp only
      rw [here]
      rfl

end

namespace Json

@[simp] theorem same_str (t u : Text) : (str t).same (str u) = (t == u) := by rw [same]

@[simp] theorem same_int (m n : Int) : (int m).same (int n) = (m == n) := by
  rw [same_number rfl]
  rfl

@[simp] theorem same_bool (a b : Bool) : (bool a).same (bool b) = (a == b) := by
  rw [same_number rfl]
  cases a <;> cases b <;> rfl

@[simp] theorem same_float (x y : Binary64) : (float x).same (float y) = x.same y := by
  rw [same_number rfl]
  rfl

theorem same_record (keys : List Text) (distinct : keys.Nodup) {ms ns : Mapping Json} (first : ms.keys = keys)
    (second : ns.keys = keys) :
    (obj ms).same (obj ns) = sameLists same (ms.map (·.2)) (ns.map (·.2)) := by
  rw [same_obj, sameMappings_keys (second ▸ distinct) (first.trans second.symm)]

end Json

theorem TextKind.kind_injective : TextKind.kind.Injective := fun a b same => by
  cases a <;> cases b <;> first | rfl | cases same

theorem MarkKind.kind_injective : MarkKind.kind.Injective := fun a b same => by
  cases a <;> cases b <;> first | rfl | cases same

theorem WrapKind.kind_injective : WrapKind.kind.Injective := fun a b same => by
  cases a <;> cases b <;> first | rfl | cases same

theorem ItemsKind.kind_injective : ItemsKind.kind.Injective := fun a b same => by
  cases a <;> cases b <;> first | rfl | cases same

theorem BoxKind.kind_injective : BoxKind.kind.Injective := fun a b same => by
  cases a <;> cases b <;> first | rfl | cases same

theorem VerbatimKind.kind_injective : VerbatimKind.kind.Injective := fun a b same => by
  cases a <;> cases b <;> first | rfl | cases same

theorem RawKind.kind_injective : RawKind.kind.Injective := fun a b same => by
  cases a <;> cases b <;> first | rfl | cases same

theorem TargetKind.kind_injective : TargetKind.kind.Injective := fun a b same => by
  cases a <;> cases b <;> first | rfl | cases same

namespace Codec

open Json

theorem same_textsJson (ts us : List Text) : (textsJson ts).same (textsJson us) = (ts == us) := by
  simp only [textsJson, same_arr, sameLists_map, same_str, sameLists_beq]

@[simp] theorem same_enumerationJson (name name' : Text) :
    (enumerationJson name).same (enumerationJson name') = (name == name') := by
  rw [enumerationJson, enumerationJson, same_record ["t"] (by decide) rfl rfl]
  simp [sameLists]

@[simp] theorem same_attrJson (a b : Attr) : (attrJson a).same (attrJson b) = (a == b) := by
  obtain ⟨identifier, classes, pairs⟩ := a
  obtain ⟨identifier', classes', pairs'⟩ := b
  have inPairs : sameLists (fun p q : Text × Text => (textsJson [p.1, p.2]).same (textsJson [q.1, q.2]))
      pairs pairs' = (pairs == pairs') := by
    rw [← sameLists_beq]
    refine sameLists_congr fun p _ q => ?_
    rw [same_textsJson, Bool.eq_iff_iff]
    simp [Prod.ext_iff]
  have parts : (attrJson ⟨identifier, classes, pairs⟩).same (attrJson ⟨identifier', classes', pairs'⟩) =
      (identifier == identifier' && (classes == classes' && pairs == pairs')) := by
    rw [attrJson, attrJson, same_arr, sameLists, sameLists, sameLists, sameLists, same_textsJson, same_arr,
      sameLists_map, inPairs, same_str, Bool.and_true]
  rw [parts, Bool.eq_iff_iff]
  simp

@[simp] theorem same_numberingJson (n n' : Numbering) :
    (numberingJson n).same (numberingJson n') = (n == n') := by
  obtain ⟨start, style, delimiter⟩ := n
  obtain ⟨start', style', delimiter'⟩ := n'
  rw [Bool.eq_iff_iff]
  simp [numberingJson, same_arr, sameLists]

@[simp] theorem same_columnJson (c d : Column) : (columnJson c).same (columnJson d) = c.same d := by
  obtain ⟨alignment, width⟩ := c
  obtain ⟨alignment', width'⟩ := d
  have fixed (x y : Binary64) : (obj [("t", str "ColWidth"), ("c", float x)]).same
      (obj [("t", str "ColWidth"), ("c", float y)]) = x.same y := by
    rw [same_record ["t", "c"] (by decide) rfl rfl]
    simp [sameLists]
  have mixed (x : Binary64) : (enumerationJson "ColWidthDefault").same
      (obj [("t", str "ColWidth"), ("c", float x)]) = false := by
    rw [enumerationJson, same_obj]
    rfl
  have mixed' (x : Binary64) : (obj [("t", str "ColWidth"), ("c", float x)]).same
      (enumerationJson "ColWidthDefault") = false := by
    rw [enumerationJson, same_obj]
    rfl
  cases width <;> cases width' <;>
    simp [columnJson, same_arr, sameLists, Column.same, sameOptions, fixed, mixed, mixed']

section

variable {S T U : Type} {same : T → U → Bool} {h : S → T} {f : S → List Json} {g : U → List Json}

/-- What sequences are written as is compared as the sequences are. -/
def Compares (same : T → U → Bool) (h : S → T) (f : S → List Json) (g : U → List Json) (s : S) : Prop :=
  ∀ u, sameLists Json.same (f s) (g u) = same (h s) u

theorem same_arr_map {α β γ δ ε : Type} {eq : α → β → Bool} {k : γ → α} {f : γ → δ} {g : β → ε} {write : δ → Json}
    {write' : ε → Json} {xs : List γ} (each : ∀ x ∈ xs, ∀ y, (write (f x)).same (write' (g y)) = eq (k x) y)
    (ys : List β) :
    (arr ((xs.map f).map write)).same (arr ((ys.map g).map write')) = sameLists eq (xs.map k) ys := by
  rw [List.map_map, List.map_map, same_arr, sameLists_map]
  have whole := sameLists_map eq k id xs ys
  rw [List.map_id] at whole
  exact (sameLists_congr each).trans whole.symm

theorem same_parts {ps : List S} (known : ∀ s ∈ ps, Compares same h f g s) (qs : List U) :
    (arr ((ps.map f).map arr)).same (arr ((qs.map g).map arr)) = sameLists same (ps.map h) qs :=
  same_arr_map (fun s inside u => (same_arr _ _).trans (known s inside u)) qs

theorem same_citationJson {c : Citation S} (known : ∀ s ∈ c.sequences, Compares same h f g s) (d : Citation U) :
    (citationJson (c.map f)).same (citationJson (d.map g)) = (c.map h).same same d := by
  obtain ⟨id, lead, trail, mode, noteNum, hash⟩ := c
  have inLead : Compares same h f g lead := known lead (by simp [Citation.sequences])
  have inTrail : Compares same h f g trail := known trail (by simp [Citation.sequences])
  rw [citationJson, citationJson, same_record ["citationId", "citationPrefix", "citationSuffix", "citationMode",
    "citationNoteNum", "citationHash"] (by decide) rfl rfl]
  simp [sameLists, Citation.map, Citation.same, same_arr, inLead _, inTrail _, Bool.and_assoc]

theorem same_citations {cs : List (Citation S)} (known : ∀ s ∈ cs.flatMap (·.sequences), Compares same h f g s)
    (ds : List (Citation U)) :
    (arr ((cs.map (·.map f)).map citationJson)).same (arr ((ds.map (·.map g)).map citationJson)) =
      sameLists (Citation.same same) (cs.map (·.map h)) ds :=
  same_arr_map (fun c member => same_citationJson fun s inside =>
    known s (List.mem_flatMap.mpr ⟨c, member, inside⟩)) ds

theorem same_captionJson {c : Caption S} (known : ∀ s ∈ c.sequences, Compares same h f g s) (d : Caption U) :
    (captionJson (c.map f)).same (captionJson (d.map g)) = (c.map h).same same d := by
  obtain ⟨long, short⟩ := c
  obtain ⟨long', short'⟩ := d
  have inLong : Compares same h f g long := known long (by simp [Caption.sequences])
  have inShort : (((short.map f).map arr).getD null).same (((short'.map g).map arr).getD null) =
      sameOptions same (short.map h) short' := by
    cases short with
    | none => cases short' <;> simp [Json.same, sameOptions]
    | some s =>
      have inShort : Compares same h f g s := known s (by simp [Caption.sequences])
      cases short' with
      | none => simp [Json.same, sameOptions]
      | some u => exact (same_arr _ _).trans (inShort u)
  simp only [captionJson, Caption.map, Caption.same, same_arr, sameLists, inShort, inLong _, Bool.and_true]
  exact Bool.and_comm _ _

theorem same_cellJson {c : Cell S} (known : Compares same h f g c.content) (d : Cell U) :
    (cellJson (c.map f)).same (cellJson (d.map g)) = (c.map h).same same d := by
  simp only [cellJson, Cell.map, Cell.same, same_arr, sameLists, known _, same_attrJson, same_enumerationJson,
    same_int, Bool.and_true]
  ac_rfl

theorem same_rowJson {r : Row S} (known : ∀ s ∈ r.sequences, Compares same h f g s) (q : Row U) :
    (rowJson (r.map f)).same (rowJson (q.map g)) = (r.map h).same same q := by
  have cells : (arr ((r.cells.map (·.map f)).map cellJson)).same (arr ((q.cells.map (·.map g)).map cellJson)) =
      sameLists (Cell.same same) (r.cells.map (·.map h)) q.cells :=
    same_arr_map (fun c member => same_cellJson (known c.content (List.mem_map_of_mem member))) q.cells
  simp only [rowJson, Row.map, Row.same, same_arr, sameLists, same_attrJson, Bool.and_true] at cells ⊢
  rw [cells, Bool.and_comm]

theorem same_rows {rs : List (Row S)} (known : ∀ s ∈ rs.flatMap (·.sequences), Compares same h f g s)
    (qs : List (Row U)) :
    (arr ((rs.map (·.map f)).map rowJson)).same (arr ((qs.map (·.map g)).map rowJson)) =
      sameLists (Row.same same) (rs.map (·.map h)) qs :=
  same_arr_map (fun r member => same_rowJson fun s inside =>
    known s (List.mem_flatMap.mpr ⟨r, member, inside⟩)) qs

theorem same_rowGroupJson {a : RowGroup S} (known : ∀ s ∈ a.sequences, Compares same h f g s) (b : RowGroup U) :
    (rowGroupJson (a.map f)).same (rowGroupJson (b.map g)) = (a.map h).same same b := by
  have rows := same_rows known b.rows
  rw [rowGroupJson, rowGroupJson, same_arr]
  simp only [sameLists, RowGroup.map, rows, same_attrJson, Bool.and_true]
  exact Bool.and_comm _ _

theorem same_sectionJson {a : Section S} (known : ∀ s ∈ a.sequences, Compares same h f g s) (b : Section U) :
    (sectionJson (a.map f)).same (sectionJson (b.map g)) = (a.map h).same same b := by
  have head := same_rows (fun s inside => known s (List.mem_append_left _ inside)) b.head
  have body := same_rows (fun s inside => known s (List.mem_append_right _ inside)) b.body
  rw [sectionJson, sectionJson, same_arr]
  simp only [sameLists, Section.map, head, body, same_attrJson, same_int, Bool.and_true, Section.same]
  ac_rfl

theorem same_tableJson {t : Table S} (known : ∀ s ∈ t.sequences, Compares same h f g s) (u : Table U) :
    (tableJson (t.map f)).same (tableJson (u.map g)) = (t.map h).same same u := by
  simp only [Table.sequences, List.mem_append, List.mem_flatMap] at known
  have caption := same_captionJson (fun s inside => known s (.inl (.inl (.inl inside)))) u.caption
  have head := same_rowGroupJson (fun s inside => known s (.inl (.inl (.inr inside)))) u.head
  have foot := same_rowGroupJson (fun s inside => known s (.inr inside)) u.foot
  have sections : (arr ((t.sections.map (·.map f)).map sectionJson)).same
      (arr ((u.sections.map (·.map g)).map sectionJson)) =
      sameLists (Section.same same) (t.sections.map (·.map h)) u.sections :=
    same_arr_map (fun a member => same_sectionJson fun s inside =>
      known s (.inl (.inr ⟨a, member, inside⟩))) u.sections
  have columns : (arr (t.columns.map columnJson)).same (arr (u.columns.map columnJson)) =
      sameLists Column.same t.columns u.columns := by
    rw [same_arr, sameLists_map]
    exact sameLists_congr fun c _ => same_columnJson c
  rw [tableJson, tableJson, same_arr]
  simp only [sameLists, Table.map, caption, head, foot, sections, columns, same_attrJson, Bool.and_true,
    Table.same]
  ac_rfl

theorem same_definitionJson {d : Definition S} (known : ∀ s ∈ d.sequences, Compares same h f g s)
    (e : Definition U) :
    (definitionJson (d.map f)).same (definitionJson (e.map g)) = (d.map h).same same e := by
  have term : Compares same h f g d.term := known d.term List.mem_cons_self
  have meanings := same_parts (fun s inside => known s (List.mem_cons_of_mem _ inside)) e.meanings
  rw [definitionJson, definitionJson, same_arr]
  simp only [sameLists, Definition.map, same_arr, term _, Bool.and_true, Definition.same] at meanings ⊢
  rw [meanings]

theorem same_definitions {ds : List (Definition S)} (known : ∀ s ∈ ds.flatMap (·.sequences), Compares same h f g s)
    (es : List (Definition U)) :
    (arr ((ds.map (·.map f)).map definitionJson)).same (arr ((es.map (·.map g)).map definitionJson)) =
      sameLists (Definition.same same) (ds.map (·.map h)) es :=
  same_arr_map (fun d member => same_definitionJson fun s inside =>
    known s (List.mem_flatMap.mpr ⟨d, member, inside⟩)) es

theorem same_contents (e e' : Element (List Json) (Mapping Json)) : (shapeJson e).same (shapeJson e') =
    (e.kind == e'.kind && sameOptions Json.same (contentsJson? e) (contentsJson? e')) := by
  have names : (e.name == e'.name) = (e.kind == e'.kind) := by
    rw [Bool.eq_iff_iff, beq_iff_eq, beq_iff_eq]
    exact ⟨Kind.name_injective, congrArg Kind.name⟩
  rw [shapeJson, shapeJson]
  cases contentsJson? e with
  | none =>
    cases contentsJson? e' with
    | none =>
      rw [same_record ["t"] (by decide) rfl rfl]
      simp [sameLists, sameOptions, names]
    | some c => simp [same_obj, sameMappings, sameOptions]
  | some c =>
    cases contentsJson? e' with
    | none => simp [same_obj, sameMappings, sameOptions]
    | some c' =>
      rw [same_record ["t", "c"] (by decide) rfl rfl]
      simp [sameLists, sameOptions, names]

theorem ctorIdx_of_kind {S M U V : Type} {e : Element S M} {e' : Element U V} (kinds : e.kind = e'.kind) :
    e.ctorIdx = e'.ctorIdx := by
  have blank {S M : Type} (e : Element S M) : e.ctorIdx = (Element.blank () () e.kind).ctorIdx := by
    cases e with
    | text kind | mark kind | wrap kind | items kind | box kind | verbatim kind | raw kind | target kind =>
      cases kind <;> rfl
    | _ => rfl
  rw [blank e, blank e', kinds]

theorem same_other {e e' : Element (List Json) (Mapping Json)} (differ : e.ctorIdx ≠ e'.ctorIdx) :
    (shapeJson e).same (shapeJson e') = false := by
  rw [same_contents, beq_false_of_ne (mt ctorIdx_of_kind differ), Bool.false_and]

theorem same_of_contents {e e' : Element (List Json) (Mapping Json)} {c c' : Json} {same : Bool}
    (contents : contentsJson? e = some c) (contents' : contentsJson? e' = some c')
    (isSame : (e.kind == e'.kind && c.same c') = same) : (shapeJson e).same (shapeJson e') = same := by
  rw [same_contents, contents, contents']
  exact isSame

variable {M N V : Type} {m : N → V → Bool} {k : M → N} {p : M → Mapping Json} {q : V → Mapping Json}

/-- What elements are written as is compared as the elements are, if that is so in each of their containers. -/
theorem same_shapeJson {e : Element S M} (inner : e.kind ≠ .document) (named : e.kind ≠ .list)
    (sequences : ∀ s, .sequence s ∈ e.slots → Compares same h f g s)
    (mappings : ∀ x, .mapping x ∈ e.slots → ∀ v, sameMappings Json.same (p x) (q v) = m (k x) v)
    (e' : Element U V) :
    (shapeJson (e.map f p)).same (shapeJson (e'.map g q)) = (e.map h k).same same m e' := by
  cases e with
  | document => exact absurd rfl inner
  | list => exact absurd rfl named
  | metaMap entries =>
    cases e' with
    | metaMap entries' => exact same_of_contents rfl rfl ((same_obj _ _).trans (mappings entries (.head _) entries'))
    | _ => exact same_other (Nat.ne_of_beq_eq_false rfl)
  | metaBool value =>
    cases e' with
    | metaBool value' => exact same_of_contents rfl rfl (same_bool value value')
    | _ => exact same_other (Nat.ne_of_beq_eq_false rfl)
  | text kind t =>
    cases e' with
    | text kind' t' =>
      refine same_of_contents rfl rfl ?_
      simp only [Element.map, Element.kind, Element.same, TextKind.kind_injective.beq_eq, same_str]
    | _ => exact same_other (Nat.ne_of_beq_eq_false rfl)
  | mark kind =>
    cases e' with
    | mark kind' => exact (same_contents _ _).trans ((Bool.and_true _).trans MarkKind.kind_injective.beq_eq)
    | _ => exact same_other (Nat.ne_of_beq_eq_false rfl)
  | wrap kind content =>
    cases e' with
    | wrap kind' content' =>
      refine same_of_contents rfl rfl ?_
      simp only [Element.map, Element.kind, Element.same, WrapKind.kind_injective.beq_eq, same_arr,
        sequences content (.head _) _]
    | _ => exact same_other (Nat.ne_of_beq_eq_false rfl)
  | items kind ps =>
    cases e' with
    | items kind' qs =>
      refine same_of_contents rfl rfl ?_
      have parts := same_parts (fun s inside => sequences s (List.mem_map_of_mem inside)) qs
      simp only [Element.map, Element.kind, Element.same, ItemsKind.kind_injective.beq_eq, parts]
    | _ => exact same_other (Nat.ne_of_beq_eq_false rfl)
  | orderedList numbering ps =>
    cases e' with
    | orderedList numbering' qs =>
      refine same_of_contents rfl rfl ?_
      have parts := same_parts (fun s inside => sequences s (List.mem_map_of_mem inside)) qs
      rw [same_arr]
      simp only [Element.map, Element.kind, Element.same, sameLists, same_numberingJson, parts, beq_self_eq_true,
        Bool.true_and, Bool.and_true]
      exact Bool.and_comm _ _
    | _ => exact same_other (Nat.ne_of_beq_eq_false rfl)
  | definitionList ds =>
    cases e' with
    | definitionList ds' =>
      refine same_of_contents rfl rfl ?_
      have definitions := same_definitions (fun s inside => sequences s (List.mem_map_of_mem inside)) ds'
      simp only [Element.map, Element.kind, Element.same, definitions, beq_self_eq_true, Bool.true_and]
    | _ => exact same_other (Nat.ne_of_beq_eq_false rfl)
  | header level a content =>
    cases e' with
    | header level' a' content' =>
      refine same_of_contents rfl rfl ?_
      simp only [Element.map, Element.kind, Element.same, same_arr, sameLists, same_int, same_attrJson,
        sequences content (.head _) _, beq_self_eq_true, Bool.true_and, Bool.and_true]
      ac_rfl
    | _ => exact same_other (Nat.ne_of_beq_eq_false rfl)
  | table t =>
    cases e' with
    | table u =>
      refine same_of_contents rfl rfl ?_
      have tables := same_tableJson (fun s inside => sequences s (List.mem_map_of_mem inside)) u
      simp only [Element.map, Element.kind, Element.same, tables, beq_self_eq_true, Bool.true_and]
    | _ => exact same_other (Nat.ne_of_beq_eq_false rfl)
  | figure a c content =>
    cases e' with
    | figure a' c' content' =>
      refine same_of_contents rfl rfl ?_
      have captions := same_captionJson (fun s inside =>
        sequences s (List.mem_map_of_mem (List.mem_append_left _ inside))) c'
      have inContent : Compares same h f g content :=
        sequences content (List.mem_map_of_mem (List.mem_append_right _ List.mem_cons_self))
      rw [same_arr]
      simp only [Element.map, Element.kind, Element.same, sameLists, same_attrJson, captions, same_arr,
        inContent _, beq_self_eq_true, Bool.true_and, Bool.and_true]
      ac_rfl
    | _ => exact same_other (Nat.ne_of_beq_eq_false rfl)
  | box kind a content =>
    cases e' with
    | box kind' a' content' =>
      refine same_of_contents rfl rfl ?_
      simp only [Element.map, Element.kind, Element.same, BoxKind.kind_injective.beq_eq, same_arr, sameLists,
        same_attrJson, sequences content (.head _) _, Bool.and_true]
      ac_rfl
    | _ => exact same_other (Nat.ne_of_beq_eq_false rfl)
  | verbatim kind a t =>
    cases e' with
    | verbatim kind' a' t' =>
      refine same_of_contents rfl rfl ?_
      simp only [Element.map, Element.kind, Element.same, VerbatimKind.kind_injective.beq_eq, same_arr, sameLists,
        same_attrJson, same_str, Bool.and_true]
      ac_rfl
    | _ => exact same_other (Nat.ne_of_beq_eq_false rfl)
  | raw kind format t =>
    cases e' with
    | raw kind' format' t' =>
      refine same_of_contents rfl rfl ?_
      simp only [Element.map, Element.kind, Element.same, RawKind.kind_injective.beq_eq, same_textsJson,
        List.cons_beq_cons, beq_self_eq_true, Bool.and_true]
      ac_rfl
    | _ => exact same_other (Nat.ne_of_beq_eq_false rfl)
  | quoted style content =>
    cases e' with
    | quoted style' content' =>
      refine same_of_contents rfl rfl ?_
      simp only [Element.map, Element.kind, Element.same, same_arr, sameLists, same_enumerationJson,
        sequences content (.head _) _, beq_self_eq_true, Bool.true_and, Bool.and_true]
    | _ => exact same_other (Nat.ne_of_beq_eq_false rfl)
  | cite cs content =>
    cases e' with
    | cite cs' content' =>
      refine same_of_contents rfl rfl ?_
      have citations := same_citations (fun s inside =>
        sequences s (List.mem_map_of_mem (List.mem_append_left _ inside))) cs'
      have inContent : Compares same h f g content :=
        sequences content (List.mem_map_of_mem (List.mem_append_right _ List.mem_cons_self))
      rw [same_arr]
      simp only [Element.map, Element.kind, Element.same, sameLists, citations, same_arr, inContent _,
        beq_self_eq_true, Bool.true_and, Bool.and_true]
    | _ => exact same_other (Nat.ne_of_beq_eq_false rfl)
  | math style t =>
    cases e' with
    | math style' t' =>
      refine same_of_contents rfl rfl ?_
      simp only [Element.map, Element.kind, Element.same, same_arr, sameLists, same_enumerationJson, same_str,
        beq_self_eq_true, Bool.true_and, Bool.and_true]
      exact Bool.and_comm _ _
    | _ => exact same_other (Nat.ne_of_beq_eq_false rfl)
  | target kind a content url title =>
    cases e' with
    | target kind' a' content' url' title' =>
      refine same_of_contents rfl rfl ?_
      simp only [Element.map, Element.kind, Element.same, TargetKind.kind_injective.beq_eq, same_arr, sameLists,
        same_attrJson, same_textsJson, sequences content (.head _) _, List.cons_beq_cons, beq_self_eq_true,
        Bool.and_true]
      ac_rfl
    | _ => exact same_other (Nat.ne_of_beq_eq_false rfl)

end

section

variable {as : List Node} {entries : Mapping Node}

theorem same_elements (each : ∀ a ∈ as, ∀ b, (elementJson a).same (elementJson b) = a.same b) :
    Compares (sameLists fun p n => p n) (List.map Node.same) (List.map elementJson) (List.map elementJson) as := by
  intro bs
  have whole := sameLists_map (fun (p : Node → Bool) n => p n) Node.same id as bs
  rw [List.map_id] at whole
  rw [sameLists_map, sameLists_congr each]
  exact whole.symm

theorem same_entries (each : ∀ entry ∈ entries, ∀ b, (elementJson entry.2).same (elementJson b) = entry.2.same b)
    (entries' : Mapping Node) :
    sameMappings Json.same (entries.map fun (key, n) => (key, elementJson n))
        (entries'.map fun (key, n) => (key, elementJson n)) =
      sameMappings (fun p n => p n) (entries.map fun (key, n) => (key, n.same)) entries' := by
  rw [Bool.eq_iff_iff, sameMappings_iff, sameMappings_iff]
  simp only [List.length_map, Mapping.get?_map, List.mem_map, Prod.mk.injEq, Prod.exists, Option.map_eq_some_iff]
  refine and_congr_right fun _ => ⟨?_, ?_⟩
  · rintro found key p ⟨_, n, member, rfl, rfl⟩
    obtain ⟨_, ⟨b, there, rfl⟩, isSame⟩ := found _ _ ⟨_, n, member, rfl, rfl⟩
    exact ⟨b, there, each _ member b ▸ isSame⟩
  · rintro found key j ⟨_, n, member, rfl, rfl⟩
    obtain ⟨b, there, isSame⟩ := found _ _ ⟨_, n, member, rfl, rfl⟩
    exact ⟨_, ⟨b, there, rfl⟩, (each _ member b).trans isSame⟩

theorem same_mk (e : Element (List Node) (Mapping Node)) (b : Node) : Node.same (.mk e) b =
    (e.map (List.map Node.same) fun m => m.map fun (key, n) => (key, n.same)).same (sameLists fun p n => p n)
      (sameMappings fun p n => p n) b.element := by
  rw [Node.same, Node.fold_mk]
  rfl

end

theorem same_elementJson {a : Node} (proper : a.Proper) (b : Node) :
    (elementJson a).same (elementJson b) = a.same b := by
  induction proper generalizing b with
  | @mk e inner named _ ih =>
    obtain ⟨e'⟩ := b
    rw [elementJson_mk, elementJson_mk, same_mk]
    exact same_shapeJson inner named
      (fun as slot => same_elements fun a member => ih a (Element.sequence_children slot member))
      (fun m slot => same_entries fun entry member => ih entry.2 (Element.mapping_children slot member)) e'

theorem same_documentJson_shapeJson (version : List Int) (metadata : Mapping Json) (blocks : List Json)
    (e : Element (List Json) (Mapping Json)) :
    (documentJson version metadata blocks).same (shapeJson e) = false ∧
      (shapeJson e).same (documentJson version metadata blocks) = false := by
  rw [documentJson, shapeJson, same_obj, same_obj]
  cases contentsJson? e <;> exact ⟨rfl, rfl⟩

theorem same_document {version version' : List Int} {metadata metadata' : Mapping Node} {blocks blocks' : List Node}
    (proper : ∀ n ∈ (Element.document version metadata blocks).children, n.Proper) :
    (treeJson (.node (.mk (.document version metadata blocks)))).same
        (treeJson (.node (.mk (.document version' metadata' blocks')))) =
      Node.same (.mk (.document version metadata blocks)) (.mk (.document version' metadata' blocks')) := by
  have inMetadata := same_entries (fun entry (member : entry ∈ metadata) =>
    same_elementJson (proper entry.2 (Element.mapping_children (.head _) member))) metadata'
  have inBlocks := same_elements (fun n (member : n ∈ blocks) =>
    same_elementJson (proper n (Element.sequence_children (.tail _ (.head _)) member))) blocks'
  have versions : sameLists Json.same (version.map .int) (version'.map .int) = (version == version') := by
    rw [sameLists_map, ← sameLists_beq]
    exact sameLists_congr fun n _ n' => same_int n n'
  rw [treeJson, treeJson, documentJson, documentJson,
    same_record ["pandoc-api-version", "meta", "blocks"] (by decide) rfl rfl, same_mk]
  simp only [List.map_cons, List.map_nil, sameLists, same_arr, same_obj, versions, inMetadata, inBlocks,
    Bool.and_true, Element.map, Node.element, Element.same]
  ac_rfl

/-- Trees are the same if what they are written as is the same, and only then. -/
theorem same_treeJson {a b : Tree} (proper : a.Proper) (proper' : b.Proper) :
    (treeJson a).same (treeJson b) = a.same b := by
  have single (n : Node) : ∃ ms, treeJson (.node n) = .obj ms := by
    obtain ⟨e⟩ := n
    by_cases root : e.kind = .document
    · obtain ⟨version, metadata, blocks, rfl⟩ := Element.eq_document root
      exact ⟨_, rfl⟩
    · rw [treeJson_element root, elementJson_mk]
      exact ⟨_, rfl⟩
  cases a with
  | list as =>
    cases b with
    | list bs =>
      rw [treeJson, treeJson, same_arr, sameLists_map]
      exact sameLists_congr fun a member => same_elementJson (proper a member)
    | node n =>
      obtain ⟨ms, written⟩ := single n
      rw [written, treeJson, same_arr_obj]
      rfl
  | node n =>
    cases b with
    | list bs =>
      obtain ⟨ms, written⟩ := single n
      rw [written, treeJson, same_obj_arr]
      rfl
    | node n' =>
      obtain ⟨e⟩ := n
      obtain ⟨e'⟩ := n'
      obtain ⟨named, below⟩ := proper
      change _ = Node.same (.mk e) (.mk e')
      by_cases root : e.kind = .document
      · obtain ⟨version, metadata, blocks, rfl⟩ := Element.eq_document root
        by_cases root' : e'.kind = .document
        · obtain ⟨version', metadata', blocks', rfl⟩ := Element.eq_document root'
          exact same_document below
        · rw [treeJson_element root', elementJson_mk, same_mk, treeJson,
            (same_documentJson_shapeJson _ _ _ _).1]
          cases e' with
          | document => exact absurd rfl root'
          | _ => rfl
      · by_cases root' : e'.kind = .document
        · obtain ⟨version', metadata', blocks', rfl⟩ := Element.eq_document root'
          rw [treeJson_element root, elementJson_mk, same_mk, treeJson,
            (same_documentJson_shapeJson _ _ _ _).2]
          cases e with
          | document => exact absurd rfl root
          | _ => rfl
        · rw [treeJson_element root, treeJson_element root']
          exact same_elementJson (.mk root named below) _

end Codec

end DocTree
