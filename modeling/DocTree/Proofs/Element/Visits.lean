import DocTree.Proofs.Element.Containers
import Mathlib.Data.List.Perm.Basic
/-!
A traversal of an element in the order of a decoder visits its containers one after the other, and does
nothing else.
-/

namespace DocTree

section

variable {S M : Type}

def Caption.decoded (c : Caption S) : List S := c.long :: c.short.toList

def Section.decoded (s : Section S) : List S :=
  s.body.flatMap (·.sequences) ++ s.head.flatMap (·.sequences)

def Table.decoded (t : Table S) : List S :=
  t.head.sequences ++ t.sections.flatMap (·.decoded) ++ t.foot.sequences ++ t.caption.decoded

/-- The containers of an element, in the order of a decoder. -/
def Element.decoded : Element S M → List (Slot S M)
  | document _ metadata blocks => [.sequence blocks, .mapping metadata]
  | table t => t.decoded.map .sequence
  | figure _ caption content => (content :: caption.decoded).map .sequence
  | e => e.slots

theorem Caption.decoded_perm (c : Caption S) : c.decoded.Perm c.sequences :=
  @List.perm_append_comm _ [c.long] c.short.toList

theorem Section.decoded_perm (s : Section S) : s.decoded.Perm s.sequences := List.perm_append_comm

theorem Table.decoded_perm (t : Table S) : t.decoded.Perm t.sequences := by
  have sections : (t.sections.flatMap (·.decoded)).Perm (t.sections.flatMap (·.sequences)) :=
    List.Perm.flatMap_left _ fun part _ => part.decoded_perm
  have rows := (sections.append_left t.head.sequences).append_right t.foot.sequences
  have whole := (rows.append t.caption.decoded_perm).trans List.perm_append_comm
  simpa only [decoded, sequences, List.append_assoc] using whole

theorem Element.decoded_perm (e : Element S M) : e.decoded.Perm e.slots := by
  cases e with
  | document version metadata blocks => exact .swap ..
  | table t => exact t.decoded_perm.map _
  | figure attr caption content =>
    have whole := (caption.decoded_perm.cons content).trans (List.perm_append_singleton ..).symm
    exact whole.map _
  | _ => exact .refl _

end

section

variable {m : Type → Type} [Monad m] {S S' S'' : Type} (order : Order) (f : S → S') (h : S' → m S'')

theorem Citation.traverse_map (c : Citation S) : (c.map f).traverse h = c.traverse fun s => h (f s) := rfl

theorem Caption.traverse_map (c : Caption S) :
    (c.map f).traverse order h = c.traverse order fun s => h (f s) := by
  obtain ⟨long, short⟩ := c
  cases short <;> rfl

variable [LawfulMonad m]

theorem Row.traverse_map (r : Row S) : (r.map f).traverse h = r.traverse fun s => h (f s) := by
  rw [Row.map, Row.traverse, List.mapM_map]
  rfl

theorem RowGroup.traverse_map (g : RowGroup S) : (g.map f).traverse h = g.traverse fun s => h (f s) := by
  simp only [RowGroup.map, RowGroup.traverse, List.mapM_map, Function.comp_def, Row.traverse_map]

theorem Section.traverse_map (s : Section S) :
    (s.map f).traverse order h = s.traverse order fun s => h (f s) := by
  simp only [Section.map, Section.traverse, List.mapM_map, Function.comp_def, Row.traverse_map]

theorem Definition.traverse_map (d : Definition S) : (d.map f).traverse h = d.traverse fun s => h (f s) := by
  rw [Definition.map, Definition.traverse, List.mapM_map]
  rfl

theorem Table.traverse_map (t : Table S) :
    (t.map f).traverse order h = t.traverse order fun s => h (f s) := by
  simp only [Table.map, Table.traverse, Table.traverseRows, List.mapM_map, Function.comp_def,
    Caption.traverse_map, RowGroup.traverse_map, Section.traverse_map]

/-- What is done to the containers of an element can be done before, and it is visited afterwards, or on the
visit. -/
theorem Element.traverse_map {M M' M'' : Type} (g : M → M') (k : M' → m M'') (e : Element S M) :
    (e.map f g).traverse order h k = e.traverse order (fun s => h (f s)) fun m => k (g m) := by
  cases e <;> simp only [map, traverse, List.mapM_map, Function.comp_def, Caption.traverse_map,
    Table.traverse_map, Citation.traverse_map, Definition.traverse_map]

end

section

variable {m : Type → Type} [Monad m] [LawfulMonad m] {S T M N : Type} {f : S → m T} {g : M → m N}

theorem mapM_flatMap {α β : Type} {F : α → m β} {parts : α → List S} {parts' : β → List T}
    (each : ∀ a, parts' <$> F a = (parts a).mapM f) (l : List α) :
    (fun bs => bs.flatMap parts') <$> l.mapM F = (l.flatMap parts).mapM f := by
  induction l with
  | nil => simp
  | cons a rest ih =>
    rw [List.flatMap_cons, List.mapM_append, ← each, ← ih, List.mapM_cons]
    simp

theorem Citation.sequences_traverse (c : Citation S) :
    sequences <$> c.traverse f = c.sequences.mapM f := by
  simp [traverse, sequences]

theorem Caption.decoded_traverse (c : Caption S) :
    decoded <$> c.traverse .decoded f = c.decoded.mapM f := by
  obtain ⟨long, short⟩ := c
  cases short <;> simp [traverse, decoded, Order.both]

theorem Row.sequences_traverse (r : Row S) : sequences <$> r.traverse f = r.sequences.mapM f := by
  have cells : (fun cells => cells.flatMap fun c => [c.content]) <$> r.cells.mapM (·.traverse f) =
      (r.cells.flatMap fun c => [c.content]).mapM f := mapM_flatMap (fun c => by simp [Cell.traverse]) _
  simp only [← List.map_eq_flatMap] at cells
  simpa [traverse, sequences] using cells

theorem Row.list_traverse (rows : List (Row S)) :
    (fun rows => rows.flatMap sequences) <$> rows.mapM (·.traverse f) = (rows.flatMap sequences).mapM f :=
  mapM_flatMap sequences_traverse rows

theorem RowGroup.sequences_traverse (group : RowGroup S) :
    sequences <$> group.traverse f = group.sequences.mapM f := by
  rw [sequences, ← Row.list_traverse]
  simp [traverse]
  rfl

theorem Section.decoded_traverse (part : Section S) :
    decoded <$> part.traverse .decoded f = part.decoded.mapM f := by
  rw [decoded, List.mapM_append, ← Row.list_traverse, ← Row.list_traverse]
  simp [traverse, Order.both]
  rfl

theorem Definition.sequences_traverse (d : Definition S) :
    sequences <$> d.traverse f = d.sequences.mapM f := by
  simp [traverse, sequences]

theorem Table.decoded_traverse (t : Table S) :
    decoded <$> t.traverse .decoded f = t.decoded.mapM f := by
  rw [decoded, List.mapM_append, List.mapM_append, List.mapM_append, ← Caption.decoded_traverse,
    ← RowGroup.sequences_traverse, ← mapM_flatMap Section.decoded_traverse, ← RowGroup.sequences_traverse]
  simp [traverse, traverseRows, Order.both, decoded]

def visit (f : S → m T) (g : M → m N) : Slot S M → m (Slot T N)
  | .sequence s => .sequence <$> f s
  | .mapping s => .mapping <$> g s

theorem mapM_visit (l : List S) :
    (l.map .sequence).mapM (visit f g) = List.map .sequence <$> l.mapM f := by
  induction l with
  | nil => simp
  | cons s rest ih =>
    rw [List.map_cons, List.mapM_cons, ih, List.mapM_cons]
    simp [visit]

theorem Element.decoded_traverse {e : Element S M} (named : e.kind ≠ .list) :
    decoded <$> e.traverse .decoded f g = e.decoded.mapM (visit f g) := by
  cases e with
  | document => simp [traverse, Order.both, decoded, visit]
  | metaMap | metaBool | text | mark | verbatim | raw | math | wrap | header | box | quoted | target =>
    simp [traverse, decoded, slots, visit]
  | list nodes => exact absurd rfl named
  | items kind parts | orderedList numbering parts =>
    rw [decoded, slots, mapM_visit]
    · simp [traverse, decoded, slots]
    all_goals intros; contradiction
  | definitionList parts =>
    rw [decoded, slots, mapM_visit, ← mapM_flatMap Definition.sequences_traverse]
    · simp [traverse, decoded, slots]
    all_goals intros; contradiction
  | table t =>
    rw [decoded, mapM_visit, ← Table.decoded_traverse]
    simp [traverse, decoded]
  | figure attr caption content =>
    rw [decoded, mapM_visit, List.mapM_cons, ← Caption.decoded_traverse]
    simp [traverse, Order.both, decoded]
  | cite citations content =>
    rw [decoded, slots, mapM_visit, List.mapM_append, ← mapM_flatMap Citation.sequences_traverse]
    · simp [traverse, decoded, slots]
    all_goals intros; contradiction

end

end DocTree
