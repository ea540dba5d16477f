import DocTree.Store.Basic
import Mathlib.Data.List.Basic
/-!
The fittings of a node: its lists and records, and the lists and records in these. What its element is
depends on its record and its fittings only.
-/

namespace DocTree.Store

inductive HasFitting (s : Store) (n : NodeId) : FittingId → Prop
  | own {p : FittingId} (member : p ∈ (s.record n).fittings) : HasFitting s n p
  | inner {p q : FittingId} {f : Fitting} (outer : HasFitting s n p) (here : s.fitting? p = some f)
      (member : q ∈ f.inner) : HasFitting s n q

/-- A node has the same record in both stores, and the same fittings. -/
structure SameNode (s s' : Store) (n : NodeId) : Prop where
  record : s'.record n = s.record n
  fittings : ∀ p, s.HasFitting n p → s'.fitting? p = s.fitting? p

variable {s s' s₁ : Store} {n : NodeId} {p q : FittingId}

namespace SameNode

theorem refl (s : Store) (n : NodeId) : SameNode s s n := ⟨rfl, fun _ _ => rfl⟩

theorem has (h : SameNode s s' n) (known : s.HasFitting n p) : s'.HasFitting n p := by
  induction known with
  | own member => exact .own (h.record ▸ member)
  | inner outer here member ih => exact .inner ih ((h.fittings _ outer).trans here) member

theorem has_iff (h : SameNode s s' n) : s'.HasFitting n p ↔ s.HasFitting n p := by
  constructor
  · intro known
    induction known with
    | own member => exact .own (h.record ▸ member)
    | inner _ here member ih => exact .inner ih ((h.fittings _ ih).symm.trans here) member
  · exact h.has

theorem symm (h : SameNode s s' n) : SameNode s' s n :=
  ⟨h.record.symm, fun p known => (h.fittings p (h.has_iff.mp known)).symm⟩

theorem trans (h : SameNode s s₁ n) (h' : SameNode s₁ s' n) : SameNode s s' n :=
  ⟨h'.record.trans h.record, fun p known => (h'.fittings p (h.has known)).trans (h.fittings p known)⟩

theorem of_eq (records : s'.records = s.records) (fittings : s'.fittings = s.fittings) : SameNode s s' n :=
  ⟨by simp only [Store.record, records], fun p _ => by simp only [fitting?, fittings]⟩

end SameNode

/-- Every node has the same record and the same fittings in both stores. -/
structure SameElements (s s' : Store) : Prop where
  records : s'.records = s.records
  fittings : s'.fittings = s.fittings

namespace SameElements

theorem refl (s : Store) : SameElements s s := ⟨rfl, rfl⟩

theorem trans (h : SameElements s s₁) (h' : SameElements s₁ s') : SameElements s s' :=
  ⟨h'.records.trans h.records, h'.fittings.trans h.fittings⟩

theorem node (h : SameElements s s') (n : NodeId) : SameNode s s' n := .of_eq h.records h.fittings

end SameElements

section

variable (h : SameNode s s' n)
include h

theorem SameNode.sequencesAt (known : s.HasFitting n p) : s'.sequencesAt p = s.sequencesAt p := by
  rw [Store.sequencesAt, Store.sequencesAt, h.fittings p known]

theorem SameNode.listAt (known : s.HasFitting n p) : s'.listAt p = s.listAt p := by
  rw [Store.listAt, Store.listAt, h.fittings p known]

theorem SameNode.caption? (known : s.HasFitting n p) : s'.caption? p = s.caption? p := by
  rw [Store.caption?, Store.caption?, h.fittings p known]

theorem SameNode.citation? (known : s.HasFitting n p) : s'.citation? p = s.citation? p := by
  rw [Store.citation?, Store.citation?, h.fittings p known]

theorem SameNode.cell? (known : s.HasFitting n p) : s'.cell? p = s.cell? p := by
  rw [Store.cell?, Store.cell?, h.fittings p known]

omit h in
theorem HasFitting.listed (known : s.HasFitting n p) (member : q ∈ s.listAt p) : s.HasFitting n q := by
  unfold Store.listAt at member
  split at member
  · next items here => exact .inner known here member
  · cases member

theorem SameNode.filterMap {α : Type} {read read' : FittingId → Option α} (known : s.HasFitting n p)
    (each : ∀ q, s.HasFitting n q → read' q = read q) :
    (s'.listAt p).filterMap read' = (s.listAt p).filterMap read := by
  rw [h.listAt known]
  exact List.filterMap_congr fun q member => each q (known.listed member)

theorem SameNode.definition? (known : s.HasFitting n p) : s'.definition? p = s.definition? p := by
  rw [Store.definition?, Store.definition?, h.fittings p known]
  split
  · next term meanings here =>
    rw [h.sequencesAt (.inner known here (List.mem_singleton_self meanings))]
  · rfl

theorem SameNode.row? (known : s.HasFitting n p) : s'.row? p = s.row? p := by
  rw [Store.row?, Store.row?, h.fittings p known]
  split
  · next attr cells here =>
    rw [h.filterMap (.inner known here (List.mem_singleton_self cells)) fun _ => h.cell?]
  · rfl

theorem SameNode.rowsAt (known : s.HasFitting n p) : s'.rowsAt p = s.rowsAt p :=
  h.filterMap known fun _ => h.row?

theorem SameNode.rowGroup? (known : s.HasFitting n p) : s'.rowGroup? p = s.rowGroup? p := by
  rw [Store.rowGroup?, Store.rowGroup?, h.fittings p known]
  split
  · next attr rows here => rw [h.rowsAt (.inner known here (List.mem_singleton_self rows))]
  · rfl

theorem SameNode.tableSection? (known : s.HasFitting n p) : s'.tableSection? p = s.tableSection? p := by
  rw [Store.tableSection?, Store.tableSection?, h.fittings p known]
  split
  · next attr headColumns head body here =>
    rw [h.rowsAt (.inner known here (by simp [Fitting.inner])),
      h.rowsAt (.inner known here (by simp [Fitting.inner]))]
  · rfl

theorem SameNode.element : s'.element n = s.element n := by
  have own (p : FittingId) (member : p ∈ (s.record n).fittings) : s.HasFitting n p := .own member
  rw [Store.element, Store.element, h.record]
  generalize s.record n = r at own
  cases r with
  | simple e => rfl
  | items kind parts | orderedList numbering parts =>
    simp only [elementOf, h.sequencesAt (own _ (List.mem_singleton_self _))]
  | definitionList parts =>
    simp only [elementOf, h.filterMap (own _ (List.mem_singleton_self _)) fun _ => h.definition?]
  | table attr caption columns head sections foot =>
    have has (p : FittingId) (member : p ∈ [caption, head, sections, foot]) : s.HasFitting n p := own p member
    simp only [elementOf, h.caption? (has caption (by simp)), h.rowGroup? (has head (by simp)),
      h.rowGroup? (has foot (by simp)), h.filterMap (has sections (by simp)) fun _ => h.tableSection?]
  | figure attr caption content =>
    simp only [elementOf, h.caption? (own _ (List.mem_singleton_self _))]
  | cite citations content =>
    simp only [elementOf, h.filterMap (own _ (List.mem_singleton_self _)) fun _ => h.citation?]

end

theorem SameElements.element (h : SameElements s s') (n : NodeId) : s'.element n = s.element n := (h.node n).element

theorem no_fitting (none : (s.record n).fittings = []) (p : FittingId) : ¬ s.HasFitting n p := by
  intro has
  induction has with
  | own member => exact absurd (none ▸ member) List.not_mem_nil
  | inner _ _ _ ih => exact ih

theorem element_ofElements (elements : List StoredElement) (sequences : List (List NodeId))
    (mappings : List (Mapping NodeId)) (n : NodeId) :
    (ofElements elements sequences mappings).element n = elements.getD n.index (.mark .null) := by
  rw [element, record, ofElements, List.getD_eq_getElem?_getD]
  simp only [Array.getD_eq_getD_getElem?, List.getElem?_toArray, List.getElem?_map]
  cases elements[n.index]? <;> rfl

end DocTree.Store
