import DocTree.Proofs.Store.Ways
import DocTree.Proofs.Text.Mapping
/-!
The pre-order of a tree in a store: every node below some others, as often as it is reached, with its
depth. There is one such listing at most, and there is one where every way down comes to an end.
-/

namespace DocTree

theorem Mapping.filterMap_get? {α : Type} {m : Mapping α} (distinct : m.keys.Nodup) :
    m.keys.filterMap m.get? = m.map (·.2) := by
  have found : ∀ entry ∈ m, m.get? entry.1 = some entry.2 := by
    intro entry member
    obtain ⟨before, after, rfl⟩ := List.append_of_mem member
    exact Mapping.get?_middle (Mapping.fresh_of_nodup distinct)
  rw [Mapping.keys, List.filterMap_map, ← List.filterMap_eq_map]
  exact List.filterMap_congr found

namespace Store

/-- Some nodes at a depth, each followed by all that is below it. -/
inductive Listed (s : Store) : Nat → List NodeId → List (NodeId × Nat) → Prop
  | nil (depth : Nat) : Listed s depth [] []
  | cons {depth : Nat} {n : NodeId} {ns : List NodeId} {inside later : List (NodeId × Nat)}
      (below : Listed s (depth + 1) (s.children n) inside) (next : Listed s depth ns later) :
      Listed s depth (n :: ns) ((n, depth) :: (inside ++ later))

/-- No mapping has a key twice. -/
def Keyed (s : Store) : Prop := ∀ m ∈ s.mappings, m.keys.Nodup

def KeyedAt (s : Store) (n : NodeId) : Prop :=
  ∀ id, .mapping id ∈ (s.element n).slots → (s.mapping id).keys.Nodup

structure KeyedIn (s : Store) (root : Root) : Prop where
  top : ∀ id, root = .node id → s.KeyedAt id
  below : ∀ m, s.Holds root m → s.KeyedAt m

variable {s : Store} {depth : Nat} {ns ms : List NodeId} {all all' : List (NodeId × Nat)}

instance (s : Store) : Decidable s.Keyed := inferInstanceAs (Decidable (∀ m ∈ s.mappings, m.keys.Nodup))

theorem Keyed.mapping (keyed : s.Keyed) (id : MappingId) : (s.mapping id).keys.Nodup := by
  by_cases inside : id.index < s.mappings.size
  · rw [Store.mapping, Array.getD_eq_getD_getElem?, Array.getElem?_eq_getElem inside]
    exact keyed _ (Array.getElem_mem inside)
  · simp [Store.mapping, Array.getD, inside, Mapping.keys]

theorem Keyed.within (keyed : s.Keyed) (root : Root) : s.KeyedIn root :=
  ⟨fun _ _ id _ => keyed.mapping id, fun _ _ id _ => keyed.mapping id⟩

namespace Listed

theorem unique (h : s.Listed depth ns all) (h' : s.Listed depth ns all') : all = all' := by
  induction h generalizing all' with
  | nil =>
    cases h'
    rfl
  | cons _ _ ihBelow ihNext =>
    cases h' with
    | cons below next => rw [ihBelow below, ihNext next]

theorem append (h : s.Listed depth ns all) (h' : s.Listed depth ms all') :
    s.Listed depth (ns ++ ms) (all ++ all') := by
  induction h with
  | nil => exact h'
  | cons below _ _ ih =>
    rw [List.cons_append, List.cons_append, List.append_assoc]
    exact .cons below (ih h')

theorem way (h : s.Listed depth ns all) {m : NodeId} {d : Nat} (member : (m, d) ∈ all) :
    ∃ n ∈ ns, ∃ k, s.Way k n m := by
  induction h with
  | nil => cases member
  | @cons depth n ns inside later _ _ ihBelow ihNext =>
    rcases List.mem_cons.mp member with first | member
    · cases first
      exact ⟨m, List.mem_cons_self, 0, .here m⟩
    rcases List.mem_append.mp member with inner | outer
    · obtain ⟨child, isChild, k, way⟩ := ihBelow inner
      exact ⟨n, List.mem_cons_self, k + 1, .down isChild way⟩
    · obtain ⟨x, inside, found⟩ := ihNext outer
      exact ⟨x, List.mem_cons_of_mem _ inside, found⟩

end Listed

theorem listed_of_each (each : ∀ n ∈ ns, ∃ inside, s.Listed (depth + 1) (s.children n) inside) :
    ∃ all, s.Listed depth ns all := by
  induction ns with
  | nil => exact ⟨[], .nil depth⟩
  | cons n ns ih =>
    obtain ⟨inside, below⟩ := each n List.mem_cons_self
    obtain ⟨later, next⟩ := ih fun m member => each m (List.mem_cons_of_mem _ member)
    exact ⟨_, .cons below next⟩

theorem Finite.listed {n : NodeId} (finite : s.Finite n) (depth : Nat) :
    ∃ inside, s.Listed depth (s.children n) inside := by
  induction finite generalizing depth with
  | intro _ _ ih => exact listed_of_each fun m child => ih m child (depth + 1)

theorem Acyclic.listed {root : Root} (acyclic : s.Acyclic root) (depth : Nat) :
    ∃ all, s.Listed depth (s.top root) all :=
  listed_of_each fun n member => (acyclic n member).listed (depth + 1)

end Store

end DocTree
