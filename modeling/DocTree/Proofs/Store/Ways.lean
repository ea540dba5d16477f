import DocTree.Proofs.Codec.Encodable
import DocTree.Proofs.Store.Loading
import Mathlib.Data.List.Perm.Subperm
/-!
The ways down from the root of a tree in a store. Without a cycle no way is longer than the store, so
that all that is found in the store below a root is found in the tree that is read out of it.
-/

namespace DocTree.Store

inductive Way (s : Store) : Nat → NodeId → NodeId → Prop
  | here (n : NodeId) : Way s 0 n n
  | down {k : Nat} {n child m : NodeId} (first : child ∈ s.children n) (later : Way s k child m) :
    Way s (k + 1) n m

/-- A node is found strictly below the root. -/
def Holds (s : Store) (root : Root) (m : NodeId) : Prop := ∃ n ∈ s.top root, ∃ k, s.Way k n m

def Acyclic (s : Store) (root : Root) : Prop := ∀ n ∈ s.top root, s.Finite n

variable {s : Store} {root : Root} {k j : Nat} {n m : NodeId}

theorem Way.trans (h : s.Way k n m) {x : NodeId} (h' : s.Way j m x) : s.Way (k + j) n x := by
  induction h with
  | here => simpa using h'
  | down first _ ih =>
    rw [Nat.add_right_comm]
    exact .down first (ih h')

theorem Way.snoc (h : s.Way k n m) {x : NodeId} (last : x ∈ s.children m) : s.Way (k + 1) n x :=
  h.trans (.down last (.here x))

namespace AllBelow

variable {good good' : NodeId → Prop}

theorem imp (h : s.AllBelow good n) (implies : ∀ m, good m → good' m) :
    s.AllBelow good' n := by
  induction h with
  | intro here _ ih => exact .intro (implies _ here) ih

theorem finite (h : s.AllBelow good n) : s.Finite n := h.imp fun _ _ => trivial

theorem child (h : s.AllBelow good n) (child : m ∈ s.children n) : s.AllBelow good m := by
  obtain ⟨_, below⟩ := h
  exact below m child

theorem along (h : s.AllBelow good n) (way : s.Way k n m) : s.AllBelow good m := by
  induction way with
  | here => exact h
  | down first _ ih => exact ih (h.child first)

theorem holds (h : s.AllBelow good n) : good n := by
  obtain ⟨here, _⟩ := h
  exact here

end AllBelow

theorem Finite.allBelow {good : NodeId → Prop} (finite : s.Finite n) (each : ∀ k m, s.Way k n m → good m) :
    s.AllBelow good n := by
  induction finite with
  | @intro n _ _ ih =>
    refine .intro (each 0 n (.here n)) fun m child => ih m child fun k x way => ?_
    exact each (k + 1) x (.down child way)

theorem Finite.no_cycle (finite : s.Finite n) : ¬ s.Way (k + 1) n n := by
  induction finite generalizing k with
  | @intro n _ _ ih =>
    intro cycle
    cases cycle with
    | down first later =>
      -- The way back, turned on by one step, is a way from the child back to itself.
      exact ih _ first (later.snoc first)

theorem known_of_child (child : m ∈ s.children n) : n.index < s.records.size := by
  by_contra outside
  have unknown : s.element n = .mark .null := by simp [element, record, elementOf, Array.getD, outside]
  rw [children, unknown] at child
  exact absurd child List.not_mem_nil

/-- Nodes that the store knows, each once, are not more than the store has. -/
theorem length_le_size {ns : List NodeId} (distinct : ns.Nodup)
    (known : ∀ n ∈ ns, n.index < s.records.size) : ns.length ≤ s.records.size := by
  have indices : (ns.map NodeId.index).Nodup := by
    refine List.Pairwise.map _ ?_ distinct
    rintro ⟨i⟩ ⟨j⟩ different same
    exact different (congrArg NodeId.mk same)
  have inRange : ns.map NodeId.index ⊆ List.range s.records.size := by
    intro i member
    obtain ⟨n, inside, rfl⟩ := List.mem_map.mp member
    exact List.mem_range.mpr (known n inside)
  have bound := (indices.subperm inRange).length_le
  rwa [List.length_map, List.length_range] at bound

/-- A way goes on from nodes that lie above its beginning, and never comes back to one of them. -/
theorem Way.length_le (way : s.Way k n m) (finite : s.Finite n) {above : List NodeId}
    (distinct : above.Nodup) (known : ∀ x ∈ above, x.index < s.records.size)
    (leads : ∀ x ∈ above, ∃ j, s.Way (j + 1) x n) : k + above.length ≤ s.records.size := by
  -- The nodes passed are gathered in `above`; each is new there, or else it would lie on a cycle.
  induction way generalizing above with
  | here n =>
    rw [Nat.zero_add]
    exact length_le_size distinct known
  | @down k n child m first _ ih =>
    have fresh : n ∉ above := by
      intro member
      obtain ⟨j, cycle⟩ := leads n member
      exact finite.no_cycle cycle
    have leadsOn : ∀ x ∈ n :: above, ∃ j, s.Way (j + 1) x child := by
      intro x member
      rcases List.mem_cons.mp member with rfl | member
      · exact ⟨0, .down first (.here child)⟩
      · obtain ⟨j, way⟩ := leads x member
        exact ⟨j + 1, way.snoc first⟩
    have longer := ih (finite.child first) (List.nodup_cons.mpr ⟨fresh, distinct⟩)
      (List.forall_mem_cons.mpr ⟨known_of_child first, known⟩) leadsOn
    rw [List.length_cons] at longer
    omega

theorem Finite.way_le (finite : s.Finite n) (way : s.Way k n m) : k ≤ s.records.size := by
  have bound := way.length_le finite List.nodup_nil (by simp) (by simp)
  simpa using bound

@[simp] theorem kind_nodeWithin (s : Store) (fuel : Nat) (n : NodeId) :
    (s.nodeWithin (fuel + 1) n).element.kind = (s.element n).kind := by
  rw [nodeWithin, Node.element, Element.kind_map]

theorem Way.occurs (way : s.Way k n m) {fuel : Nat} (enough : k < fuel) :
    ∃ left, (s.nodeWithin (left + 1) m).Occurs (s.nodeWithin fuel n) := by
  induction way generalizing fuel with
  | here n =>
    obtain ⟨left, rfl⟩ := Nat.exists_eq_succ_of_ne_zero (by omega : fuel ≠ 0)
    exact ⟨left, .here⟩
  | @down k n child m first _ ih =>
    obtain ⟨left, rfl⟩ := Nat.exists_eq_succ_of_ne_zero (by omega : fuel ≠ 0)
    have less : k < left := by omega
    obtain ⟨rest, found⟩ := ih less
    have isChild : s.nodeWithin left child ∈ (s.nodeWithin (left + 1) n).element.children := by
      rw [children_nodeWithin]
      exact List.mem_map_of_mem first
    exact ⟨rest, .deeper isChild found⟩

/-- Where a tree that is read is not cut off, it has the nodes of the store. -/
theorem way_of_occurs {fuel : Nat} {x : Node} (found : x.Occurs (s.nodeWithin fuel n)) :
    x.element.kind = .null ∨ ∃ k m, s.Way k n m ∧ x.element.kind = (s.element m).kind := by
  induction fuel generalizing n with
  | zero =>
    cases found with
    | here => exact .inl rfl
    | deeper child _ => exact absurd child List.not_mem_nil
  | succ fuel ih =>
    cases found with
    | here => exact .inr ⟨0, n, .here n, kind_nodeWithin s fuel n⟩
    | deeper child inside =>
      have children := children_nodeWithin s fuel n
      rw [nodeWithin, Node.element] at children
      rw [children] at child
      obtain ⟨c, member, rfl⟩ := List.mem_map.mp child
      rcases ih inside with cut | ⟨k, m, way, same⟩
      · exact .inl cut
      · exact .inr ⟨k + 1, m, .down member way, same⟩

theorem top_tree (s : Store) (root : Root) : ∃ fuel,
    (s.tree root).top = (s.top root).map (s.nodeWithin fuel) ∧
      (s.Acyclic root → ∀ n ∈ s.top root, ∀ k m, s.Way k n m → k < fuel) := by
  cases root with
  | list id =>
    refine ⟨s.records.size + 1, rfl, fun acyclic n member k m way => ?_⟩
    exact Nat.lt_succ_of_le ((acyclic n member).way_le way)
  | node id =>
    refine ⟨s.records.size, children_nodeWithin s s.records.size id, fun acyclic n child k m way => ?_⟩
    have finite : s.Finite id := .intro trivial acyclic
    exact finite.way_le (.down child way)

/-- What is below the root in the store is read as the element that it is. -/
theorem Holds.read (acyclic : s.Acyclic root) (held : s.Holds root m) :
    ∃ x, (s.tree root).Holds x ∧ ∃ f g, x.element = (s.element m).map f g := by
  obtain ⟨fuel, top, enough⟩ := s.top_tree root
  obtain ⟨n, inside, k, way⟩ := held
  obtain ⟨left, found⟩ := way.occurs (enough acyclic n inside k m way)
  refine ⟨_, ⟨_, ?_, found⟩, _, _, by rw [nodeWithin, Node.element]⟩
  rw [top]
  exact List.mem_map_of_mem inside

theorem Holds.occurs (acyclic : s.Acyclic root) (held : s.Holds root m) :
    ∃ x, (s.tree root).Holds x ∧ x.element.kind = (s.element m).kind := by
  obtain ⟨x, inTree, f, g, element⟩ := held.read acyclic
  exact ⟨x, inTree, by rw [element, Element.kind_map]⟩

theorem holds_tree {kind : Kind} (acyclic : s.Acyclic root) (named : kind ≠ .null) :
    (∃ x, (s.tree root).Holds x ∧ x.element.kind = kind) ↔
      ∃ m, s.Holds root m ∧ (s.element m).kind = kind := by
  constructor
  · rintro ⟨x, ⟨_, member, found⟩, rfl⟩
    obtain ⟨fuel, top, _⟩ := s.top_tree root
    rw [top] at member
    obtain ⟨n, inside, rfl⟩ := List.mem_map.mp member
    rcases way_of_occurs found with cut | ⟨k, m, way, same⟩
    · exact absurd cut named
    · exact ⟨m, ⟨n, inside, k, way⟩, same.symm⟩
  · rintro ⟨m, held, rfl⟩
    exact held.occurs acyclic

end DocTree.Store
