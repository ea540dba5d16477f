import DocTree.Store.Basic
/-!
What lies below a node of a store. A way down need not end in a store with cycles; `AllBelow` says that
every one does, and what holds of the nodes on it.
-/

namespace DocTree.Store

def members (s : Store) : Slot SequenceId MappingId → List NodeId
  | .sequence id => s.sequence id
  | .mapping id => (s.mapping id).map (·.2)

def children (s : Store) (n : NodeId) : List NodeId := (s.element n).slots.flatMap s.members

/-- A node and everything below it is good, and every way down comes to an end. -/
inductive AllBelow (s : Store) (good : NodeId → Prop) : NodeId → Prop
  | intro {n : NodeId} (here : good n) (below : ∀ m ∈ s.children n, AllBelow s good m) :
    AllBelow s good n

/-- Finite and without a cycle: every way down from a node comes to an end. -/
def Finite (s : Store) (n : NodeId) : Prop := s.AllBelow (fun _ => True) n

variable {s : Store} {good : NodeId → Prop} {n : NodeId}

theorem mem_children {slot : Slot SequenceId MappingId} (own : slot ∈ (s.element n).slots) {m : NodeId}
    (member : m ∈ s.members slot) : m ∈ s.children n :=
  List.mem_flatMap.mpr ⟨slot, own, member⟩

theorem finite_of_older (older : ∀ i < s.records.size, ∀ m ∈ s.children ⟨i⟩, m.index < i) :
    s.Finite n := by
  obtain ⟨i⟩ := n
  induction i using Nat.strongRecOn with
  | ind i ih =>
    refine .intro trivial fun m child => ?_
    by_cases known : i < s.records.size
    · exact ih m.index (older i known m child)
    · have unknown : s.element ⟨i⟩ = .mark .null := by simp [element, record, elementOf, Array.getD, known]
      rw [children, unknown] at child
      exact absurd child List.not_mem_nil

end DocTree.Store
