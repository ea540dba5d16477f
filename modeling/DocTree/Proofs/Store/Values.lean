import DocTree.Proofs.Node.Proper
import DocTree.Proofs.Store.Exchange
/-!
The tree that is read at a node of a store. Where every way down comes to an end and no list stands in the
place of an element, it is the element with the trees that are read at its children, and it depends on
nothing but the objects of the tree.
-/

namespace DocTree

namespace Store

variable {s s' : Store} {root : Root} {objects all : List Object} {n m : NodeId}

def Elemental (s : Store) (n : NodeId) : Prop := (s.element n).kind ≠ .list

/-- Once no way down is cut off, more fuel changes nothing. -/
theorem nodeWithin_succ {fuel : Nat} (below : s.AllBelow s.Elemental n)
    (enough : ∀ k m, s.Way k n m → k < fuel) : s.nodeWithin (fuel + 1) n = s.nodeWithin fuel n := by
  induction fuel generalizing n with
  | zero => exact absurd (enough 0 n (.here n)) (Nat.not_lt_zero 0)
  | succ fuel ih =>
    have children : ∀ m ∈ s.children n, s.nodeWithin (fuel + 1) m = s.nodeWithin fuel m := by
      intro m child
      refine ih (below.child child) fun k x way => ?_
      exact Nat.lt_of_succ_lt_succ (enough (k + 1) x (.down child way))
    rw [nodeWithin, nodeWithin]
    refine congrArg Node.mk (Element.map_congr below.holds (fun q own => ?_) fun id own => ?_)
    · exact List.map_congr_left fun m member => children m (mem_children own member)
    · refine List.map_congr_left fun entry member => ?_
      exact congrArg (entry.1, ·) (children entry.2 (mem_children own (List.mem_map_of_mem member)))

theorem node_child (below : s.AllBelow s.Elemental n) (child : m ∈ s.children n) :
    s.nodeWithin s.records.size m = s.node m := by
  refine (nodeWithin_succ (below.child child) fun k x way => ?_).symm
  exact below.finite.way_le (.down child way)

def nodesAt (s : Store) (q : SequenceId) : List Node := (s.sequence q).map s.node

def entriesAt (s : Store) (id : MappingId) : Mapping Node :=
  (s.mapping id).map fun (key, m) => (key, s.node m)

theorem node_eq (below : s.AllBelow s.Elemental n) :
    s.node n = .mk ((s.element n).map s.nodesAt s.entriesAt) := by
  rw [node, nodeWithin]
  refine congrArg Node.mk (Element.map_congr below.holds (fun q own => ?_) fun id own => ?_)
  · exact List.map_congr_left fun m member => node_child below (mem_children own member)
  · refine List.map_congr_left fun entry member => ?_
    exact congrArg (entry.1, ·) (node_child below (mem_children own (List.mem_map_of_mem member)))

@[simp] theorem kind_node (s : Store) (n : NodeId) : (s.node n).element.kind = (s.element n).kind :=
  kind_nodeWithin s s.records.size n

theorem Spans.node_agree (h : s.Spans objects all) (same : ∀ o ∈ all, Same s s' o)
    (elemental : ∀ m, .node m ∈ all → s.Elemental m) (member : .node n ∈ all) : s'.node n = s.node n := by
  have h' := h.agree same
  have elemental' : ∀ m, .node m ∈ all → s'.Elemental m := by
    intro m inside
    have eq : s'.element m = s.element m := (same _ inside).element
    rw [Elemental, eq]
    exact elemental m inside
  have below := h.allBelow elemental member
  induction below with
  | @intro n here inner ih =>
    have children : ∀ m ∈ s.children n, s'.node m = s.node m :=
      fun m child => ih m child (h.child_mem member child)
    have element : s'.element n = s.element n := (same _ member).element
    rw [node_eq (h.allBelow elemental member), node_eq (h'.allBelow elemental' member), element]
    refine congrArg Node.mk (Element.map_congr here (fun q own => ?_) fun id own => ?_)
    · have content : s'.sequence q = s.sequence q :=
        same (.sequence q) (h.closed member (List.mem_map_of_mem own))
      rw [nodesAt, nodesAt, content]
      exact List.map_congr_left fun m inside => children m (mem_children own inside)
    · have content : s'.mapping id = s.mapping id :=
        same (.mapping id) (h.closed member (List.mem_map_of_mem own))
      rw [entriesAt, entriesAt, content]
      refine List.map_congr_left fun entry inside => ?_
      exact congrArg (entry.1, ·) (children entry.2 (mem_children own (List.mem_map_of_mem inside)))

section

variable (h : s.Spans objects all) (same : ∀ o ∈ all, Same s s' o)
  (elemental : ∀ m, .node m ∈ all → s.Elemental m)
include h same elemental

theorem Spans.nodes_agree {ns : List NodeId} (members : ∀ n ∈ ns, .node n ∈ all) :
    ns.map s'.node = ns.map s.node :=
  List.map_congr_left fun n member => h.node_agree same elemental (members n member)

theorem Spans.entries_agree {entries : Mapping NodeId} (members : ∀ entry ∈ entries, .node entry.2 ∈ all) :
    (entries.map fun (key, n) => (key, s'.node n)) = entries.map fun (key, n) => (key, s.node n) :=
  List.map_congr_left fun entry member =>
    congrArg (entry.1, ·) (h.node_agree same elemental (members entry member))

theorem Spans.nodesAt_agree {q : SequenceId} (member : .sequence q ∈ all) : s'.nodesAt q = s.nodesAt q := by
  have content : s'.sequence q = s.sequence q := same (.sequence q) member
  rw [nodesAt, content]
  exact h.nodes_agree same elemental fun n inside => h.closed member (List.mem_map_of_mem inside)

theorem Spans.entriesAt_agree {id : MappingId} (member : .mapping id ∈ all) :
    s'.entriesAt id = s.entriesAt id := by
  have content : s'.mapping id = s.mapping id := same (.mapping id) member
  rw [entriesAt, content]
  exact h.entries_agree same elemental fun entry inside =>
    h.closed member (List.mem_map.mpr ⟨entry, inside, rfl⟩)

end

theorem Typed.elemental (typed : s.Typed root) (h : s.Spans [root.object] all) (member : .node n ∈ all) :
    s.Elemental n := by
  rcases h.mem_cases member with isRoot | held
  · exact typed.named n isRoot
  · exact typed.below n held

theorem typed_of_elemental (h : s.Spans [root.object] all) (each : ∀ m, .node m ∈ all → s.Elemental m) :
    s.Typed root := by
  refine ⟨fun id isRoot => each id ?_, fun m held => each m (h.holds_mem held)⟩
  subst isRoot
  exact h.mem (List.mem_singleton_self _)

/-- A tree is read as the same where its objects are. -/
theorem Spans.tree_agree (h : s.Spans [root.object] all) (same : ∀ o ∈ all, Same s s' o) (typed : s.Typed root) :
    s'.tree root = s.tree root := by
  have elemental : ∀ m, .node m ∈ all → s.Elemental m := fun _ => typed.elemental h
  have top : root.object ∈ all := h.mem (List.mem_singleton_self _)
  cases root with
  | node id => exact congrArg Tree.node (h.node_agree same elemental top)
  | list q => exact congrArg Tree.list (h.nodesAt_agree same elemental top)

theorem Typed.of_nodes (typed : s.Typed root) {all' : List Object} (h : s.Spans [root.object] all)
    (h' : s'.Spans [root.object] all')
    (each : ∀ m, .node m ∈ all' → .node m ∈ all ∧ s'.element m = s.element m) : s'.Typed root := by
  refine typed_of_elemental h' fun m member => ?_
  obtain ⟨before, same⟩ := each m member
  rw [Elemental, same]
  exact typed.elemental h before

/-- A tree into which no object has come, and of which no node has been edited. -/
def Fewer (root : Root) (s s' : Store) : Prop := ∃ all all', s.Spans [root.object] all ∧
  s'.Spans [root.object] all' ∧ all' ⊆ all ∧ ∀ m, .node m ∈ all' → s'.element m = s.element m

namespace Fewer

theorem refl (h : s.Spans [root.object] all) : Fewer root s s :=
  ⟨all, all, h, h, List.Subset.refl _, fun _ _ => rfl⟩

theorem trans {s₁ : Store} (h : Fewer root s s₁) (h' : Fewer root s₁ s') : Fewer root s s' := by
  obtain ⟨all, all₁, spans, spans₁, within, same⟩ := h
  obtain ⟨_, all', spans₁', spans', within', same'⟩ := h'
  obtain rfl := spans₁'.unique spans₁
  exact ⟨all, all', spans, spans', fun o member => within (within' member),
    fun m member => (same' m member).trans (same m (within' member))⟩

theorem typed (h : Fewer root s s') (typed : s.Typed root) : s'.Typed root := by
  obtain ⟨all, all', spans, spans', within, same⟩ := h
  exact typed.of_nodes spans spans' fun m member => ⟨within member, same m member⟩

end Fewer

end Store

end DocTree
