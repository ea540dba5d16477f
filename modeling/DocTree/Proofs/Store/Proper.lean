import DocTree.Proofs.Store.Span
import DocTree.Proofs.Store.Ways
/-!
Trees in a store that can be written, and edits that keep them so: those that bring no document, and
nothing with a document in it, into the tree.
-/

namespace DocTree.Store

def Inner (s : Store) (n : NodeId) : Prop := (s.element n).kind ≠ .document ∧ (s.element n).kind ≠ .list

/-- No list stands in the place of an element. -/
structure Typed (s : Store) (root : Root) : Prop where
  named : ∀ id, root = .node id → (s.element id).kind ≠ .list
  below : ∀ m, s.Holds root m → (s.element m).kind ≠ .list

/-- A finite tree without a list in it and without a document below the root. -/
structure Proper (s : Store) (root : Root) : Prop where
  acyclic : s.Acyclic root
  typed : s.Typed root
  inner : ∀ m, s.Holds root m → (s.element m).kind ≠ .document

/-- What an edit leaves of a tree: no node of it has become a document or a list, and each child that a
node of it has got, or that has come to the top, has no document and no list in it. -/
structure Edited (root : Root) (s s' : Store) : Prop where
  acyclic : s'.Acyclic root
  named : ∀ id, root = .node id → (s'.element id).kind ≠ .list
  kept : ∀ n, s.Holds root n → s.Inner n → s'.Inner n
  top : ∀ m ∈ s'.top root, m ∈ s.top root ∨ s'.AllBelow s'.Inner m
  below : ∀ n, s.Holds root n → ∀ m ∈ s'.children n, m ∈ s.children n ∨ s'.AllBelow s'.Inner m

variable {s s' : Store} {root : Root} {n m : NodeId}

theorem Holds.of_top (member : n ∈ s.top root) : s.Holds root n := ⟨n, member, 0, .here n⟩

theorem Holds.child (h : s.Holds root n) (child : m ∈ s.children n) : s.Holds root m := by
  obtain ⟨x, member, k, way⟩ := h
  exact ⟨x, member, k + 1, way.snoc child⟩

theorem proper_of_allBelow (named : ∀ id, root = .node id → (s.element id).kind ≠ .list)
    (below : ∀ n ∈ s.top root, s.AllBelow s.Inner n) : s.Proper root := by
  have inner : ∀ m, s.Holds root m → s.Inner m := by
    rintro m ⟨n, member, k, way⟩
    exact ((below n member).along way).holds
  exact ⟨fun n member => (below n member).finite, ⟨named, fun m held => (inner m held).2⟩,
    fun m held => (inner m held).1⟩

namespace Proper

theorem innerOf (proper : s.Proper root) (held : s.Holds root n) : s.Inner n :=
  ⟨proper.inner n held, proper.typed.below n held⟩

theorem allBelow (proper : s.Proper root) (held : s.Holds root n) : s.AllBelow s.Inner n := by
  obtain ⟨x, member, k, way⟩ := held
  have finite : s.Finite n := (proper.acyclic x member).along way
  exact finite.allBelow fun j m later => proper.innerOf ⟨x, member, k + j, way.trans later⟩

end Proper

/-- Where the members of a class have only children of that class and children that are good all below,
the members are good all below too. -/
theorem Finite.spread {good C : NodeId → Prop} (here : ∀ n, C n → good n)
    (closed : ∀ n, C n → ∀ m ∈ s.children n, C m ∨ s.AllBelow good m) (finite : s.Finite n)
    (member : C n) : s.AllBelow good n := by
  induction finite with
  | @intro n _ _ ih =>
    refine .intro (here n member) fun m child => ?_
    rcases closed n member m child with inside | known
    · exact ih m child inside
    · exact known

theorem Edited.proper (edited : Edited root s s') (proper : s.Proper root) : s'.Proper root := by
  refine proper_of_allBelow edited.named fun n atTop => ?_
  rcases edited.top n atTop with before | known
  · -- The nodes of the tree as it was have only such children now, and children that are inner all below.
    refine (edited.acyclic n atTop).spread (C := s.Holds root) ?_ ?_ (.of_top before)
    · intro m held
      exact edited.kept m held (proper.innerOf held)
    · intro m held x child
      exact (edited.below m held x child).imp_left held.child
  · exact known

theorem AllBelow.fewer {good : NodeId → Prop} (children : ∀ n, ∀ m ∈ s'.children n, m ∈ s.children n)
    (h : s.AllBelow good n) : s'.AllBelow good n := by
  induction h with
  | @intro n here _ ih => exact .intro here fun m child => ih m (children n m child)

/-- The elements are as before, and nothing but the given nodes has come into any container. -/
structure Placed (ns : List NodeId) (s s' : Store) : Prop where
  elements : SameElements s s'
  members : ∀ container, ∀ m ∈ s'.members container, m ∈ s.members container ∨ m ∈ ns

section

variable {ns : List NodeId}

theorem Placed.refl (s : Store) : Placed ns s s := ⟨.refl s, fun _ _ => .inl⟩

theorem placed_newMapping (s : Store) : Placed ns s (newMapping [] s).2 := by
  refine ⟨⟨rfl, rfl⟩, fun container m member => .inl ?_⟩
  cases container with
  | sequence _ => exact member
  | mapping id =>
    have same : (newMapping [] s).2.mapping id = s.mapping id := by
      simp only [mapping, newMapping, Array.getD_eq_getD_getElem?, Array.getElem?_push]
      split
      · next last => simp [last]
      · rfl
    rw [Store.members, same] at member
    exact member

theorem placed_setSequence {id : SequenceId} {content : List NodeId}
    (known : ∀ m ∈ content, m ∈ s.sequence id ∨ m ∈ ns) : Placed ns s (s.setSequence id content) := by
  refine ⟨⟨rfl, rfl⟩, fun container m member => ?_⟩
  cases container with
  | mapping _ => exact .inl member
  | sequence q =>
    by_cases here : id = q
    · subst here
      by_cases inside : id.index < s.sequences.size
      · have read : (s.setSequence id content).sequence id = content := by
          simp [sequence, setSequence, inside]
        exact known m (read ▸ member)
      · have same : s.setSequence id content = s := by simp [setSequence, Array.setIfInBounds, inside]
        exact .inl (same ▸ member)
    · have same : (s.setSequence id content).sequence q = s.sequence q :=
        same_setSequence (o := .sequence q) fun eq => here (Object.sequence.inj eq).symm
      rw [Store.members, same] at member
      exact .inl member

theorem placed_setMapping {id : MappingId} {content : Mapping NodeId}
    (known : ∀ m ∈ content.map (·.2), m ∈ (s.mapping id).map (·.2) ∨ m ∈ ns) :
    Placed ns s (s.setMapping id content) := by
  refine ⟨⟨rfl, rfl⟩, fun container m member => ?_⟩
  cases container with
  | sequence _ => exact .inl member
  | mapping q =>
    by_cases here : id = q
    · subst here
      by_cases inside : id.index < s.mappings.size
      · have read : (s.setMapping id content).mapping id = content := by
          simp [mapping, setMapping, inside]
        exact known m (read ▸ member)
      · have same : s.setMapping id content = s := by simp [setMapping, Array.setIfInBounds, inside]
        exact .inl (same ▸ member)
    · have same : (s.setMapping id content).mapping q = s.mapping q :=
        same_setMapping (o := .mapping q) fun eq => here (Object.mapping.inj eq).symm
      rw [Store.members, same] at member
      exact .inl member

namespace Placed

theorem element (placed : Placed ns s s') (n : NodeId) : s'.element n = s.element n :=
  placed.elements.element n

theorem children (placed : Placed ns s s') {x : NodeId} (child : x ∈ s'.children n) :
    x ∈ s.children n ∨ x ∈ ns := by
  rw [Store.children, placed.element] at child
  obtain ⟨container, own, member⟩ := List.mem_flatMap.mp child
  exact (placed.members container x member).imp_left (mem_children own)

theorem top (placed : Placed ns s s') (atTop : m ∈ s'.top root) : m ∈ s.top root ∨ m ∈ ns := by
  cases root with
  | node id => exact placed.children atTop
  | list id => exact placed.members (.sequence id) m atTop

/-- A tree stays proper when nodes that are inner all below are put into it, if it stays acyclic. -/
theorem proper (placed : Placed ns s s') (good : ∀ n ∈ ns, s.AllBelow s.Inner n)
    (acyclic : s'.Acyclic root) (proper : s.Proper root) : s'.Proper root := by
  refine proper_of_allBelow ?_ fun n atTop => ?_
  · intro id isRoot
    rw [placed.element]
    exact proper.typed.named id isRoot
  · -- What was inner all below before has got no other children.
    refine (acyclic n atTop).spread (C := s.AllBelow s.Inner) ?_ ?_ ?_
    · intro m below
      rw [Inner, placed.element]
      exact below.holds
    · intro m below x child
      refine .inl ?_
      rcases placed.children child with before | given
      · exact below.child before
      · exact good x given
    · rcases placed.top atTop with before | given
      · exact proper.allBelow (.of_top before)
      · exact good n given

end Placed

end

theorem named_tree (acyclic : s.Acyclic root) (typed : s.Typed root) : (s.tree root).Named where
  root := by
    intro x isRoot
    cases root with
    | list id => cases isRoot
    | node id =>
      obtain rfl := Tree.node.inj isRoot
      rw [node, kind_nodeWithin]
      exact typed.named id rfl
  below := by
    intro x held isList
    obtain ⟨m, inStore, same⟩ := (holds_tree acyclic (by decide)).mp ⟨x, held, isList⟩
    exact typed.below m inStore same

/-- A finite tree without lists in it is written unless there is a document below the root. -/
theorem encode_tree_error_iff (acyclic : s.Acyclic root) (typed : s.Typed root) :
    Codec.encode (s.tree root) = .error .innerDocument ↔
      ∃ m, s.Holds root m ∧ (s.element m).kind = .document :=
  (Codec.encode_error_iff (named_tree acyclic typed)).trans (holds_tree acyclic nofun)

theorem Proper.encodes (proper : s.Proper root) : ∃ j, Codec.encode (s.tree root) = .ok j := by
  rcases Codec.encode_settled (named_tree proper.acyclic proper.typed) with failed | written
  · obtain ⟨m, held, isDocument⟩ := (encode_tree_error_iff proper.acyclic proper.typed).mp failed
    exact absurd isDocument (proper.inner m held)
  · exact written

theorem loadTree_proper {t : Tree} (proper : t.Proper) (s : Store) :
    (loadTree t s).2.Proper (loadTree t s).1 := by
  obtain ⟨readBack, named⟩ := loadTree_read proper s (.refl _)
  generalize (loadTree t s).2 = s' at readBack named
  generalize (loadTree t s).1 = root at readBack named
  obtain ⟨_, inner⟩ := t.proper_iff_holds.mp proper
  have acyclic : s'.Acyclic root := fun n member => (named n member).finite
  refine ⟨acyclic, ⟨?_, ?_⟩, ?_⟩
  · rintro id rfl
    rw [← readBack] at proper
    rw [← kind_nodeWithin s' s'.records.size id]
    exact proper.1
  · rintro m ⟨n, member, k, way⟩
    exact ((named n member).along way).holds
  · intro m held isDocument
    obtain ⟨x, inTree, same⟩ := (holds_tree acyclic (by decide)).mpr ⟨m, held, isDocument⟩
    rw [readBack] at inTree
    exact inner x inTree same

theorem load_inner {n : Node} (proper : Tree.Proper (.node n)) (isInner : n.element.kind ≠ .document) (s : Store) :
    (load n s).2.AllBelow (load n s).2.Inner (load n s).1 := by
  have loaded : (load n s).2.Proper (.node (load n s).1) := loadTree_proper proper s
  have readBack : (load n s).2.node (load n s).1 = n := Tree.node.inj (loadTree_read proper s (.refl _)).1
  have kind : n.element.kind = ((load n s).2.element (load n s).1).kind := by
    conv_lhs => rw [← readBack]
    exact kind_nodeWithin _ _ _
  refine .intro ⟨kind ▸ isInner, loaded.typed.named _ rfl⟩ fun m child => ?_
  exact loaded.allBelow (.of_top child)

end DocTree.Store
