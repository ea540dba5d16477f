import DocTree.Action.Basic
import DocTree.Proofs.Walk.Preorder
/-!
What actions are told of the fields of a node.
-/

namespace DocTree.Action

variable {σ : Type} {n : NodeId} {q : SequenceId} {w : World σ}

theorem run_element (n : NodeId) (w : World σ) :
    Trial.run (Action.element n) w = (.ok (w.store.element n), w) := rfl

theorem run_contentOf (content : (w.store.element n).content? = some q) :
    Trial.run (contentOf n) w = (.ok q, w) := by
  rw [contentOf, Trial.run_bind, run_element]
  dsimp only
  rw [content]
  rfl

theorem run_levelOf {level : Int} (known : (w.store.element n).level? = some level) :
    Trial.run (levelOf n) w = (.ok level, w) := by
  rw [levelOf, Trial.run_bind, run_element]
  dsimp only
  rw [known]
  rfl

theorem run_nameOf (n : NodeId) (w : World σ) : Trial.run (nameOf n) w =
    (if (w.store.element n).kind = .list then .error (.own (.missingField Kind.list.typeName "name"))
      else .ok (w.store.element n).name, w) := by
  rw [nameOf, Trial.run_bind, run_element]
  dsimp only
  split
  · next isList =>
    rw [isList]
    rfl
  · rfl

def member (s : Store) (n : NodeId) : Member :=
  if (s.element n).kind = .list then .other (s.element n).kind.typeName else .node n

theorem run_membersOf (q : SequenceId) (w : World σ) :
    Trial.run (membersOf q) w = (.ok ((w.store.sequence q).map (member w.store)), w) := by
  have each : ∀ ns : List NodeId, Trial.run (ns.mapM memberOf) w = (.ok (ns.map (member w.store)), w) := by
    intro ns
    induction ns with
    | nil => rfl
    | cons n ns ih =>
      rw [List.mapM_cons, Trial.run_bind]
      change Trial.run (ns.mapM memberOf >>= _) w = _
      rw [Trial.run_bind, ih]
      rfl
  exact each _

end DocTree.Action
