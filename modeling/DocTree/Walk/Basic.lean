import DocTree.Filter.Value
import DocTree.Walk.Machine
/-!
The ways to walk a tree: change it, look at every node, collect what a function finds, or list the
nodes. The root itself is never offered or visited.
-/

namespace DocTree.Walk

section

variable {ε σ β : Type}

def keepAll (_ : NodeId) : Effect ε σ Reply := return .keep

def ignore (_ : NodeId) (_ : Nat) : Effect ε σ Unit := return ()

def transform (fuel : Nat) (action : NodeId → Effect ε σ Reply) (root : Root) (w : World σ) :
    Except (Halt ε) Unit × World σ :=
  run ⟨action, ignore⟩ fuel [.ofRoot root] w

def forEach (fuel : Nat) (f : NodeId → Effect ε σ Unit) (root : Root) (w : World σ) :
    Except (Halt ε) Unit × World σ :=
  run ⟨keepAll, fun n _ => f n⟩ fuel [.ofRoot root] w

/-- What a question to a node brings: nothing, one result, or a list of results. -/
inductive Answer (β : Type)
  | nothing
  | one (b : β)
  | many (bs : List β)

def Answer.results : Answer β → List β
  | nothing => []
  | one b => [b]
  | many bs => bs

def noting (f : NodeId → Effect ε σ (Answer β)) (n : NodeId) : Effect ε (σ × List β) Unit :=
  .ofFunction fun w =>
    match (f n).run ⟨w.store, w.state.1⟩ with
    | (.ok answer, ⟨store, state⟩) =>
      (.ok (), ⟨store, state, answer.results.reverse ++ w.state.2⟩)
    | (.error e, ⟨store, state⟩) => (.error e, ⟨store, state, w.state.2⟩)

/-- Collects the results of a question to every node, in document order. -/
def query (fuel : Nat) (f : NodeId → Effect ε σ (Answer β)) (root : Root) (w : World σ) :
    Except (Halt ε) (List β) × World σ :=
  match forEach fuel (noting f) root ⟨w.store, w.state, []⟩ with
  | (.ok (), ⟨store, state, noted⟩) => (.ok noted.reverse, ⟨store, state⟩)
  | (.error h, ⟨store, state, _⟩) => (.error h, ⟨store, state⟩)

/-- The absent value is no result and the members of a list are results of their own. Any other value
is one result, be it a tuple or something empty. -/
def Answer.ofValue : Value β → Answer (Value β)
  | .none => .nothing
  | .list items => .many items
  | v => .one v

/-- Collects what a function finds at every node, in document order. -/
def queryValues (fuel : Nat) (f : NodeId → Effect ε σ (Value β)) (root : Root) (w : World σ) :
    Except (Halt ε) (List (Value β)) × World σ :=
  query fuel (fun n => Answer.ofValue <$> f n) root w

end

def noteNode (n : NodeId) (depth : Nat) : Effect Empty (List (NodeId × Nat)) Unit :=
  Effect.modifyState ((n, depth) :: ·)

/-- Every node below the root with its depth, in document order. The members of a list and the
children of a root node have depth one. -/
def listing (fuel : Nat) (s : Store) (root : Root) : List (NodeId × Nat) :=
  (run ⟨keepAll, noteNode⟩ fuel [.ofRoot root] ⟨s, []⟩).2.state.reverse

/-- Whether all nodes are listed: the walk comes to its end. -/
def completes (fuel : Nat) (s : Store) (root : Root) : Bool :=
  (run ⟨keepAll, noteNode⟩ fuel [.ofRoot root] ⟨s, []⟩).1.isOk

def rootText (s : Store) : Root → Text
  | .node id => (s.element id).ownText
  | .list _ => []

/-- The texts of the leaves in document order, with one space for every sort of space and nothing between them. -/
def plainText (fuel : Nat) (s : Store) (root : Root) : Text :=
  rootText s root ++ (listing fuel s root).flatMap fun (n, _) => (s.element n).ownText

end DocTree.Walk
