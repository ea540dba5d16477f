import DocTree.Proofs.Store.Span
import DocTree.Proofs.Walk.Course
/-!
The rewrite of a tree as a recursion, which knows nothing of frames, cursors or indices: it goes through
the containers of a node, offers the members in order, puts the answers in their places, and goes on
below each of them before the next member is offered. `Tame` says for which actions a walk is expected
to do the same.
-/

namespace DocTree

variable {ε σ : Type}

def World.withSequence (w : World σ) (id : SequenceId) (ns : List NodeId) : World σ :=
  { w with store := w.store.setSequence id ns }

def World.withMapping (w : World σ) (id : MappingId) (m : Mapping NodeId) : World σ :=
  { w with store := w.store.setMapping id m }

namespace Walk

open Store (Same)

/-- What is to be rewritten: the insides of some nodes, some containers, or a container of which a part is
settled. -/
inductive Task
  | below (nodes : List NodeId)
  | slots (containers : List (Slot SequenceId MappingId))
  | members (id : SequenceId) (settled todo : List NodeId)
  | entries (id : MappingId) (settled todo : Mapping NodeId)

namespace Task

def ofSlot (s : Store) : Slot SequenceId MappingId → Task
  | .sequence id => members id [] (s.sequence id)
  | .mapping id => entries id [] (s.mapping id)

def ofRoot (s : Store) : Root → Task
  | .node id => slots (s.element id).slots
  | .list id => members id [] (s.sequence id)

end Task

/-- An action gives some nodes for one that is offered to it, that one itself if it is kept. -/
def Gives (action : NodeId → Effect ε σ Reply) (n : NodeId) (w : World σ) (ns : List NodeId)
    (w' : World σ) : Prop :=
  ∃ reply given, (action n).run w = (.ok reply, w') ∧
    reply.replacement (w.store.element n).kind = .ok given ∧ ns = given.getD [n]

/-- A task is done, with these calls, from one world to another. -/
inductive Rewrites (action : NodeId → Effect ε σ Reply) :
    Task → World σ → List (Call σ) → World σ → Prop
  | below_nil {w : World σ} : Rewrites action (.below []) w [] w
  | below_cons {n : NodeId} {ns : List NodeId} {w w₁ w₂ : World σ} {calls later : List (Call σ)}
      (inside : Rewrites action (.slots (w.store.element n).slots) w calls w₁)
      (others : Rewrites action (.below ns) w₁ later w₂) :
      Rewrites action (.below (n :: ns)) w (calls ++ later) w₂
  | slots_nil {w : World σ} : Rewrites action (.slots []) w [] w
  | slots_cons {container : Slot SequenceId MappingId} {containers : List (Slot SequenceId MappingId)}
      {w w₁ w₂ : World σ} {calls later : List (Call σ)}
      (inside : Rewrites action (.ofSlot w.store container) w calls w₁)
      (others : Rewrites action (.slots containers) w₁ later w₂) :
      Rewrites action (.slots (container :: containers)) w (calls ++ later) w₂
  | members_nil {id : SequenceId} {settled : List NodeId} {w : World σ} :
      Rewrites action (.members id settled []) w [] w
  | members_cons {id : SequenceId} {settled todo ns : List NodeId} {n : NodeId} {w w₁ w₂ w₃ : World σ}
      {calls later : List (Call σ)} (gives : Gives action n w ns w₁)
      (inside : Rewrites action (.below ns) (w₁.withSequence id (settled ++ ns ++ todo)) calls w₂)
      (others : Rewrites action (.members id (settled ++ ns) todo) w₂ later w₃) :
      Rewrites action (.members id settled (n :: todo)) w (⟨n, w⟩ :: (calls ++ later)) w₃
  | entries_nil {id : MappingId} {settled : Mapping NodeId} {w : World σ} :
      Rewrites action (.entries id settled []) w [] w
  | entries_cons {id : MappingId} {settled todo : Mapping NodeId} {key : Text} {ns : List NodeId}
      {n : NodeId} {w w₁ w₂ w₃ : World σ} {calls later : List (Call σ)}
      (gives : Gives action n w ns w₁) (room : ns.length ≤ 1)
      (inside : Rewrites action (.below ns)
        (w₁.withMapping id (settled ++ ns.map (key, ·) ++ todo)) calls w₂)
      (others : Rewrites action (.entries id (settled ++ ns.map (key, ·)) todo) w₂ later w₃) :
      Rewrites action (.entries id settled ((key, n) :: todo)) w (⟨n, w⟩ :: (calls ++ later)) w₃

theorem Gives.unique {action : NodeId → Effect ε σ Reply} {n : NodeId} {w w₁ w₂ : World σ}
    {ns ms : List NodeId} (h : Gives action n w ns w₁) (h' : Gives action n w ms w₂) :
    ns = ms ∧ w₁ = w₂ := by
  obtain ⟨reply, given, answer, usable, rfl⟩ := h
  obtain ⟨reply', given', answer', usable', rfl⟩ := h'
  obtain ⟨same, rfl⟩ := Prod.mk.inj (answer.symm.trans answer')
  obtain rfl := Except.ok.inj same
  obtain rfl := Except.ok.inj (usable.symm.trans usable')
  exact ⟨rfl, rfl⟩

/-- The recursion is a function: a task is done in one way at most. -/
theorem Rewrites.unique {action : NodeId → Effect ε σ Reply} {task : Task} {w w₁ w₂ : World σ}
    {calls calls' : List (Call σ)} (h : Rewrites action task w calls w₁)
    (h' : Rewrites action task w calls' w₂) : calls = calls' ∧ w₁ = w₂ := by
  induction h generalizing calls' w₂ with
  | below_nil | slots_nil | members_nil | entries_nil =>
    cases h'
    exact ⟨rfl, rfl⟩
  | below_cons _ _ ihInside ihOthers =>
    cases h' with
    | below_cons inside others =>
      obtain ⟨rfl, rfl⟩ := ihInside inside
      obtain ⟨rfl, rfl⟩ := ihOthers others
      exact ⟨rfl, rfl⟩
  | slots_cons _ _ ihInside ihOthers =>
    cases h' with
    | slots_cons inside others =>
      obtain ⟨rfl, rfl⟩ := ihInside inside
      obtain ⟨rfl, rfl⟩ := ihOthers others
      exact ⟨rfl, rfl⟩
  | members_cons gives _ _ ihInside ihOthers =>
    cases h' with
    | members_cons gives' inside others =>
      obtain ⟨rfl, rfl⟩ := gives.unique gives'
      obtain ⟨rfl, rfl⟩ := ihInside inside
      obtain ⟨rfl, rfl⟩ := ihOthers others
      exact ⟨rfl, rfl⟩
  | entries_cons gives _ _ _ ihInside ihOthers =>
    cases h' with
    | entries_cons gives' _ inside others =>
      obtain ⟨rfl, rfl⟩ := gives.unique gives'
      obtain ⟨rfl, rfl⟩ := ihInside inside
      obtain ⟨rfl, rfl⟩ := ihOthers others
      exact ⟨rfl, rfl⟩

def Reached (action : NodeId → Effect ε σ Reply) (root : Root) (w₀ : World σ) (stack : List Frame)
    (w : World σ) : Prop :=
  ∃ n calls, Reaches ⟨action, ignore⟩ n [.ofRoot root] w₀ calls stack w

/-- On a walk over a tree, an action edits nothing of the tree outside what is below the node that it is
offered, and its answers do not make any object be reached in two ways. -/
structure Tame (action : NodeId → Effect ε σ Reply) (root : Root) (w₀ : World σ) : Prop where
  unshared : ∀ stack w, Reached action root w₀ stack w → w.store.Unshared root
  inside : ∀ frame rest w n all below, Reached action root w₀ (frame :: rest) w →
    offered? w.store frame rest = some n → w.store.Spans [root.object] all →
    w.store.Spans [.node n] below → ∀ o ∈ all, o ∉ below → Same w.store ((action n).run w).2.store o

variable {action : NodeId → Effect ε σ Reply} {root : Root} {w₀ w w₁ : World σ}
  {stack stack₁ : List Frame} {calls : List (Call σ)}

theorem Reached.trans {n : Nat} (h : Reached action root w₀ stack w)
    (course : Reaches ⟨action, ignore⟩ n stack w calls stack₁ w₁) : Reached action root w₀ stack₁ w₁ := by
  obtain ⟨m, earlier, before⟩ := h
  exact ⟨m + n, earlier ++ calls, before.trans course⟩

/-- What holds in the beginning and is kept by every step holds wherever a walk comes. -/
theorem Reached.invariant (holds : List Frame → World σ → Prop) (start : holds [.ofRoot root] w₀)
    (kept : ∀ frame rest w stack w', holds (frame :: rest) w →
      step ⟨action, ignore⟩ frame rest w = (.ok stack, w') → holds stack w')
    (h : Reached action root w₀ stack w) : holds stack w := by
  obtain ⟨n, calls, course⟩ := h
  generalize [Frame.ofRoot root] = first at course start
  induction course with
  | refl => exact start
  | step first _ ih => exact ih (kept _ _ _ _ _ start first)

end Walk

end DocTree
