import DocTree.Proofs.Filter.InTurn
import DocTree.Proofs.Store.Without
import DocTree.Proofs.Walk.Completion
import DocTree.Proofs.Walk.Values
/-!
Walks that delete the nodes of some kinds and keep all others. Every step takes nothing but such nodes out of
the containers of the tree, and at the end there are none: what is left of each container is what was in it,
without those nodes.
-/

namespace DocTree.Walk

open Store (Object Same SameElements Exchanged Left)

variable {ε σ : Type}

/-- An action that edits nothing, deletes the nodes of some kinds and keeps all others. -/
structure Deleting (kinds : List Kind) (action : NodeId → Effect ε σ Reply) : Prop where
  still : ∀ n w, ((action n).run w).2.store = w.store
  answers : ∀ n w, w.store.Elemental n → ∃ ns w₁, Gives action n w ns w₁
  gives : ∀ n w ns w₁, Gives action n w ns w₁ → ns = if w.store.spares kinds n then [n] else []

section

variable {kinds : List Kind} {action : NodeId → Effect ε σ Reply} {root : Root} {w₀ w w' : World σ}
  {frame : Frame} {rest stack : List Frame} {s s' : Store}

theorem Deleting.selects (deleting : Deleting kinds action) (root : Root) (w₀ : World σ) :
    Selects action root w₀ where
  still := fun _ _ w n _ _ => deleting.still n w
  picks := by
    intro frame rest w n ns w₁ below _ _ gives spans _
    rw [deleting.gives n w ns w₁ gives]
    split
    · simpa using spans.mem (List.mem_singleton_self _)
    · simp

/-- A tree from which nodes of some kinds have been taken, but perhaps not all of them. -/
structure Thinned (kinds : List Kind) (root : Root) (s s' : Store) : Prop where
  elements : SameElements s s'
  tree : ∃ all all', s.Spans [root.object] all ∧ s'.Spans [root.object] all' ∧ all' ⊆ all ∧
    ∀ o ∈ all', Same (s.without kinds) (s'.without kinds) o

theorem Deleting.thinned_step (deleting : Deleting kinds action) (thinned : Thinned kinds root s w.store)
    (reached : Reached action root w₀ (frame :: rest) w) (stepped : Stepped action root frame rest w w')
    (elements : SameElements w.store w'.store) : Thinned kinds root s w'.store := by
  obtain ⟨all, all₁, spans, spans₁, within, same⟩ := thinned.tree
  obtain ⟨all₁', all', spans₁', spans', fewer, _⟩ := (deleting.selects root w₀).step_fewer reached stepped
  obtain rfl := spans₁'.unique spans₁
  refine ⟨thinned.elements.trans elements, all, all', spans, spans', fun o member => within (fewer member),
    fun o member => (same o (fewer member)).trans ?_⟩
  have member := fewer member
  cases stepped with
  | same whole _ kept =>
    obtain rfl := whole.unique spans₁
    exact (kept o member).without elements
  | @grafted container n ns w₁ before below given after whole _ _ _ _ gives still _ exchanged _ _ edits =>
    obtain rfl := whole.unique spans₁
    by_cases here : o = container
    · exact here ▸ exchanged.without elements (deleting.gives n w ns w₁ gives)
    · exact ((still o member).trans (edits o here)).without elements

theorem Deleting.thinned (deleting : Deleting kinds action) (unshared : w₀.store.Unshared root)
    (reached : Reached action root w₀ stack w) : Thinned kinds root w₀.store w.store := by
  have grafts := (deleting.selects root w₀).grafts
  obtain ⟨all, spans, nodup⟩ := unshared
  have start : Thinned kinds root w₀.store w₀.store :=
    ⟨.refl _, all, all, spans, spans, List.Subset.refl _, fun o _ => .refl _ o⟩
  refine (grafts.invariant (P := fun w => Thinned kinds root w₀.store w.store) ⟨all, spans, nodup⟩ start ?_
    reached).2
  intro frame rest w stack w' reached thinned first stepped
  -- Neither the action nor what a step does with its answer edits an element.
  have elements := step_keeps (P := fun s => SameElements w.store s) (fun same before => before.trans same)
    (fun n w before => by rwa [deleting.still n w]) frame rest (.refl _)
  rw [first] at elements
  exact deleting.thinned_step thinned reached stepped elements

theorem Deleting.completes (deleting : Deleting kinds action) (unshared : w.store.Unshared root)
    (typed : w.store.Typed root) : ∃ w', Completes action root w w' := by
  have selects := deleting.selects root w
  refine selects.lessens.lightens.completes (selects.tame unshared) ?_
  intro frame rest w₁ n reached within next
  obtain ⟨all, spans, member, _⟩ := within.offered next
  have typed₁ := ((deleting.selects root w).fewer unshared reached).typed typed
  obtain ⟨ns, w₂, gives⟩ := deleting.answers n w₁ (typed₁.elemental spans member)
  refine ⟨ns, w₂, gives, fun _ _ _ _ => ?_⟩
  rw [deleting.gives n w₁ ns w₂ gives]
  split <;> simp

def deletions (kinds : List Kind) (n : Node) (ns : List Node) : Prop :=
  ns = if n.element.kind ∈ kinds then [] else [n]

theorem Deleting.answering (deleting : Deleting kinds action) (unshared : w.store.Unshared root)
    (typed : w.store.Typed root) : Answers (deletions kinds) action root w where
  tame := (deleting.selects root w).tame unshared
  typed := fun _ _ reached => ((deleting.selects root w).fewer unshared reached).typed typed
  given := by
    intro frame rest w₁ n ns w₂ all _ _ _ _ gives
    have still := deleting.still n w₁
    rw [gives.world] at still
    rw [deletions, deleting.gives n w₁ ns w₂ gives, still, Store.kind_node]
    by_cases isKind : (w₁.store.element n).kind ∈ kinds <;> simp [Store.spares, isKind]

/-- What a walk that deletes leaves of a tree. -/
theorem Deleting.left (deleting : Deleting kinds action) (unshared : w.store.Unshared root)
    (typed : w.store.Typed root) (completes : Completes action root w w') : Left kinds root w.store w'.store := by
  have thinned := deleting.thinned unshared completes.reached
  have unshared' := ((deleting.selects root w).tame unshared).unshared _ _ completes.reached
  obtain ⟨all, all', spans, spans', within, same⟩ := thinned.tree
  obtain ⟨bound, ended⟩ := completes
  have rewritten := (deleting.answering unshared typed).tree (ended bound (Nat.le_refl _))
  have spared : ∀ n ns, deletions kinds n ns → ∀ m ∈ ns, m.element.kind ∉ kinds := by
    intro n ns answer m member
    rw [answer] at member
    split at member
    · cases member
    · next spared => exact List.mem_singleton.mp member ▸ spared
  have none : ∀ m, w'.store.Holds root m → w'.store.spares kinds m = true := by
    intro m held
    obtain ⟨x, inTree, kind⟩ := held.occurs spans'.acyclic
    have found := rewritten.holds spared (fun e spared => by simpa [Node.element] using spared) inTree
    exact Store.spares_iff.mpr (kind ▸ found)
  obtain ⟨all₁, spans₁, nodup₁⟩ := unshared'
  obtain rfl := spans₁.unique spans'
  obtain ⟨whole, whole_spans, nodup⟩ := unshared
  obtain rfl := whole_spans.unique spans
  refine ⟨thinned.elements, _, _, spans, nodup, spans', nodup₁, within, fun o member => ?_⟩
  exact (same o member).trans
    (Store.same_without fun c part => none c (spans'.part_held nodup₁ member part))

end

end DocTree.Walk
