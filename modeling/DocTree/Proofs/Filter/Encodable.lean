import DocTree.Proofs.Codec.Leaks
import DocTree.Proofs.Filter.Passes
import DocTree.Proofs.Walk.Insertion
import DocTree.Version.Range
/-!
Trees can be written unless there is a document below the root. Trees that are read have none, and
filters whose actions bring none into the tree leave it so, whether or not they come to their end.
-/

namespace DocTree

variable {ε σ : Type}

namespace Filter

/-- Every pass begins in a world from which the walk of its handler brings no document into the tree. -/
def InsertsInner (fuel : Nat) (f : Filter (Action ε σ)) (root : Root) (format : Json)
    (metadata : Option MappingId) (w : World σ) : Prop :=
  ∀ before handler after w', f.handlers = before ++ handler :: after →
    apply fuel ⟨before⟩ root format metadata w = (.ok (), w') →
    Walk.InsertsInner (handler.perform (occasionOf root format metadata w)) root w'

theorem prepared_proper {root : Root} {w : World σ} (metadata : Option MappingId)
    (proper : w.store.Proper root) : (prepared root metadata w).2.store.Proper root := by
  have grown : (w.store.newMapping []).2.Proper root := by
    have placed : Store.Placed [] w.store (w.store.newMapping []).2 := Store.placed_newMapping w.store
    refine placed.proper (by simp) (fun n atTop => ?_) proper
    have before : n ∈ w.store.top root := (placed.top atTop).resolve_right List.not_mem_nil
    refine (proper.acyclic n before).fewer fun x m child => ?_
    exact (placed.children child).resolve_right List.not_mem_nil
  cases metadata with
  | some id => exact proper
  | none =>
    rw [prepared]
    dsimp only
    unfold metadataOf
    cases root with
    | list id => exact grown
    | node id =>
      dsimp only
      split
      · exact proper
      · exact grown

theorem passes_proper {fuel : Nat} {occasion : Occasion} {root : Root}
    {handlers : List (Handler (Action ε σ))} {w : World σ} (number : Nat) (proper : w.store.Proper root)
    (inner : ∀ before handler after w', handlers = before ++ handler :: after →
      passes fuel occasion root number before w = (.ok (), w') →
      Walk.InsertsInner (handler.perform occasion) root w') :
    (passes fuel occasion root number handlers w).2.store.Proper root := by
  induction handlers generalizing number w with
  | nil => exact proper
  | cons handler rest ih =>
    have walked := (inner [] handler rest w rfl rfl).transform proper fuel
    rw [passes]
    cases pass : Walk.transform fuel (handler.perform occasion) root w with
    | mk result w₁ =>
      rw [pass] at walked
      cases result with
      | error halt => exact walked
      | ok =>
        refine ih (number + 1) walked ?_
        intro before later after w' eq passed
        exact inner (handler :: before) later after w' (by rw [eq]; rfl)
          ((passes_cons_of_ok pass).trans passed)

theorem InsertsInner.apply {fuel : Nat} {f : Filter (Action ε σ)} {root : Root} {format : Json}
    {metadata : Option MappingId} {w : World σ} (inner : InsertsInner fuel f root format metadata w)
    (proper : w.store.Proper root) : (f.apply fuel root format metadata w).2.store.Proper root := by
  rw [apply_eq]
  refine passes_proper 1 (prepared_proper metadata proper) ?_
  intro before handler after w' eq passed
  refine inner before handler after w' eq ?_
  rw [apply_eq]
  exact passed

/-- What keeps a finite tree of elements from being written is a document below the root, and nothing
else. There is none in a tree that is read, and none comes into it by a walk or a filter whose actions
insert and return nodes without documents and leave the tree without a cycle. So what such a run leaves
can be written, where it ends by itself and where it fails. -/
theorem only_inner_documents_not_written [Versioning] :
    (∀ t : Tree, t.Named → (Codec.encode t = .error .innerDocument ↔
      ∃ m, t.Holds m ∧ m.element.kind = .document)) ∧
    (∀ (s : Store) (root : Root), s.Acyclic root → s.Typed root →
      (Codec.encode (s.tree root) = .error .innerDocument ↔
        ∃ m, s.Holds root m ∧ (s.element m).kind = .document) ∧
      (Codec.encode (s.tree root) ≠ .error .innerDocument →
        ∃ j, Codec.encode (s.tree root) = .ok j)) ∧
    Codec.EncodeFault.innerDocument.message = "Unknown node type for serialization: Document" ∧
    (∀ (options : Options) (j : Json) (t : Tree), Codec.decode options j = .ok t →
      (∀ m, t.Holds m → m.element.kind ≠ .document) ∧
      ∀ s, (Store.loadTree t s).2.tree (Store.loadTree t s).1 = t ∧
        (Store.loadTree t s).2.Proper (Store.loadTree t s).1) ∧
    (∀ {ε σ : Type} (action : NodeId → Effect ε σ Reply) (root : Root) (w : World σ),
      w.store.Proper root → Walk.InsertsInner action root w →
      ∀ fuel result w', Walk.transform fuel action root w = (result, w') →
        w'.store.Proper root ∧ ∃ j, Codec.encode (w'.store.tree root) = .ok j) ∧
    ∀ {ε σ : Type} (f : Filter (Action ε σ)) (root : Root) (format : Json)
      (metadata : Option MappingId) (w : World σ) (fuel : Nat),
      w.store.Proper root → InsertsInner fuel f root format metadata w →
      ∀ result w', f.apply fuel root format metadata w = (result, w') →
        w'.store.Proper root ∧ ∃ j, Codec.encode (w'.store.tree root) = .ok j := by
  refine ⟨fun t named => Codec.encode_error_iff named, ?_, rfl, ?_, ?_, ?_⟩
  · intro s root acyclic typed
    refine ⟨Store.encode_tree_error_iff acyclic typed, fun notFailed => ?_⟩
    exact (Codec.encode_settled (Store.named_tree acyclic typed)).resolve_left notFailed
  · intro options j t isRead
    have ended := Codec.decode_ends options j
    rw [isRead] at ended
    have proper : t.Proper := ended
    refine ⟨(t.proper_iff_holds.mp proper).2, fun s => ?_⟩
    exact ⟨(Store.loadTree_read proper s (.refl _)).1, Store.loadTree_proper proper s⟩
  · intro ε σ action root w proper inner fuel result w' walked
    have kept := inner.transform proper fuel
    rw [walked] at kept
    exact ⟨kept, kept.encodes⟩
  · intro ε σ f root format metadata w fuel proper inner result w' applied
    have kept := inner.apply proper
    rw [applied] at kept
    exact ⟨kept, kept.encodes⟩

/-! A division with a document in it, and a word to which a mark is added: first in the emphasis around
it, then in its own place, and then the action fails. -/

def nested : Store :=
  .ofElements [.text .str "a", .document [1, 23] ⟨0⟩ ⟨0⟩, .box .div .none ⟨1⟩] [[⟨0⟩, ⟨0⟩], [⟨1⟩]] [[]]

def shouted (content : List NodeId) : Store :=
  .ofElements [.text .str "a", .text .str "!", .wrap .emph ⟨0⟩] [content, [⟨2⟩]] []

def shout (n : NodeId) : Effect Unit Nat Reply :=
  .ofFunction fun w =>
    if n = ⟨2⟩ then (.ok .keep, ⟨w.store.setSequence ⟨0⟩ [⟨0⟩, ⟨1⟩], w.state + 1⟩)
    else if n = ⟨0⟩ then (.ok (.several [.node ⟨1⟩, .node ⟨0⟩]), ⟨w.store, w.state + 1⟩)
    else (.error (.own ()), ⟨w.store, w.state + 1⟩)

/-- The course of the walk that adds the marks, up to the failure. -/
def shouts : List (List Walk.Frame × World Nat) :=
  let outer (index : Nat) (settled : List NodeId) : Walk.Frame :=
    ⟨[], some (.sequence ⟨1⟩ index settled)⟩
  let inner (index : Nat) (settled : List NodeId) : Walk.Frame :=
    ⟨[.containers []], some (.sequence ⟨0⟩ index settled)⟩
  let first := shouted [⟨0⟩, ⟨1⟩]
  let last := shouted [⟨1⟩, ⟨0⟩, ⟨1⟩]
  [([outer 0 []], ⟨shouted [⟨0⟩], 0⟩), ([outer 1 [⟨2⟩]], ⟨first, 1⟩),
    ([.below ⟨2⟩, outer 1 []], ⟨first, 1⟩), ([inner 0 [], outer 1 []], ⟨first, 1⟩),
    ([inner 2 [⟨1⟩, ⟨0⟩], outer 1 []], ⟨last, 2⟩), ([.below ⟨1⟩, inner 2 [⟨0⟩], outer 1 []], ⟨last, 2⟩),
    ([inner 2 [⟨0⟩], outer 1 []], ⟨last, 2⟩), ([.below ⟨0⟩, inner 2 [], outer 1 []], ⟨last, 2⟩),
    ([inner 2 [], outer 1 []], ⟨last, 2⟩)]

theorem shout_reached {stack : List Walk.Frame} {w : World Nat}
    (h : Walk.Reached shout (.list ⟨1⟩) ⟨shouted [⟨0⟩], 0⟩ stack w) : (stack, w) ∈ shouts := by
  refine h.invariant (fun stack w => (stack, w) ∈ shouts) (by simp [shouts, Walk.Frame.ofRoot]) ?_
  intro frame rest w stack w' here first
  simp only [shouts, List.mem_cons, List.not_mem_nil, or_false, Prod.mk.injEq, List.cons.injEq] at here
  rcases here with ⟨⟨rfl, rfl⟩, rfl⟩ | ⟨⟨rfl, rfl⟩, rfl⟩ | ⟨⟨rfl, rfl⟩, rfl⟩ | ⟨⟨rfl, rfl⟩, rfl⟩ |
    ⟨⟨rfl, rfl⟩, rfl⟩ | ⟨⟨rfl, rfl⟩, rfl⟩ | ⟨⟨rfl, rfl⟩, rfl⟩ | ⟨⟨rfl, rfl⟩, rfl⟩ | ⟨⟨rfl, rfl⟩, rfl⟩
  · cases first
    exact List.mem_of_getElem? (i := 1) rfl
  · cases first
    exact List.mem_of_getElem? (i := 2) rfl
  · cases first
    exact List.mem_of_getElem? (i := 3) rfl
  · cases first
    exact List.mem_of_getElem? (i := 4) rfl
  · cases first
    exact List.mem_of_getElem? (i := 5) rfl
  · cases first
    exact List.mem_of_getElem? (i := 6) rfl
  · cases first
    exact List.mem_of_getElem? (i := 7) rfl
  · cases first
    exact List.mem_of_getElem? (i := 8) rfl
  · cases first

theorem shouted_kinds (content : List NodeId) (n : NodeId) : (shouted content).Inner n := by
  obtain ⟨_ | _ | _ | i⟩ := n <;> exact ⟨Kind.noConfusion, Kind.noConfusion⟩

theorem shouted_inner (content : List NodeId) (words : ∀ m ∈ content, m.index < 2) (n : NodeId) :
    (shouted content).AllBelow (shouted content).Inner n := by
  have older : ∀ i < (shouted content).records.size, ∀ m ∈ (shouted content).children ⟨i⟩, m.index < i := by
    intro i known m child
    rcases i with _ | _ | _ | i
    · exact absurd child List.not_mem_nil
    · exact absurd child List.not_mem_nil
    · have element : (shouted content).element ⟨2⟩ = .wrap .emph ⟨0⟩ := rfl
      rw [Store.children, element] at child
      exact words m (by simpa [Store.members, Store.sequence, shouted, Store.ofElements, Element.slots] using child)
    · exact absurd known (Nat.not_lt.mpr (Nat.le_add_left 3 i))
  exact (Store.finite_of_older older).allBelow fun _ m _ => shouted_kinds content m

theorem shouted_proper (content : List NodeId) (words : ∀ m ∈ content, m.index < 2) :
    (shouted content).Proper (.list ⟨1⟩) :=
  Store.proper_of_allBelow nofun fun n _ => shouted_inner content words n

theorem shout_edits (content : List NodeId) (words : ∀ m ∈ content, m.index < 2) (s : Store)
    (same : Store.SameElements (shouted content) s) :
    s.Edited (.list ⟨1⟩) (shouted content) where
  acyclic n _ := (shouted_inner content words n).finite
  named := nofun
  kept n _ inner := by
    rw [Store.Inner, same.element n] at inner
    exact inner
  top m _ := .inr (shouted_inner content words m)
  below n _ m _ := .inr (shouted_inner content words m)

theorem shout_inserts : Walk.InsertsInner shout (.list ⟨1⟩) ⟨shouted [⟨0⟩], 0⟩ where
  acyclic := by
    intro stack w h
    have content : ∃ content : List NodeId, (∀ m ∈ content, m.index < 2) ∧ w.store = shouted content := by
      have here := shout_reached h
      simp only [shouts, List.mem_cons, List.not_mem_nil, or_false, Prod.mk.injEq] at here
      rcases here with ⟨_, rfl⟩ | ⟨_, rfl⟩ | ⟨_, rfl⟩ | ⟨_, rfl⟩ | ⟨_, rfl⟩ | ⟨_, rfl⟩ | ⟨_, rfl⟩ |
        ⟨_, rfl⟩ | ⟨_, rfl⟩ <;> exact ⟨_, by decide, rfl⟩
    obtain ⟨content, words, eq⟩ := content
    rw [eq]
    exact (shouted_proper content words).acyclic
  inserts := by
    intro frame rest w n h next
    have here := shout_reached h
    simp only [shouts, List.mem_cons, List.not_mem_nil, or_false, Prod.mk.injEq, List.cons.injEq] at here
    rcases here with ⟨⟨rfl, rfl⟩, rfl⟩ | ⟨⟨rfl, rfl⟩, rfl⟩ | ⟨⟨rfl, rfl⟩, rfl⟩ | ⟨⟨rfl, rfl⟩, rfl⟩ |
      ⟨⟨rfl, rfl⟩, rfl⟩ | ⟨⟨rfl, rfl⟩, rfl⟩ | ⟨⟨rfl, rfl⟩, rfl⟩ | ⟨⟨rfl, rfl⟩, rfl⟩ | ⟨⟨rfl, rfl⟩, rfl⟩
    all_goals cases next
    · exact shout_edits [⟨0⟩, ⟨1⟩] (by decide) _ ⟨rfl, rfl⟩
    · exact shout_edits [⟨0⟩, ⟨1⟩] (by decide) _ ⟨rfl, rfl⟩
    · exact shout_edits [⟨1⟩, ⟨0⟩, ⟨1⟩] (by decide) _ ⟨rfl, rfl⟩
  returns := by
    intro frame rest w n reply w' ns h next answer usable
    have here := shout_reached h
    simp only [shouts, List.mem_cons, List.not_mem_nil, or_false, Prod.mk.injEq, List.cons.injEq] at here
    rcases here with ⟨⟨rfl, rfl⟩, rfl⟩ | ⟨⟨rfl, rfl⟩, rfl⟩ | ⟨⟨rfl, rfl⟩, rfl⟩ | ⟨⟨rfl, rfl⟩, rfl⟩ |
      ⟨⟨rfl, rfl⟩, rfl⟩ | ⟨⟨rfl, rfl⟩, rfl⟩ | ⟨⟨rfl, rfl⟩, rfl⟩ | ⟨⟨rfl, rfl⟩, rfl⟩ | ⟨⟨rfl, rfl⟩, rfl⟩
    all_goals cases next
    · cases answer
      cases usable
    · cases answer
      intro m _
      exact shouted_inner [⟨0⟩, ⟨1⟩] (by decide) m
    · cases answer

theorem nested_typed : nested.Typed (.node ⟨2⟩) := by
  have named : ∀ n, (nested.element n).kind ≠ .list := by
    rintro ⟨_ | _ | _ | i⟩ <;> exact Kind.noConfusion
  exact ⟨fun id _ => named id, fun m _ => named m⟩

attribute [local instance] Versioning.ofClauses in
theorem shouted_half_written :
    (nested.Acyclic (.node ⟨2⟩) ∧ nested.Typed (.node ⟨2⟩) ∧
      Codec.encode (nested.tree (.node ⟨2⟩)) = .error .innerDocument) ∧
    (Codec.decode .default (.arr [.obj [("t", .str "Str"), ("c", .str "a")]]) =
        .ok (.list [.mk (.text .str "a")]) ∧
      ∀ m, (Tree.list [.mk (.text .str "a")]).Holds m → m.element.kind ≠ .document) ∧
    ((shouted [⟨0⟩]).Proper (.list ⟨1⟩) ∧
      Walk.InsertsInner shout (.list ⟨1⟩) ⟨shouted [⟨0⟩], 0⟩ ∧
      Walk.transform 20 shout (.list ⟨1⟩) ⟨shouted [⟨0⟩], 0⟩ =
        (.error (.raised (.own ())), ⟨shouted [⟨1⟩, ⟨0⟩, ⟨1⟩], 3⟩) ∧
      ∃ j, Codec.encode ((shouted [⟨1⟩, ⟨0⟩, ⟨1⟩]).tree (.list ⟨1⟩)) = .ok j) ∧
    InsertsInner 20 ⟨[.plain ⟨"shout", "function", fun _ => shout⟩]⟩ (.list ⟨1⟩) .null (some ⟨0⟩)
      ⟨shouted [⟨0⟩], 0⟩ ∧
    apply 20 ⟨[.plain ⟨"shout", "function", fun _ => shout⟩]⟩ (.list ⟨1⟩) .null (some ⟨0⟩)
        ⟨shouted [⟨0⟩], 0⟩ = (.error ⟨1, .raised (.own ())⟩, ⟨shouted [⟨1⟩, ⟨0⟩, ⟨1⟩], 3⟩) ∧
    (shouted [⟨1⟩, ⟨0⟩, ⟨1⟩]).Proper (.list ⟨1⟩) := by
  obtain ⟨-, onStores, -, onReading, onWalks, onFilters⟩ := only_inner_documents_not_written
  have acyclic : nested.Acyclic (.node ⟨2⟩) := fun n _ => Store.finite_of_older (by decide)
  have isDocument : nested.Holds (.node ⟨2⟩) ⟨1⟩ := .of_top (List.mem_singleton_self _)
  have proper := shouted_proper [⟨0⟩] (by decide)
  have filtered : InsertsInner 20 ⟨[.plain ⟨"shout", "function", fun _ => shout⟩]⟩ (.list ⟨1⟩) .null
      (some ⟨0⟩) ⟨shouted [⟨0⟩], 0⟩ := by
    intro before handler after w' eq applied
    cases before with
    | nil =>
      cases eq
      cases applied
      exact shout_inserts
    | cons _ before =>
      have none : [] = before ++ handler :: after := (List.cons.inj eq).2
      exact absurd none.symm (by simp)
  have isRead : Codec.decode .default (.arr [.obj [("t", .str "Str"), ("c", .str "a")]]) =
      .ok (.list [.mk (.text .str "a")]) := rfl
  refine ⟨⟨acyclic, nested_typed, ?_⟩, ⟨isRead, ?_⟩, ⟨proper, shout_inserts, rfl, ?_⟩, filtered, rfl, ?_⟩
  · exact (onStores nested (.node ⟨2⟩) acyclic nested_typed).1.mpr ⟨⟨1⟩, isDocument, rfl⟩
  · exact (onReading .default _ _ isRead).1
  · exact (onWalks shout (.list ⟨1⟩) ⟨shouted [⟨0⟩], 0⟩ proper shout_inserts 20 _ _ rfl).2
  · exact (onFilters _ (.list ⟨1⟩) .null (some ⟨0⟩) ⟨shouted [⟨0⟩], 0⟩ 20 proper filtered _ _ rfl).1

end Filter

end DocTree
