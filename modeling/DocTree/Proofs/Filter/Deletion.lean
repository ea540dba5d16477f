import DocTree.Proofs.Filter.KeepingText
import DocTree.Proofs.Filter.Key
import DocTree.Proofs.Walk.Deletion
/-!
Filters that delete all nodes of some kinds. What they leave of a tree depends on nothing but the kinds: not
on the order in which they are deleted, nor on how often.
-/

namespace DocTree

variable {ε σ : Type}

open Store (Left SameTree)

/-- A handler that answers nothing but the empty list. It may still change its state. -/
def Handler.Drops (h : Handler (Action ε σ)) : Prop :=
  ∀ n w, ∃ st, (h.performAlone n).run w = (.ok (.several []), ⟨w.store, st⟩)

theorem Handler.Drops.deleting {h : Handler (Action ε σ)} (drops : h.Drops) {kinds : List Kind}
    (some : kinds ≠ []) (occasion : Occasion) :
    Walk.Deleting kinds ((Handler.bound (keyOf kinds) h).perform occasion) := by
  -- What is answered for an element, and that a list in its place has no answer that can be used.
  have answer : ∀ n (w : World σ), w.store.Elemental n → ∃ st,
      ((Handler.bound (keyOf kinds) h).perform occasion n).run w =
        (.ok (if w.store.spares kinds n then .keep else .several []), ⟨w.store, st⟩) := by
    intro n w named
    rw [Handler.run_bound_eq, if_neg named, Element.name, contains_keyOf some]
    by_cases isKind : (w.store.element n).kind ∈ kinds
    · obtain ⟨st, dropped⟩ := drops n w
      refine ⟨st, ?_⟩
      simpa [Store.spares, isKind] using dropped
    · refine ⟨w.state, ?_⟩
      simp [Store.spares, isKind]
      rfl
  have unusable : ∀ n (w : World σ), ¬ w.store.Elemental n →
      ((Handler.bound (keyOf kinds) h).perform occasion n).run w = (.ok .nameless, w) := by
    intro n w isList
    rw [Handler.run_bound_eq, if_pos (not_not.mp isList)]
    rfl
  refine ⟨fun n w => ?_, fun n w named => ?_, fun n w ns w₁ gives => ?_⟩
  · by_cases named : w.store.Elemental n
    · obtain ⟨st, answered⟩ := answer n w named
      rw [answered]
    · rw [unusable n w named]
  · obtain ⟨st, answered⟩ := answer n w named
    by_cases spared : w.store.spares kinds n = true
    · exact ⟨[n], _, .keep, none, by rw [answered, if_pos spared], rfl, rfl⟩
    · exact ⟨[], _, .several [], .some [], by rw [answered, if_neg spared], rfl, rfl⟩
  · obtain ⟨reply, given, answered', usable, rfl⟩ := gives
    by_cases named : w.store.Elemental n
    · obtain ⟨st, answered⟩ := answer n w named
      rw [answered] at answered'
      cases answered'
      by_cases spared : w.store.spares kinds n = true
      · rw [if_pos spared] at usable ⊢
        cases usable
        rfl
      · rw [if_neg spared] at usable ⊢
        cases usable
        rfl
    · rw [unusable n w named] at answered'
      cases answered'
      cases usable

namespace Filter

/-- An application comes to its end in some world, with any fuel from some amount on. -/
def Completes (f : Filter (Action ε σ)) (root : Root) (format : Json) (metadata : Option MappingId)
    (w w' : World σ) : Prop :=
  ∃ bound, ∀ fuel, bound ≤ fuel → f.apply fuel root format metadata w = (.ok (), w')

inductive Series (occasion : Occasion) (root : Root) : List (Handler (Action ε σ)) → World σ → World σ → Prop
  | done {w : World σ} : Series occasion root [] w w
  | pass {h : Handler (Action ε σ)} {rest : List (Handler (Action ε σ))} {w w₁ w' : World σ}
      (walked : Walk.Completes (h.perform occasion) root w w₁) (later : Series occasion root rest w₁ w') :
      Series occasion root (h :: rest) w w'

theorem Series.passes {occasion : Occasion} {root : Root} {handlers : List (Handler (Action ε σ))} {w w' : World σ}
    (series : Series occasion root handlers w w') (number : Nat) : ∃ bound, ∀ fuel, bound ≤ fuel →
      Filter.passes fuel occasion root number handlers w = (.ok (), w') := by
  induction series generalizing number with
  | done => exact ⟨0, fun _ _ => rfl⟩
  | pass walked _ ih =>
    obtain ⟨bound, ended⟩ := walked
    obtain ⟨bound', ended'⟩ := ih (number + 1)
    refine ⟨max bound bound', fun fuel enough => ?_⟩
    rw [Filter.passes, ended fuel (by omega)]
    exact ended' fuel (by omega)

theorem Completes.of_series {f : Filter (Action ε σ)} {root : Root} {format : Json} {metadata : Option MappingId}
    {w w' : World σ}
    (series : Series (occasionOf root format metadata w) root f.handlers (prepared root metadata w).2 w') :
    f.Completes root format metadata w w' := by
  obtain ⟨bound, ended⟩ := series.passes 1
  exact ⟨bound, fun fuel enough => (apply_eq ..).trans (ended fuel enough)⟩

def bound (kinds : List Kind) (h : Handler (Action ε σ)) : Filter (Action ε σ) := ⟨[.bound (keyOf kinds) h]⟩

section

variable {kinds : List Kind} {h : Handler (Action ε σ)} {root : Root} {w w' : World σ}

theorem completes_of_single {handler : Handler (Action ε σ)} {format : Json} {metadata : Option MappingId}
    (walked : Walk.Completes (handler.perform (occasionOf root format metadata w)) root
      (prepared root metadata w).2 w') : Completes ⟨[handler]⟩ root format metadata w w' :=
  .of_series (.pass walked .done)

theorem prepared_elements (root : Root) (metadata : Option MappingId) (w : World σ) :
    Store.SameElements w.store (prepared root metadata w).2.store := by
  cases metadata with
  | some id => exact .refl _
  | none =>
    rw [prepared]
    dsimp only
    unfold metadataOf
    cases root with
    | list id => exact ⟨rfl, rfl⟩
    | node id =>
      dsimp only
      split <;> exact ⟨rfl, rfl⟩

theorem bound_deletes (some : kinds ≠ []) (drops : h.Drops) (unshared : w.store.Unshared root)
    (typed : w.store.Typed root) (format : Json) (metadata : Option MappingId) :
    ∃ w', (bound kinds h).Completes root format metadata w w' ∧ Left kinds root w.store w'.store := by
  have same := prepared_same root metadata w
  have elements := prepared_elements root metadata w
  obtain ⟨all, spans, nodup⟩ := unshared
  have spans' := spans.agree fun o _ => same o
  have unshared' : (prepared root metadata w).2.store.Unshared root := ⟨all, spans', nodup⟩
  have typed' := typed.of_nodes spans spans' fun m member => ⟨member, (same (.node m)).element⟩
  have deleting := drops.deleting some (occasionOf root format metadata w)
  obtain ⟨w', walked⟩ := deleting.completes unshared' typed'
  exact ⟨w', completes_of_single walked, (deleting.left unshared' typed' walked).of_same elements same⟩

theorem ofEntries_single {key function : Value (Action ε σ)} {handler : Handler (Action ε σ)}
    {warnings : List Text} (made : ((Filter.bind key function).run warnings).1 = .ok handler) :
    ((ofEntries [(key, function)]).run warnings).1 = .ok ⟨[handler]⟩ := by
  have single : ofEntries [(key, function)] = (fun h => ⟨[h]⟩) <$> Filter.bind key function := by
    simp [ofEntries]
  have mapped : (((fun h => ⟨[h]⟩ : _ → Filter (Action ε σ)) <$> Filter.bind key function).run warnings).1 =
      ((Filter.bind key function).run warnings).1.map fun h => ⟨[h]⟩ := by
    rw [ExceptT.run_map]
    rfl
  rw [single, mapped, made]
  rfl

open Classical in
/-- What is left of a tree is listed as before, without the nodes of the kinds and all that was below them. -/
theorem Left.listing {s s' : Store} (left : Left kinds root s s') : ∃ bound, ∀ fuel, bound ≤ fuel →
    Walk.listing fuel s' root = (Walk.listing fuel s root).filter fun (n, _) => ¬ s.Doomed kinds root n := by
  obtain ⟨all, all', spans, _, spans', _⟩ := left.tree
  obtain ⟨listed, before, bound₁, lists⟩ := Walk.listing_eq spans
  obtain ⟨listed', after, bound₂, lists'⟩ := Walk.listing_eq spans'
  refine ⟨max bound₁ bound₂, fun fuel enough => ?_⟩
  rw [lists fuel (by omega), lists' fuel (by omega)]
  exact after.unique (left.listed before)

open Classical in
/-- A filter of one action that answers nothing but the empty list, bound to some kinds, deletes exactly the
nodes of these kinds below the root, with all that is below them. Every other node is listed as before and is
the same element, and each container of the tree has lost its members of these kinds and nothing else. To
delete once more changes nothing, and kinds can be deleted in either order or all in one pass. -/
theorem deletes_by_kind (some : kinds ≠ []) (drops : h.Drops) (unshared : w.store.Unshared root)
    (typed : w.store.Typed root) (format : Json) (metadata : Option MappingId) :
    (∀ (function : Value (Action ε σ)) (warnings : List Text), function.callable? = .some h →
      ((ofEntries [(.text (keyOf kinds), function)]).run warnings).1 = .ok (bound kinds h)) ∧
    ∃ w', (bound kinds h).Completes root format metadata w w' ∧
      (∃ bound, ∀ fuel, bound ≤ fuel → Walk.listing fuel w'.store root =
        (Walk.listing fuel w.store root).filter fun (n, _) => ¬ w.store.Doomed kinds root n) ∧
      (∀ n, w'.store.element n = w.store.element n) ∧
      (∃ all, w'.store.Spans [root.object] all ∧ all.Nodup ∧
        (∀ q, .sequence q ∈ all →
          w'.store.sequence q = (w.store.sequence q).filter fun n => (w.store.element n).kind ∉ kinds) ∧
        ∀ id, .mapping id ∈ all → w'.store.mapping id =
          (w.store.mapping id).filter fun (_, n) => (w.store.element n).kind ∉ kinds) ∧
      (∃ w'', (bound kinds h).Completes root format metadata w' w'' ∧
        SameTree root w'.store w''.store) ∧
      ∀ (others both : List Kind) (g g' : Handler (Action ε σ)), others ≠ [] → g.Drops → g'.Drops →
        (∀ kind, kind ∈ both ↔ kind ∈ kinds ∨ kind ∈ others) →
        ∃ first second once other, (bound others g).Completes root format metadata w' first ∧
          (bound others g).Completes root format metadata w other ∧
          (bound kinds h).Completes root format metadata other second ∧
          (bound both g').Completes root format metadata w once ∧
          SameTree root first.store second.store ∧ SameTree root first.store once.store := by
  obtain ⟨w', completes, left⟩ := bound_deletes some drops unshared typed format metadata
  refine ⟨fun function warnings callable => ofEntries_single (bind_keyOf some callable warnings), w', completes,
    Left.listing left, left.element, ?_, ?_, ?_⟩
  · obtain ⟨_, all, _, _, spans, nodup, _, same⟩ := left.tree
    exact ⟨all, spans, nodup, fun q member => Eq.trans (same _ member) (Store.sequence_without _ _ q),
      fun id member => Eq.trans (same _ member) (Store.mapping_without _ _ id)⟩
  · obtain ⟨w'', again, leftAgain⟩ := bound_deletes some drops left.unshared (left.typed typed) format metadata
    exact ⟨w'', again, left.unique (left.trans leftAgain) (by simp)⟩
  · intro others both g g' someOthers drops' drops'' isUnion
    have someBoth : both ≠ [] := by
      obtain ⟨kind, member⟩ := List.exists_mem_of_ne_nil others someOthers
      exact List.ne_nil_of_mem ((isUnion kind).mpr (.inr member))
    obtain ⟨first, thenOthers, left₁⟩ :=
      bound_deletes someOthers drops' left.unshared (left.typed typed) format metadata
    obtain ⟨other, othersFirst, left₂⟩ := bound_deletes someOthers drops' unshared typed format metadata
    obtain ⟨second, thenKinds, left₃⟩ :=
      bound_deletes some drops left₂.unshared (left₂.typed typed) format metadata
    obtain ⟨once, together, left₄⟩ := bound_deletes someBoth drops'' unshared typed format metadata
    exact ⟨first, second, once, other, thenOthers, othersFirst, thenKinds, together,
      (left.trans left₁).unique (left₂.trans left₃) (by simp [or_comm]),
      (left.trans left₁).unique left₄ (by simp [isUnion])⟩

end

def annotated : Store :=
  .ofElements [.text .str "a", .wrap .para ⟨0⟩, .wrap .note ⟨1⟩, .wrap .para ⟨2⟩, .mark .space,
    .wrap .metaInlines ⟨3⟩, .document [1, 23] ⟨0⟩ ⟨4⟩, .metaBool true] [[⟨0⟩], [⟨1⟩], [⟨2⟩, ⟨4⟩], [], [⟨3⟩]]
    [[("title", ⟨5⟩), ("draft", ⟨7⟩)]]

def countingDrop : Handler (Action Empty Nat) :=
  .plain ⟨"drop", "function", fun _ _ => .ofFunction fun w => (.ok (.several []), ⟨w.store, w.state + 1⟩)⟩

theorem annotations_deleted : ∃ first once, annotated.Unshared (.node ⟨6⟩) ∧ annotated.Typed (.node ⟨6⟩) ∧
    (∃ w', (bound [.note] countingDrop).Completes (.node ⟨6⟩) .null none ⟨annotated, 0⟩ w' ∧
      (bound [.metaInlines] countingDrop).Completes (.node ⟨6⟩) .null none w' first) ∧
    (bound [.metaInlines, .note] countingDrop).Completes (.node ⟨6⟩) .null none ⟨annotated, 0⟩ once ∧
    SameTree (.node ⟨6⟩) first.store once.store := by
  have drops : countingDrop.Drops := fun _ w => ⟨w.state + 1, rfl⟩
  have spans : annotated.Spans [(Root.node ⟨6⟩).object] _ :=
    Store.spans_of_spanned? (rfl : annotated.spanned? 20 _ = _)
  have unshared : annotated.Unshared (.node ⟨6⟩) := ⟨_, spans, by decide⟩
  have named : ∀ m ∈ Store.Object.nodes ((annotated.spanned? 20 [.node ⟨6⟩]).getD []),
      (annotated.element m).kind ≠ .list := by decide
  have typed : annotated.Typed (.node ⟨6⟩) :=
    Store.typed_of_elemental spans fun m member => named m (Store.Object.mem_nodes.mpr member)
  obtain ⟨_, w', completes, _, _, _, _, inTurn⟩ :=
    @deletes_by_kind Empty Nat [.note] countingDrop (.node ⟨6⟩) ⟨annotated, 0⟩ (by decide) drops unshared typed
      .null none
  obtain ⟨first, _, once, _, thenTitle, _, _, together, _, same⟩ :=
    inTurn [.metaInlines] [.metaInlines, .note] countingDrop countingDrop (by decide) drops drops (by simp [or_comm])
  exact ⟨first, once, unshared, typed, ⟨w', completes, thenTitle⟩, together, same⟩

end Filter

end DocTree
