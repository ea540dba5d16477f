import DocTree.Proofs.Filter.Passes
import DocTree.Proofs.Walk.PlainText
import DocTree.Proofs.Walk.Selecting
/-!
Actions that keep the plain text of what they replace. With every step of a walk the nodes in document order
are the same as before but for those below one member, and what has come there has the same text. So the
text of the whole tree stays, over a walk and over all passes of a filter.
-/

namespace DocTree

variable {ε σ : Type}

namespace Walk

open Store (Object Same)

/-- On a walk over a tree, an action edits nothing of it, and what it gives for a node has the text of that
node and brings no sharing into the tree. -/
structure KeepsText (action : NodeId → Effect ε σ Reply) (root : Root) (w₀ : World σ) : Prop
    extends Grafts action root w₀ where
  text : ∀ frame rest w n ns w₁ all, Reached action root w₀ (frame :: rest) w →
    offered? w.store frame rest = some n → w.store.Spans [root.object] all → .node n ∈ all →
    Gives action n w ns w₁ → ∃ bound, ∀ fuel, bound ≤ fuel →
      (ns.flatMap fun m => plainText fuel w₁.store (.node m)) = plainText fuel w.store (.node n)

section

variable {action : NodeId → Effect ε σ Reply} {root : Root} {w₀ w w' : World σ} {stack : List Frame}
  {s s' : Store} {all all' : List Object} {n : NodeId} {ns : List NodeId}

theorem nodeText_eq (spans : s.Spans [.node n] all) :
    ∃ bound, ∀ fuel, bound ≤ fuel → plainText fuel s (.node n) = s.textOf all :=
  plainText_eq (show s.Spans [(Root.node n).object] all from spans)

theorem plainTexts_eq (spans : s.Spans (ns.map .node) all) : ∃ bound, ∀ fuel, bound ≤ fuel →
    (ns.flatMap fun m => plainText fuel s (.node m)) = s.textOf all := by
  induction ns generalizing all with
  | nil =>
    cases spans
    exact ⟨0, fun _ _ => rfl⟩
  | cons m ns ih =>
    obtain ⟨one, two, rfl, here, later⟩ :=
      (show s.Spans ([.node m] ++ ns.map .node) all from spans).of_append
    obtain ⟨bound, first⟩ := nodeText_eq here
    obtain ⟨bound', others⟩ := ih later
    refine ⟨max bound bound', fun fuel enough => ?_⟩
    rw [List.flatMap_cons, first fuel (by omega), others fuel (by omega), Store.textOf_append]

theorem KeepsText.step (keeps : KeepsText action root w₀) {frame : Frame} {rest : List Frame}
    (reached : Reached action root w₀ (frame :: rest) w) (stepped : Stepped action root frame rest w w')
    (spans : w.store.Spans [root.object] all) (spans' : w'.store.Spans [root.object] all') :
    w'.store.textOf all' = w.store.textOf all := by
  cases stepped with
  | same whole _ kept =>
    obtain rfl := whole.unique spans
    obtain rfl := (whole.agree kept).unique spans'
    exact Store.textOf_agree kept
  | @grafted container n ns w₁ before below given after whole nodup inTree next inner gives still new exchanged
      whole' nodup' edits =>
    obtain rfl := whole.unique spans
    obtain rfl := whole'.unique spans'
    -- The container that is edited has no text itself.
    have element : ∀ m, w'.store.element m = w₁.store.element m :=
      fun m => (edits (.node m) (exchanged.not_node m)).element
    have elsewhere : ∀ m, .node m ∈ before ++ below ++ after → w'.store.element m = w.store.element m :=
      fun m member => (element m).trans (still (.node m) member).element
    have node : .node n ∈ before ++ below ++ after := by
      have first := inner.mem (List.mem_singleton_self _)
      simp [first]
    obtain ⟨bound, same⟩ := keeps.text _ _ _ _ _ _ _ reached next whole node gives
    obtain ⟨bound₁, texts⟩ := plainTexts_eq new
    obtain ⟨bound₂, text⟩ := nodeText_eq inner
    have middle : w₁.store.textOf given = w.store.textOf below := by
      have enough := Nat.le_max_left bound (max bound₁ bound₂)
      rw [← texts (max bound (max bound₁ bound₂)) (by omega), same _ enough]
      exact text _ (by omega)
    have first : w'.store.textOf before = w.store.textOf before :=
      Store.textOf_elements fun m member => elsewhere m (by simp [member])
    have second : w'.store.textOf given = w₁.store.textOf given := Store.textOf_elements fun m _ => element m
    have third : w'.store.textOf after = w.store.textOf after :=
      Store.textOf_elements fun m member => elsewhere m (by simp [member])
    simp only [Store.textOf_append, first, second, third, middle]

/-- Wherever a walk comes, the tree has the text that it had in the beginning. -/
theorem KeepsText.textOf (keeps : KeepsText action root w₀) (whole : w₀.store.Spans [root.object] all)
    (nodup : all.Nodup) (reached : Reached action root w₀ stack w) : w.store.Unshared root ∧
      ∀ all', w.store.Spans [root.object] all' → w.store.textOf all' = w₀.store.textOf all := by
  refine keeps.invariant (P := fun w => ∀ all', w.store.Spans [root.object] all' →
    w.store.textOf all' = w₀.store.textOf all) ⟨all, whole, nodup⟩ ?_ ?_ reached
  · intro all' spans
    rw [spans.unique whole]
  · intro frame rest w stack w' reached before _ stepped all' spans
    obtain ⟨all₁, spans₁, _⟩ := (keeps.tame ⟨all, whole, nodup⟩).unshared _ _ reached
    rw [keeps.step reached stepped spans₁ spans, before all₁ spans₁]

theorem KeepsText.plainText (keeps : KeepsText action root w) (unshared : w.store.Unshared root) {fuel : Nat}
    (ended : transform fuel action root w = (.ok (), w')) : w'.store.Unshared root ∧
      ∃ bound, ∀ fuel, bound ≤ fuel → Walk.plainText fuel w'.store root = Walk.plainText fuel w.store root := by
  obtain ⟨all, whole, nodup⟩ := unshared
  obtain ⟨n, _, calls, course⟩ := run_eq_ok_iff.mp ended
  obtain ⟨unshared', same⟩ := keeps.textOf whole nodup ⟨n, calls, course⟩
  obtain ⟨all', whole', nodup'⟩ := unshared'
  obtain ⟨bound, text⟩ := plainText_eq whole
  obtain ⟨bound', text'⟩ := plainText_eq whole'
  refine ⟨⟨all', whole', nodup'⟩, max bound bound', fun fuel enough => ?_⟩
  rw [text fuel (by omega), text' fuel (by omega), same all' whole']

theorem Unwraps.keepsText {action : NodeId → Effect ε σ Reply} (unwraps : Unwraps action) (root : Root)
    (w : World σ) : KeepsText action root w where
  toGrafts := (unwraps.selects root w).grafts
  text := by
    intro frame rest w n ns w₁ all _ _ spans member gives
    obtain ⟨below, inner, _⟩ := spans.deep member
    have still := unwraps.still n w
    rw [gives.world] at still
    rw [still]
    rcases unwraps.gives n w ns w₁ gives with rfl | ⟨wrap, id, element, rfl⟩
    · exact ⟨0, fun fuel _ => by simp⟩
    · obtain ⟨bound, text⟩ := nodeText_eq inner
      obtain ⟨inside, rfl, _, below_spans⟩ := inner.of_single
      have container : w.store.parts (.node n) = [.sequence id] := by
        rw [Store.parts, element]
        rfl
      rw [container] at below_spans
      obtain ⟨deeper, rfl, _, members⟩ := below_spans.of_single
      obtain ⟨bound', texts⟩ := plainTexts_eq members
      -- A wrapping has no text itself.
      have own : w.store.textOf (.node n :: .sequence id :: deeper) = w.store.textOf deeper := by
        simp [Store.textOf, element, Element.ownText]
      refine ⟨max bound bound', fun fuel enough => ?_⟩
      rw [texts fuel (by omega), text fuel (by omega), own]

end

end Walk

namespace Filter

open Walk (KeepsText)

/-- Every pass begins in a world from which the walk of its handler keeps the text. -/
def KeepsText (fuel : Nat) (f : Filter (Action ε σ)) (root : Root) (format : Json)
    (metadata : Option MappingId) (w : World σ) : Prop :=
  ∀ before handler after w', f.handlers = before ++ handler :: after →
    apply fuel ⟨before⟩ root format metadata w = (.ok (), w') →
    Walk.KeepsText (handler.perform (occasionOf root format metadata w)) root w'

section

variable {fuel : Nat} {root : Root} {w w' : World σ} {all : List Store.Object}

theorem prepared_same (root : Root) (metadata : Option MappingId) (w : World σ) (o : Store.Object) :
    Store.Same w.store (prepared root metadata w).2.store o := by
  have grown : Store.Same w.store (w.store.newMapping []).2 o := by
    cases o with
    | node n => exact .of_eq rfl rfl
    | sequence | fitting => rfl
    | mapping id =>
      have added : (w.store.newMapping []).2.mappings = w.store.mappings.push [] := rfl
      simp only [Store.Same, Store.mapping, added, Array.getD_eq_getD_getElem?, Array.getElem?_push]
      split
      · next last => simp [last]
      · rfl
  cases metadata with
  | some id => exact .refl _ o
  | none =>
    rw [prepared]
    dsimp only
    unfold metadataOf
    cases root with
    | list id => exact grown
    | node id =>
      dsimp only
      split
      · exact .refl _ o
      · exact grown

theorem passes_keepText {occasion : Occasion} {handlers : List (Handler (Action ε σ))} (number : Nat)
    (unshared : w.store.Unshared root)
    (keeps : ∀ before handler after w', handlers = before ++ handler :: after →
      passes fuel occasion root number before w = (.ok (), w') →
      Walk.KeepsText (handler.perform occasion) root w')
    (passed : passes fuel occasion root number handlers w = (.ok (), w')) :
    w'.store.Unshared root ∧ ∃ bound, ∀ fuel, bound ≤ fuel →
      Walk.plainText fuel w'.store root = Walk.plainText fuel w.store root := by
  refine passes_invariant (P := fun w₁ => w₁.store.Unshared root ∧ ∃ bound, ∀ fuel, bound ≤ fuel →
    Walk.plainText fuel w₁.store root = Walk.plainText fuel w.store root) ⟨unshared, 0, fun _ _ => rfl⟩ ?_ passed
  rintro before handler after w₁ w₂ split earlier ⟨unshared₁, bound, same⟩ pass
  obtain ⟨unshared₂, bound', same'⟩ := (keeps before handler after w₁ split earlier).plainText unshared₁ pass
  refine ⟨unshared₂, max bound bound', fun fuel enough => ?_⟩
  rw [same' fuel (by omega), same fuel (by omega)]

end

/-- Where an action edits nothing of a tree without sharing, and gives for each node that it is offered, be it
one that was given before, nodes of its subtree or new ones with the same text, a walk that comes to its end
leaves the plain text as it was. So does a filter of such actions. -/
theorem plainText_kept (ε σ : Type) :
    (∀ (action : NodeId → Effect ε σ Reply) (root : Root) (fuel : Nat) (w w' : World σ),
      w.store.Unshared root → Walk.KeepsText action root w →
      Walk.transform fuel action root w = (.ok (), w') →
      ∃ bound, ∀ fuel, bound ≤ fuel →
        Walk.plainText fuel w'.store root = Walk.plainText fuel w.store root) ∧
    ∀ (f : Filter (Action ε σ)) (root : Root) (format : Json) (metadata : Option MappingId) (fuel : Nat)
      (w w' : World σ), w.store.Unshared root → KeepsText fuel f root format metadata w →
      f.apply fuel root format metadata w = (.ok (), w') →
      ∃ bound, ∀ fuel, bound ≤ fuel →
        Walk.plainText fuel w'.store root = Walk.plainText fuel w.store root := by
  constructor
  · intro action root fuel w w' unshared keeps ended
    exact (keeps.plainText unshared ended).2
  · intro f root format metadata fuel w w' unshared keeps applied
    obtain ⟨all, spans, nodup⟩ := unshared
    have same : ∀ o ∈ all, Store.Same w.store (prepared root metadata w).2.store o :=
      fun o _ => prepared_same root metadata w o
    rw [apply_eq] at applied
    obtain ⟨_, bound, passed⟩ := passes_keepText 1 ⟨all, spans.agree same, nodup⟩
      (fun before handler after w' eq earlier =>
        keeps before handler after w' eq (by rw [apply_eq]; exact earlier)) applied
    obtain ⟨bound₁, text⟩ := Walk.plainText_eq spans
    obtain ⟨bound₂, begun⟩ := Walk.plainText_eq (spans.agree same)
    refine ⟨max bound (max bound₁ bound₂), fun fuel enough => ?_⟩
    rw [passed fuel (by omega), text fuel (by omega), begun fuel (by omega), Store.textOf_agree same]

/-- Takes everything out of its wrapping, and then once more. -/
def unwrapping : Filter (Action Empty Nat) :=
  ⟨[.plain ⟨"unwrap", "function", fun _ => Walk.unwrap⟩, .plain ⟨"unwrap", "function", fun _ => Walk.unwrap⟩]⟩

theorem unwrapping_keepsText (fuel : Nat) (root : Root) (format : Json) (metadata : Option MappingId)
    (w : World Nat) : KeepsText fuel unwrapping root format metadata w := by
  intro before handler after w' eq _
  have same : handler = .plain ⟨"unwrap", "function", fun _ => Walk.unwrap⟩ := by
    have member : handler ∈ unwrapping.handlers := by simp [eq]
    simpa [unwrapping] using member
  rw [same]
  exact Walk.unwrap_unwraps.keepsText _ _

def unstressed (mappings : List (Mapping NodeId)) : Store :=
  .ofElements [.text .str "a", .wrap .emph ⟨0⟩, .mark .space] [[⟨0⟩], [⟨0⟩, ⟨2⟩]] mappings

theorem unwrapped_reads_same :
    (Walk.transform 20 (Walk.unwrap : NodeId → Effect Empty Nat Reply) (.list ⟨1⟩) ⟨Walk.stressed, 0⟩ =
        (.ok (), ⟨unstressed [], 0⟩) ∧
      ∃ bound, ∀ fuel, bound ≤ fuel →
        Walk.plainText fuel (unstressed []) (.list ⟨1⟩) = Walk.plainText fuel Walk.stressed (.list ⟨1⟩)) ∧
    apply 20 unwrapping (.list ⟨1⟩) .null none ⟨Walk.stressed, 0⟩ = (.ok (), ⟨unstressed [[]], 0⟩) ∧
      ∃ bound, ∀ fuel, bound ≤ fuel →
        Walk.plainText fuel (unstressed [[]]) (.list ⟨1⟩) = Walk.plainText fuel Walk.stressed (.list ⟨1⟩) := by
  have unshared : Walk.stressed.Unshared (.list ⟨1⟩) := ⟨_, Walk.stressed_spans, by decide⟩
  refine ⟨⟨rfl, ?_⟩, rfl, ?_⟩
  · exact (plainText_kept Empty Nat).1 Walk.unwrap _ 20 ⟨Walk.stressed, 0⟩ ⟨unstressed [], 0⟩ unshared
      (Walk.unwrap_unwraps.keepsText _ _) rfl
  · exact (plainText_kept Empty Nat).2 unwrapping _ .null none 20 ⟨Walk.stressed, 0⟩ ⟨unstressed [[]], 0⟩
      unshared (unwrapping_keepsText _ _ _ _ _) rfl

end Filter

end DocTree
