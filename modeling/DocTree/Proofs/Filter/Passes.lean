import DocTree.Filter.Apply
import DocTree.Proofs.Store.Ways
import DocTree.Proofs.Walk.Failure
/-!
Filters that fail. The passes before the failing one are whole, that one is as if it had been curtailed
at its last call, and none is made after it.
-/

namespace DocTree.Filter

variable {ε σ : Type}

def prepared (root : Root) (metadata : Option MappingId) (w : World σ) : MappingId × World σ :=
  match metadata with
  | some id => (id, w)
  | none => let (id, s) := metadataOf w.store root; (id, { w with store := s })

def occasionOf (root : Root) (format : Json) (metadata : Option MappingId) (w : World σ) : Occasion :=
  .plain (formatOf format) (prepared root metadata w).1

theorem apply_eq (fuel : Nat) (f : Filter (Action ε σ)) (root : Root) (format : Json)
    (metadata : Option MappingId) (w : World σ) :
    f.apply fuel root format metadata w =
      passes fuel (occasionOf root format metadata w) root 1 f.handlers
        (prepared root metadata w).2 := by
  cases metadata <;> rfl

section

variable {fuel number : Nat} {occasion : Occasion} {root : Root} {handler : Handler (Action ε σ)}
  {handlers : List (Handler (Action ε σ))} {w w₁ w' : World σ}

theorem passes_cons_of_ok (pass : Walk.transform fuel (handler.perform occasion) root w = (.ok (), w₁)) :
    passes fuel occasion root number (handler :: handlers) w =
      passes fuel occasion root (number + 1) handlers w₁ := by
  rw [passes, pass]

/-- What holds in the beginning and is kept by every pass holds after the passes. -/
theorem passes_invariant {P : World σ → Prop} (start : P w)
    (kept : ∀ before handler after w₁ w₂, handlers = before ++ handler :: after →
      passes fuel occasion root number before w = (.ok (), w₁) → P w₁ →
      Walk.transform fuel (handler.perform occasion) root w₁ = (.ok (), w₂) → P w₂)
    (passed : passes fuel occasion root number handlers w = (.ok (), w')) : P w' := by
  induction handlers generalizing number w with
  | nil =>
    obtain rfl : w = w' := congrArg Prod.snd passed
    exact start
  | cons handler rest ih =>
    cases pass : Walk.transform fuel (handler.perform occasion) root w with
    | mk result w₁ =>
      cases result with
      | error halt =>
        rw [passes, pass] at passed
        cases passed
      | ok =>
        rw [passes_cons_of_ok pass] at passed
        refine ih (kept [] handler rest w w₁ rfl rfl start pass) ?_ passed
        intro before later after w₂ w₃ split earlier
        exact kept (handler :: before) later after w₂ w₃ (by rw [split]; rfl)
          ((passes_cons_of_ok pass).trans earlier)

end

theorem passes_error {fuel number : Nat} {occasion : Occasion} {root : Root}
    {handlers : List (Handler (Action ε σ))} {w w' : World σ} {stop : Stop ε}
    (failed : passes fuel occasion root number handlers w = (.error stop, w')) :
    ∃ before handler after w₁, handlers = before ++ handler :: after ∧
      number + before.length = stop.pass ∧
      passes fuel occasion root number before w = (.ok (), w₁) ∧
      Walk.transform fuel (handler.perform occasion) root w₁ = (.error stop.halt, w') ∧
      ∀ others, passes fuel occasion root number (before ++ handler :: others) w =
        (.error stop, w') := by
  induction handlers generalizing number w with
  | nil => exact absurd (congrArg (·.1) failed) nofun
  | cons handler rest ih =>
    rw [passes] at failed
    cases pass : Walk.transform fuel (handler.perform occasion) root w with
    | mk result w₁ =>
      rw [pass] at failed
      cases result with
      | error halt =>
        obtain ⟨eq, rfl⟩ := Prod.mk.inj failed
        obtain rfl := Except.error.inj eq
        refine ⟨[], handler, rest, w, rfl, rfl, rfl, pass, fun others => ?_⟩
        simp only [List.nil_append, passes, pass]
      | ok =>
        obtain ⟨before, failing, after, w₂, eq, count, whole, fails, others⟩ := ih failed
        refine ⟨handler :: before, failing, after, w₂, by rw [eq]; rfl, ?_, ?_, fails, ?_⟩
        · rw [List.length_cons]
          omega
        · simpa only [passes, pass] using whole
        · simpa only [List.cons_append, passes, pass] using others

/-- What a failure leaves is what was done up to it. A walk that fails at one of its calls, whatever is
wrong with the answer, leaves the tree of a whole walk that is curtailed there; a filter leaves the tree
of its whole passes and of one more that is curtailed, and its other handlers are never called. Asked of
the tree is only that what the walk has open at the failure is finite and without cycles. -/
theorem failure_leaves_curtailed_walk (ε σ : Type) :
    (∀ (action : NodeId → Effect ε σ Reply) (root : Root) (fuel : Nat) (w w' : World σ)
        (h : Walk.Halt ε), h ≠ .unfinished →
      Walk.transform fuel action root w = (.error h, w') → Walk.FailsAtCall action root fuel w h w') ∧
    ∀ (f : Filter (Action ε σ)) (root : Root) (format : Json) (metadata : Option MappingId)
        (fuel : Nat) (w w' : World σ) (stop : Stop ε), stop.halt ≠ .unfinished →
      f.apply fuel root format metadata w = (.error stop, w') →
      ∃ before handler after w₁, f.handlers = before ++ handler :: after ∧
        before.length + 1 = stop.pass ∧
        apply fuel ⟨before⟩ root format metadata w = (.ok (), w₁) ∧
        Walk.transform fuel (handler.perform (occasionOf root format metadata w)) root w₁ =
          (.error stop.halt, w') ∧
        Walk.FailsAtCall (handler.perform (occasionOf root format metadata w)) root fuel w₁ stop.halt w' ∧
        ∀ others, apply fuel ⟨before ++ handler :: others⟩ root format metadata w =
          (.error stop, w') := by
  constructor
  · intro action root fuel w w' h ended failed
    exact Walk.transform_failed ended failed
  · intro f root format metadata fuel w w' stop ended failed
    rw [apply_eq] at failed
    obtain ⟨before, handler, after, w₁, eq, count, whole, fails, others⟩ := passes_error failed
    refine ⟨before, handler, after, w₁, eq, by omega, ?_, fails, ?_, fun rest => ?_⟩
    · rw [apply_eq]
      exact whole
    · exact Walk.transform_failed ended fails
    · rw [apply_eq]
      exact others rest

def emphasized : Store :=
  .ofElements [.text .str "a", .wrap .emph ⟨0⟩, .mark .space] [[⟨0⟩], [⟨1⟩, ⟨2⟩]] []

/-- Puts the word in the place of the emphasis; turns the space into a break and gives no node. -/
def unwrapThenFail (n : NodeId) : Effect Empty Nat Reply :=
  .ofFunction fun w =>
    if n = ⟨1⟩ then (.ok (.several [.node ⟨0⟩]), ⟨w.store, w.state + 1⟩)
    else (.ok (.other "int"), ⟨w.store.setElement n (.mark .softBreak), w.state + 1⟩)

def halfUnwrapped : Store :=
  .ofElements [.text .str "a", .wrap .emph ⟨0⟩, .mark .softBreak] [[⟨0⟩], [⟨0⟩, ⟨2⟩]] []

theorem failure_leaves_half_unwrapped :
    (∃ earlier last, Walk.transform 20 (Walk.logged unwrapThenFail) (.list ⟨1⟩)
        (World.logging ⟨emphasized, 0⟩ []) = (.error (.rejected (.notNodes .space "int")),
          World.logging ⟨halfUnwrapped, 2⟩ (earlier ++ [last])) ∧
      ((unwrapThenFail last.node).run last.world).2 = ⟨halfUnwrapped, 2⟩ ∧
      Walk.EndsAsCurtailed unwrapThenFail (.list ⟨1⟩) ⟨emphasized, 0⟩ ⟨halfUnwrapped, 2⟩
        (earlier.length + 1)) ∧
    ∃ before handler after w₁,
      [Handler.plain ⟨"keep", "function", fun _ => Walk.keepAll⟩,
        .plain ⟨"fail", "function", fun _ => unwrapThenFail⟩,
        .plain ⟨"keep", "function", fun _ => Walk.keepAll⟩] = before ++ handler :: after ∧
      before.length + 1 = 2 ∧
      apply 20 ⟨before⟩ (.list ⟨1⟩) .null (some ⟨0⟩) ⟨emphasized, 0⟩ = (.ok (), w₁) ∧
      Walk.transform 20 (handler.perform (.plain (.str []) ⟨0⟩)) (.list ⟨1⟩) w₁ =
        (.error (.rejected (.notNodes .space "int")), ⟨halfUnwrapped, 2⟩) := by
  have finite : ∀ m, halfUnwrapped.Finite m := fun m => Store.finite_of_older (by decide)
  have whole := failure_leaves_curtailed_walk Empty Nat
  obtain ⟨earlier, last, called, left, curtails⟩ :=
    whole.1 unwrapThenFail (.list ⟨1⟩) 20 ⟨emphasized, 0⟩ ⟨halfUnwrapped, 2⟩
      (.rejected (.notNodes .space "int")) nofun rfl
  refine ⟨⟨earlier, last, called, left, curtails fun m _ => finite m⟩, ?_⟩
  obtain ⟨before, handler, after, w₁, eq, count, passed, fails, _⟩ :=
    whole.2 ⟨[.plain ⟨"keep", "function", fun _ => Walk.keepAll⟩,
      .plain ⟨"fail", "function", fun _ => unwrapThenFail⟩,
      .plain ⟨"keep", "function", fun _ => Walk.keepAll⟩]⟩ (.list ⟨1⟩) .null (some ⟨0⟩) 20
      ⟨emphasized, 0⟩ ⟨halfUnwrapped, 2⟩ ⟨2, .rejected (.notNodes .space "int")⟩ nofun rfl
  exact ⟨before, handler, after, w₁, eq, count, passed, fails⟩

def nestedEmphases : Store := .ofElements [.wrap .emph ⟨0⟩, .wrap .emph ⟨1⟩] [[], [⟨0⟩], [⟨1⟩]] []

def exchangedEmphases : Store := .ofElements [.wrap .emph ⟨1⟩, .wrap .emph ⟨0⟩] [[], [⟨0⟩], [⟨1⟩]] []

/-- Exchanges the contents of the emphases when it comes to the inner one, and fails. The list that this stands in
is its own content then, and no longer in the tree. -/
def exchangeThenFail (n : NodeId) : Effect Unit Unit Reply :=
  .ofFunction fun w =>
    if n = ⟨0⟩ then (.error (.own ()), { w with
      store := (w.store.setElement ⟨0⟩ (.wrap .emph ⟨1⟩)).setElement ⟨1⟩ (.wrap .emph ⟨0⟩) })
    else (.ok .keep, w)

/-- Where a curtailed walk has come to that has the inner emphasis open below itself. -/
inductive InKnot : List Walk.Frame → World (Unit × Nat) → Prop
  | below {rest : List Walk.Frame} {made : Nat} (late : 2 ≤ made) :
    InKnot (.below ⟨0⟩ :: rest) (World.counting ⟨exchangedEmphases, ()⟩ made)
  | entered {errands : List Walk.Errand} {rest : List Walk.Frame} {made : Nat} (late : 2 ≤ made) :
    InKnot (⟨errands, some (.sequence ⟨1⟩ 0 [])⟩ :: rest) (World.counting ⟨exchangedEmphases, ()⟩ made)
  | kept {errands : List Walk.Errand} {rest : List Walk.Frame} {made : Nat} (late : 2 ≤ made) :
    InKnot (⟨errands, some (.sequence ⟨1⟩ 1 [⟨0⟩])⟩ :: rest) (World.counting ⟨exchangedEmphases, ()⟩ made)

theorem InKnot.goesOn (frame : Walk.Frame) (rest : List Walk.Frame) (w : World (Unit × Nat))
    (h : InKnot (frame :: rest) w) : ∃ stack w',
      Walk.step ⟨Walk.curtailed 2 exchangeThenFail, Walk.ignore⟩ frame rest w = (.ok stack, w') ∧
        InKnot stack w' := by
  cases h with
  | below late => exact ⟨_, _, rfl, .entered late⟩
  | kept late => exact ⟨_, _, rfl, .below late⟩
  | @entered errands _ made late =>
    have keeps : (Walk.curtailed 2 exchangeThenFail ⟨0⟩).run (World.counting ⟨exchangedEmphases, ()⟩ made) =
        (.ok .keep, World.counting ⟨exchangedEmphases, ()⟩ (made + 1)) :=
      Walk.run_curtailed_after (Nat.lt_succ_of_le late) ⟨0⟩ ⟨exchangedEmphases, ()⟩
    have member : ((World.counting ⟨exchangedEmphases, ()⟩ made).store.sequence ⟨1⟩)[0]? = some ⟨0⟩ := rfl
    refine ⟨⟨errands, some (.sequence ⟨1⟩ 1 [⟨0⟩])⟩ :: rest, _, ?_, .kept (Nat.le_succ_of_le late)⟩
    rw [Walk.step_eq, Walk.move_member member]
    simp only [Walk.perform, Walk.offer, keeps]
    rfl

/-- A list that is open may be tied into a knot when it is no longer in the tree, and then a walk that does the same
and keeps the nodes does not end, though the tree that a failure leaves is finite. -/
theorem detached_knot_never_left : nestedEmphases.Acyclic (.list ⟨2⟩) ∧ exchangedEmphases.Acyclic (.list ⟨2⟩) ∧
    exchangedEmphases.tree (.list ⟨2⟩) = .list [.mk (.wrap .emph [])] ∧
    Walk.transform 20 (Walk.logged exchangeThenFail) (.list ⟨2⟩) (World.logging ⟨nestedEmphases, ()⟩ []) =
      (.error (.raised (.own ())), World.logging ⟨exchangedEmphases, ()⟩
        [⟨⟨1⟩, ⟨nestedEmphases, ()⟩⟩, ⟨⟨0⟩, ⟨nestedEmphases, ()⟩⟩]) ∧
    ∀ fuel, (Walk.transform fuel (Walk.curtailed 2 exchangeThenFail) (.list ⟨2⟩)
      (World.counting ⟨nestedEmphases, ()⟩ 0)).1 = .error .unfinished := by
  refine ⟨fun _ _ => Store.finite_of_older (by decide), fun n member => ?_, rfl, rfl, fun fuel => ?_⟩
  · obtain rfl := List.mem_singleton.mp member
    exact .intro trivial (List.forall_mem_nil _)
  · match fuel with
    | 0 | 1 | 2 | 3 | 4 => rfl
    | fuel + 5 => exact Walk.run_unfinished (fun w h => nomatch h) InKnot.goesOn fuel (.below (Nat.le_refl 2))

end DocTree.Filter
