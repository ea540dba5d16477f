import DocTree.Proofs.Walk.Lockstep
import DocTree.Proofs.Walk.Rest
/-!
A walk that fails leaves the tree as the failing call left it. A whole walk leaves the same tree if its
action does the same up to that call, makes the same edits there but keeps the node, and then rests.
-/

namespace DocTree

variable {ε σ : Type}

def World.counting (w : World σ) (made : Nat) : World (σ × Nat) := ⟨w.store, w.state, made⟩

namespace Walk

/-- An action up to a call: from that one on every node is kept, and after it nothing is edited. -/
def curtailed (last : Nat) (action : NodeId → Effect ε σ Reply) (n : NodeId) :
    Effect ε (σ × Nat) Reply :=
  .ofFunction fun w =>
    let before : World σ := ⟨w.store, w.state.1⟩
    let (answer, after) := (action n).run before
    let number := w.state.2 + 1
    if number < last then (answer, after.counting number)
    else if number = last then (.ok .keep, after.counting number)
    else (.ok .keep, before.counting number)

/-- The nodes that a failed walk has open: the one of the failing call, and those in the containers
that it was in, whether or not these are still parts of the tree. -/
def LeftOpen (action : NodeId → Effect ε σ Reply) (root : Root) (w : World σ) (h : Halt ε)
    (w' : World σ) (m : NodeId) : Prop :=
  ∃ n calls frame rest w₁ last, Reaches ⟨action, ignore⟩ n [.ofRoot root] w calls (frame :: rest) w₁ ∧
    step ⟨action, ignore⟩ frame rest w₁ = (.error h, w') ∧
    offered? w₁.store frame rest = some last ∧
    (m = last ∨ ∃ frame' ∈ frame :: rest, m ∈ frame'.nodes w'.store)

/-- A whole walk leaves a world whose action is curtailed at a call. -/
def EndsAsCurtailed (action : NodeId → Effect ε σ Reply) (root : Root) (w w' : World σ) (last : Nat) : Prop :=
  ∃ fuel made, transform fuel (curtailed last action) root (w.counting 0) = (.ok (), w'.counting made)

/-- A walk fails at its last call: what this leaves is what the walk leaves, and so does a whole walk whose action
is curtailed there, if what the failing one has open is finite. -/
def FailsAtCall (action : NodeId → Effect ε σ Reply) (root : Root) (fuel : Nat) (w : World σ) (h : Halt ε)
    (w' : World σ) : Prop :=
  ∃ earlier last, transform fuel (logged action) root (w.logging []) =
      (.error h, w'.logging (earlier ++ [last])) ∧
    ((action last.node).run last.world).2 = w' ∧
    ((∀ m, LeftOpen action root w h w' m → w'.store.Finite m) →
      EndsAsCurtailed action root w w' (earlier.length + 1))

variable {action : NodeId → Effect ε σ Reply} {last : Nat}

theorem run_curtailed_before {made : Nat} (early : made + 1 < last) (n : NodeId) (w : World σ) :
    (curtailed last action n).run (w.counting made) =
      (((action n).run w).1, ((action n).run w).2.counting (made + 1)) :=
  if_pos early

theorem run_curtailed_at {made : Nat} (now : made + 1 = last) (n : NodeId) (w : World σ) :
    (curtailed last action n).run (w.counting made) =
      (.ok .keep, ((action n).run w).2.counting (made + 1)) := by
  have past : ¬ made + 1 < last := by omega
  exact (if_neg past).trans (if_pos now)

theorem run_curtailed_after {made : Nat} (late : last < made + 1) (n : NodeId) (w : World σ) :
    (curtailed last action n).run (w.counting made) = (.ok .keep, w.counting (made + 1)) := by
  have past : ¬ made + 1 < last := by omega
  have different : ¬ made + 1 = last := by omega
  exact (if_neg past).trans (if_neg different)

theorem step_curtailed (frame : Frame) (rest : List Frame) (w : World σ) {made : Nat}
    (early : made + (callsAt frame rest w).length < last) :
    step ⟨curtailed last action, ignore⟩ frame rest (w.counting made) =
      ((step ⟨action, ignore⟩ frame rest w).1,
        (step ⟨action, ignore⟩ frame rest w).2.counting (made + (callsAt frame rest w).length)) := by
  apply Matches.eq (f := fun st => (st, made + (callsAt frame rest w).length))
  apply step_matches (S := fun st counting => counting = (st, made)) ⟨rfl, rfl⟩
  · intro n next
    rw [callsAt_offered next] at early ⊢
    rw [run_curtailed_before early]
    exact ⟨rfl, rfl, rfl⟩
  · intro next n depth
    rw [callsAt_quiet next]
    exact ⟨rfl, rfl, rfl⟩
  · intro next
    rw [callsAt_quiet next]
    rfl

theorem Reaches.curtailed {n : Nat} {stack stack' : List Frame} {w w' : World σ}
    {calls : List (Call σ)} (h : Reaches ⟨action, ignore⟩ n stack w calls stack' w') {made : Nat}
    (early : made + calls.length < last) :
    ∃ counted, Reaches ⟨Walk.curtailed last action, ignore⟩ n stack (w.counting made) counted stack'
      (w'.counting (made + calls.length)) := by
  induction h generalizing made with
  | refl => exact ⟨[], .refl _ _⟩
  | @step n frame rest _ _ w _ _ later first _ ih =>
    rw [List.length_append, ← Nat.add_assoc] at early ⊢
    obtain ⟨counted, tail⟩ := ih early
    have before : made + (callsAt frame rest w).length < last := by omega
    exact ⟨_, .step ((step_curtailed frame rest w before).trans (by rw [first])) tail⟩

theorem step_error {frame : Frame} {rest : List Frame} {w w' : World σ} {h : Halt ε}
    (failed : step ⟨action, ignore⟩ frame rest w = (.error h, w')) :
    ∃ n, offered? w.store frame rest = some n ∧ ((action n).run w).2 = w' := by
  rw [step_eq] at failed
  unfold offered?
  cases next : move w.store frame rest with
  | visit n frame' =>
    rw [next] at failed
    cases congrArg (·.1) failed
  | offer n settle =>
    refine ⟨n, rfl, ?_⟩
    simp only [next, perform, offer] at failed
    generalize (action n).run w = x at failed ⊢
    obtain ⟨answer, w₁⟩ := x
    cases answer with
    | error e => exact (Prod.mk.inj failed).2
    | ok reply =>
      simp only at failed
      cases fits : reply.replacement (w.store.element n).kind >>= settle w₁.store with
      | error r =>
        rw [fits] at failed
        exact (Prod.mk.inj failed).2
      | ok settled =>
        rw [fits] at failed
        cases congrArg (·.1) failed
  | go stack =>
    rw [next] at failed
    cases congrArg (·.1) failed

theorem step_keep (v : Visitor ε σ) {frame : Frame} {rest : List Frame} {w w' : World σ} {n : NodeId}
    (next : offered? w.store frame rest = some n) (kept : (v.offer n).run w = (.ok .keep, w')) :
    ∃ cursor, step v frame rest w = (.ok ({ frame with cursor := some cursor } :: rest), w') ∧
      ∀ m ∈ cursor.nodes w'.store, m = n ∨ m ∈ frame.nodes w'.store := by
  obtain ⟨errands, cursor⟩ := frame
  rcases offered?_cases next with ⟨id, index, rfl, member⟩ | ⟨id, key, keys, rfl, value⟩
  · refine ⟨.sequence id (index + 1) [n], ?_, ?_⟩
    · rw [step_eq, move_member member]
      simp only [perform, offer, kept]
      rfl
    · intro m inside
      have open_ : m = n ∨ m ∈ w'.store.sequence id := by simpa [Cursor.nodes] using inside
      exact open_.imp_right fun member => List.mem_append_left _ member
  · refine ⟨.mapping id keys [n], ?_, ?_⟩
    · rw [step_eq, move_value value]
      simp only [perform, offer, kept]
      rfl
    · intro m inside
      have open_ : m = n ∨ m ∈ (w'.store.mapping id).map (·.2) := by
        simpa [Cursor.nodes] using inside
      exact open_.imp_right fun member => List.mem_append_left _ member

theorem curtailed_rests (action : NodeId → Effect ε σ Reply) (last : Nat) (s : Store) (st : σ) :
    Rests ⟨curtailed last action, ignore⟩ s (fun _ => True)
      fun w : World (σ × Nat) => ∃ made, w = World.counting ⟨s, st⟩ made ∧ last ≤ made where
  store := by
    rintro w ⟨made, rfl, _⟩
    rfl
  offers := by
    rintro n w _ ⟨made, rfl, late⟩
    exact ⟨_, run_curtailed_after (by omega) n ⟨s, st⟩, made + 1, rfl, by omega⟩
  visits := fun _ _ w _ calm => ⟨w, rfl, calm⟩

/-- Where a walk fails, the same walk with a curtailed action goes on to its end. -/
theorem endsAsCurtailed {root : Root} {w w₁ w' : World σ} {h : Halt ε} {n : Nat}
    {earlier : List (Call σ)} {frame : Frame} {rest : List Frame} {m : NodeId}
    (course : Reaches ⟨action, ignore⟩ n [.ofRoot root] w earlier (frame :: rest) w₁)
    (failed : step ⟨action, ignore⟩ frame rest w₁ = (.error h, w'))
    (next : offered? w₁.store frame rest = some m) (left : ((action m).run w₁).2 = w')
    (finite : ∀ m, LeftOpen action root w h w' m → w'.store.Finite m) :
    EndsAsCurtailed action root w w' (earlier.length + 1) := by
  have early : 0 + earlier.length < earlier.length + 1 := by omega
  obtain ⟨counted, before⟩ := course.curtailed early
  rw [Nat.zero_add] at before
  have offered : offered? (w₁.counting earlier.length).store frame rest = some m := next
  obtain ⟨cursor, keeps, inside⟩ := step_keep ⟨curtailed (earlier.length + 1) action, ignore⟩
    offered (run_curtailed_at rfl m w₁)
  rw [left] at keeps inside
  -- From the failing call on nothing is edited, and all that is left to walk is finite.
  have isFinite : ∀ m', (m' = m ∨ ∃ frame' ∈ frame :: rest, m' ∈ frame'.nodes w'.store) →
      w'.store.Finite m' :=
    fun m' held => finite m' ⟨n, earlier, frame, rest, w₁, m, course, failed, next, held⟩
  have allFinite : ∀ frame' ∈ { frame with cursor := some cursor } :: rest,
      ∀ m' ∈ frame'.nodes w'.store, w'.store.Finite m' := by
    intro frame' member m' held
    rcases List.mem_cons.mp member with rfl | member
    · rcases List.mem_append.mp held with held | held
      · rcases inside m' held with rfl | held
        · exact isFinite m' (.inl rfl)
        · exact isFinite m' (.inr ⟨frame, List.mem_cons_self, held⟩)
      · exact isFinite m' (.inr ⟨frame, List.mem_cons_self, List.mem_append_right _ held⟩)
    · exact isFinite m' (.inr ⟨frame', List.mem_cons_of_mem _ member, held⟩)
  have rests := curtailed_rests action (earlier.length + 1) w'.store w'.state
  obtain ⟨k, more, w₂, after, made, rfl, _⟩ :=
    stack_goes_on rests _ allFinite (w'.counting (earlier.length + 1)) ⟨_, rfl, Nat.le_refl _⟩
  have whole := (before.snoc keeps).trans after
  exact ⟨_, made, run_eq_ok_iff.mpr ⟨_, Nat.le_refl _, _, whole⟩⟩

/-- A walk that fails can be told by its calls, and ends as the walk does that they curtail. -/
theorem transform_failed {fuel : Nat} {root : Root} {w w' : World σ} {h : Halt ε}
    (ended : h ≠ .unfinished) (failed : transform fuel action root w = (.error h, w')) :
    FailsAtCall action root fuel w h w' := by
  obtain ⟨n, bound, earlier, frame, rest, w₁, course, last⟩ := (run_eq_error_iff ended).mp failed
  obtain ⟨m, next, left⟩ := step_error last
  refine ⟨earlier, ⟨m, w₁⟩, ?_, left, endsAsCurtailed course last next left⟩
  exact (transform_logged_error_iff ended).mpr
    ⟨n, bound, earlier, frame, rest, w₁, course, last, by rw [callsAt_offered next]⟩

end Walk

end DocTree
