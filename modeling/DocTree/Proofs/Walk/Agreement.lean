import DocTree.Proofs.Filter.InTurn
import DocTree.Proofs.Walk.Preorder
/-!
Three ways to call a function on every node: a walk that looks, a walk that changes the tree with an action
that keeps every node, and a query. The first calls it when a node is visited, the second one step earlier,
when the node is offered; nothing happens in between, whatever the function edits and however much of the
tree is shared. So after one step more the first has come to the world in which the second is.
-/

namespace DocTree

variable {ε σ α β : Type}

theorem Trial.run_pure (a : α) (w : World σ) : (pure a : Effect ε σ α).run w = (.ok a, w) := rfl

namespace Walk

/-- With enough fuel, a walk comes out with this result, and leaves this world. -/
def EndsWith (walk : Nat → Except (Halt ε) α × World σ) (result : Except (Halt ε) α) (w' : World σ) :
    Prop :=
  result ≠ .error .unfinished ∧ ∃ fuel, walk fuel = (result, w')

/-- No fuel is enough for a walk. -/
def Endless (walk : Nat → Except (Halt ε) α × World σ) : Prop :=
  ∀ fuel, (walk fuel).1 = .error .unfinished

/-- Calls a function and keeps the node, whatever the function brings. -/
def keeping (f : NodeId → Effect ε σ α) (n : NodeId) : Effect ε σ Reply := do
  let _ ← f n
  return .keep

def dropping (f : NodeId → Effect ε σ α) (n : NodeId) : Effect ε σ Unit := do
  let _ ← f n

def looking (f : NodeId → Effect ε σ α) : Visitor ε σ := ⟨keepAll, fun n _ => dropping f n⟩

def changing (f : NodeId → Effect ε σ α) : Visitor ε σ := ⟨keeping f, ignore⟩

theorem run_keeping (f : NodeId → Effect ε σ α) (n : NodeId) (w : World σ) :
    (keeping f n).run w = (((f n).run w).1.map fun _ => .keep, ((f n).run w).2) := by
  rw [keeping, Trial.run_bind]
  obtain ⟨_ | _, _⟩ := (f n).run w
  · rfl
  · rfl

theorem run_dropping (f : NodeId → Effect ε σ α) (n : NodeId) (w : World σ) :
    (dropping f n).run w = (((f n).run w).1.map fun _ => (), ((f n).run w).2) := by
  rw [dropping, Trial.run_bind]
  obtain ⟨_ | _, _⟩ := (f n).run w
  · rfl
  · rfl

/-- A frame in which every node that has its place is visited. -/
def Frame.Bare (frame : Frame) : Prop :=
  ∀ cursor, frame.cursor = some cursor → cursor.withSettled [] = cursor

theorem bare_below (n : NodeId) : (Frame.below n).Bare := nofun

theorem bare_ofRoot (root : Root) : (Frame.ofRoot root).Bare := by
  cases root with
  | node id => exact bare_below id
  | list id =>
    intro cursor isCursor
    cases isCursor
    rfl

theorem bare_withSettled (errands : List Errand) (cursor : Cursor) :
    Frame.Bare ⟨errands, some (cursor.withSettled [])⟩ := by
  intro _ isCursor
  cases isCursor
  cases cursor with
  | sequence => rfl
  | mapping => rfl

theorem bare_enter (s : Store) (errands : List Errand) (container : Container) :
    Frame.Bare ⟨errands, some (.enter s container)⟩ := by
  intro cursor isCursor
  cases container with
  | sequence id =>
    cases isCursor
    rfl
  | mapping id =>
    cases isCursor
    rfl

/-- What is ahead of a stack of bare frames: it goes on by itself to such a stack, or a member is offered
that has its place once it is kept, and is visited next. -/
inductive BareMove (s : Store) (frame : Frame) (rest : List Frame) : Prop
  | go {stack : List Frame} (next : move s frame rest = .go stack) (bare : ∀ f ∈ stack, f.Bare)
  | offer {n : NodeId} {cursor : Cursor}
      {settle : Store → Option (List NodeId) → Except Rejection (Cursor × Store)}
      (next : move s frame rest = .offer n settle)
      (kept : ∀ s', settle s' none = .ok (cursor.withSettled [n], s'))

theorem bare_move {s : Store} {frame : Frame} {rest : List Frame} (bare : ∀ f ∈ frame :: rest, f.Bare) :
    BareMove s frame rest := by
  obtain ⟨own, others⟩ := List.forall_mem_cons.mp bare
  obtain ⟨errands, cursor⟩ := frame
  match cursor with
  | none =>
    cases opened : Errand.resume s errands with
    | none => exact .go (move_leave opened) others
    | some o => exact .go (move_enter opened) (List.forall_mem_cons.mpr ⟨bare_enter s _ _, others⟩)
  | some (.sequence id index (n :: settled)) => cases own _ rfl
  | some (.mapping id keys (n :: settled)) => cases own _ rfl
  | some (.sequence id index []) =>
    cases member : (s.sequence id)[index]? with
    | none => exact .go (move_past member) (List.forall_mem_cons.mpr ⟨nofun, others⟩)
    | some n =>
      have kept : ∀ s', settleSequence s' id index n none =
          (Cursor.withSettled [n] (.sequence id (index + 1) []), s') := fun _ => rfl
      exact .offer (move_member member) fun s' => congrArg _ (kept s')
  | some (.mapping id [] []) => exact .go rfl (List.forall_mem_cons.mpr ⟨nofun, others⟩)
  | some (.mapping id (key :: keys) []) =>
    cases value : (s.mapping id).get? key with
    | none =>
      exact .go (move_skip value)
        (List.forall_mem_cons.mpr ⟨bare_withSettled errands (.mapping id keys []), others⟩)
    | some n =>
      have kept : ∀ s', settleMapping s' id (s.element n).kind key keys n none =
          .ok (Cursor.withSettled [n] (.mapping id keys []), s') := fun _ => rfl
      exact .offer (move_value value) kept

section

variable {f : NodeId → Effect ε σ α} {frame : Frame} {rest : List Frame} {w : World σ} {n : NodeId}
  {cursor : Cursor} {settle : Store → Option (List NodeId) → Except Rejection (Cursor × Store)}

theorem step_go (v : Visitor ε σ) {stack : List Frame} (next : move w.store frame rest = .go stack) :
    step v frame rest w = (.ok stack, w) := by
  rw [step_eq, next]
  rfl

theorem looking_offers (next : move w.store frame rest = .offer n settle)
    (kept : ∀ s, settle s none = .ok (cursor.withSettled [n], s)) :
    step (looking f) frame rest w = (.ok ({ frame with cursor := some (cursor.withSettled [n]) } :: rest), w) := by
  have answer : ((looking f).offer n).run w = (.ok .keep, w) := rfl
  rw [step_eq, next]
  simp only [perform, offer, answer, Reply.replacement, bind, Except.bind, kept]
  rfl

theorem changing_offers (next : move w.store frame rest = .offer n settle)
    (kept : ∀ s, settle s none = .ok (cursor.withSettled [n], s)) :
    step (changing f) frame rest w = (match (f n).run w with
      | (.error e, w₁) => (.error (.ofOffer e), w₁)
      | (.ok _, w₁) => (.ok ({ frame with cursor := some (cursor.withSettled [n]) } :: rest), w₁)) := by
  have answer : ((changing f).offer n).run w = _ := run_keeping f n w
  rw [step_eq, next]
  simp only [perform, offer, answer]
  obtain ⟨_ | _, w₁⟩ := (f n).run w
  · rfl
  · simp only [Except.map, Reply.replacement, bind, Except.bind, kept]

theorem looking_visits (errands : List Errand) :
    step (looking f) ⟨errands, some (cursor.withSettled [n])⟩ rest w = (match (f n).run w with
      | (.error e, w₁) => (.error (.raised e), w₁)
      | (.ok _, w₁) => (.ok (.below n :: ⟨errands, some (cursor.withSettled [])⟩ :: rest), w₁)) := by
  have answer : ((looking f).visit n (rest.length + 1)).run w = _ := run_dropping f n w
  rw [step_eq, move_withSettled]
  simp only [perform, visit, answer]
  obtain ⟨_ | _, w₁⟩ := (f n).run w
  · rfl
  · rfl

theorem changing_visits (errands : List Errand) :
    step (changing f) ⟨errands, some (cursor.withSettled [n])⟩ rest w =
      (.ok (.below n :: ⟨errands, some (cursor.withSettled [])⟩ :: rest), w) := by
  rw [step_eq, move_withSettled]
  rfl

end

/-- What comes of a halt that leaves the walk of a container. -/
def Halt.throughContainer : Halt ε → Halt ε
  | .raised e => .ofOffer e
  | h => h

def throughContainer (result : Except (Halt ε) α) : Except (Halt ε) α := result.mapError .throughContainer

theorem throughContainer_eq_unfinished {result : Except (Halt ε) α} :
    throughContainer result = .error .unfinished ↔ result = .error .unfinished := by
  rcases result with (_ | e | _ | _) | _
  · simp [throughContainer, Except.mapError, Halt.throughContainer]
  · cases e <;> simp [throughContainer, Except.mapError, Halt.throughContainer, Halt.ofOffer]
  · simp [throughContainer, Except.mapError, Halt.throughContainer]
  · simp [throughContainer, Except.mapError, Halt.throughContainer]
  · simp [throughContainer, Except.mapError]

/-- The first of two runs had one step more than the second. It is in the same world, and has the same
result if the second has one, but for what becomes of an error in a container. -/
structure CaughtUp (x y : Except (Halt ε) α × World σ) : Prop where
  world : x.2 = y.2
  result : y.1 ≠ .error .unfinished → y.1 = throughContainer x.1

structure Behind (late early : Nat → Except (Halt ε) α × World σ) : Prop where
  catches : ∀ fuel, CaughtUp (late (fuel + 1)) (early fuel)
  ended : ∀ fuel, (late fuel).1 ≠ .error .unfinished → early fuel = (throughContainer (late fuel).1, (late fuel).2)

section

variable {late early : Nat → Except (Halt ε) α × World σ} {result : Except (Halt ε) α} {w' : World σ}

theorem Behind.endsWith_iff (behind : Behind late early) :
    EndsWith early result w' ↔ ∃ own, EndsWith late own w' ∧ result = throughContainer own := by
  constructor
  · rintro ⟨ended, fuel, out⟩
    obtain ⟨world, settled⟩ := behind.catches fuel
    rw [out] at world settled
    have same := settled ended
    refine ⟨(late (fuel + 1)).1, ⟨fun unfinished => ended ?_, fuel + 1, Prod.ext rfl world⟩, same⟩
    exact same.trans (throughContainer_eq_unfinished.mpr unfinished)
  · rintro ⟨own, ⟨ended, fuel, out⟩, rfl⟩
    refine ⟨fun unfinished => ended (throughContainer_eq_unfinished.mp unfinished), fuel, ?_⟩
    have same := behind.ended fuel
    rw [out] at same
    exact same ended

theorem Behind.endless_iff (behind : Behind late early) : Endless late ↔ Endless early := by
  constructor
  · intro endless fuel
    by_contra ended
    have out := (behind.catches fuel).result ended
    exact ended (out.trans (throughContainer_eq_unfinished.mpr (endless (fuel + 1))))
  · intro endless fuel
    by_contra ended
    have out := congrArg (·.1) (behind.ended fuel ended)
    exact ended (throughContainer_eq_unfinished.mp (out.symm.trans (endless fuel)))

end

theorem run_succ (v : Visitor ε σ) (fuel : Nat) (frame : Frame) (rest : List Frame) (w : World σ) :
    run v (fuel + 1) (frame :: rest) w = match step v frame rest w with
      | (.error h, w) => (.error h, w)
      | (.ok stack, w) => run v fuel stack w := rfl

theorem looking_catches (f : NodeId → Effect ε σ α) (fuel : Nat) {stack : List Frame}
    (bare : ∀ f ∈ stack, f.Bare) (w : World σ) :
    CaughtUp (run (looking f) (fuel + 1) stack w) (run (changing f) fuel stack w) ∧
      ((run (looking f) fuel stack w).1 ≠ .error .unfinished →
        run (changing f) fuel stack w =
          (throughContainer (run (looking f) fuel stack w).1, (run (looking f) fuel stack w).2)) := by
  -- The walk that looks makes each call one step later. Two steps after it both are at bare frames again.
  induction fuel using Nat.strongRecOn generalizing stack w with
  | ind fuel ih =>
    cases stack with
    | nil => cases fuel <;> exact ⟨⟨rfl, fun _ => rfl⟩, fun _ => rfl⟩
    | cons frame rest =>
      cases bare_move (s := w.store) bare with
      | @go stack next bare' =>
        rw [run_succ, step_go _ next]
        cases fuel with
        | zero =>
          refine ⟨⟨?_, fun ended => absurd rfl ended⟩, fun ended => absurd rfl ended⟩
          cases stack <;> rfl
        | succ fuel =>
          rw [run_succ, run_succ, step_go _ next, step_go _ next]
          exact ih fuel (Nat.lt_succ_self fuel) bare' w
      | @offer n cursor settle next kept =>
        obtain ⟨errands, isCursor⟩ := frame
        have after : ∀ f ∈ Frame.below n :: ⟨errands, some (cursor.withSettled [])⟩ :: rest, f.Bare := by
          have others := (List.forall_mem_cons.mp bare).2
          exact List.forall_mem_cons.mpr ⟨bare_below n,
            List.forall_mem_cons.mpr ⟨bare_withSettled errands cursor, others⟩⟩
        have looks := looking_offers (f := f) next kept
        have changes := changing_offers (f := f) next kept
        cases called : (f n).run w with
        | mk result w₁ =>
          rw [called] at changes
          match fuel with
          | 0 =>
            rw [run_succ, looks]
            exact ⟨⟨rfl, fun ended => absurd rfl ended⟩, fun ended => absurd rfl ended⟩
          | 1 =>
            rw [run_succ, run_succ, run_succ, looks, changes]
            simp only [run_succ, looking_visits, called]
            cases result with
            | error e => exact ⟨⟨rfl, fun _ => rfl⟩, fun ended => absurd rfl ended⟩
            | ok a => exact ⟨⟨rfl, fun ended => absurd rfl ended⟩, fun ended => absurd rfl ended⟩
          | fuel + 2 =>
            rw [run_succ, run_succ, run_succ, looks, changes]
            simp only [run_succ, looking_visits, called]
            cases result with
            | error e => exact ⟨⟨rfl, fun _ => rfl⟩, fun _ => rfl⟩
            | ok a =>
              simp only [run_succ, changing_visits]
              exact ih fuel (by omega) after w₁

theorem forEach_behind (f : NodeId → Effect ε σ α) (root : Root) (w : World σ) :
    Behind (forEach · (dropping f) root w) (transform · (keeping f) root w) := by
  have bare : ∀ frame ∈ [Frame.ofRoot root], frame.Bare := List.forall_mem_singleton.mpr (bare_ofRoot root)
  exact ⟨fun fuel => (looking_catches f fuel bare w).1, fun fuel => (looking_catches f fuel bare w).2⟩

end Walk

/-- A call of a function: how it is called, for which node, and in which world. -/
structure Walk.Asked (σ : Type) where
  occasion : Occasion
  node : NodeId
  world : World σ

def World.asking (w : World σ) (asked : List (Walk.Asked σ)) : World (σ × List (Walk.Asked σ)) :=
  ⟨w.store, w.state, asked⟩

namespace Walk

def noted (f : Occasion → NodeId → Effect ε σ α) (occasion : Occasion) (n : NodeId) :
    Effect ε (σ × List (Asked σ)) α :=
  .ofFunction fun w =>
    let before : World σ := ⟨w.store, w.state.1⟩
    let (answer, after) := (f occasion n).run before
    (answer, after.asking (w.state.2 ++ [⟨occasion, n, before⟩]))

/-- What a call adds to a collection; nothing if it fails. -/
def Asked.brings (f : Occasion → NodeId → Effect ε σ (Value β)) (asked : Asked σ) : List (Value β) :=
  match ((f asked.occasion asked.node).run asked.world).1 with
  | .ok v => v.added
  | .error _ => []

/-- What is collected on a walk that is over: what its calls bring, one after the other. -/
def collected (f : Occasion → NodeId → Effect ε σ (Value β)) :
    Except (Halt ε) Unit × World (σ × List (Asked σ)) →
      Except (Halt ε) (List (Value β)) × World (σ × List (Asked σ))
  | (.ok (), w) => (.ok (w.state.2.flatMap (·.brings f)), w)
  | (.error h, w) => (.error h, w)

/-- Writing down the calls makes no other difference to a walk. -/
theorem run_looking_noted (f : Occasion → NodeId → Effect ε σ α) (occasion : Occasion) (fuel : Nat)
    (stack : List Frame) (w : World σ) :
    Matches (fun state noting => noting.1 = state) (run (looking (f occasion)) fuel stack w)
      (run (looking (noted f occasion)) fuel stack (w.asking [])) := by
  refine run_matches ?_ ?_ ⟨rfl, rfl⟩
  · exact fun _ _ _ alike => ⟨rfl, alike⟩
  · rintro n _ ⟨s, state⟩ ⟨s', state', asked⟩ ⟨same, same'⟩
    obtain rfl : s' = s := same
    obtain rfl : state' = state := same'
    simp only [looking, run_dropping]
    exact ⟨rfl, rfl, rfl⟩

theorem run_changing_noted (f : Occasion → NodeId → Effect ε σ α) (occasion : Occasion) (fuel : Nat)
    (stack : List Frame) (w : World σ) :
    Matches (fun state noting => noting.1 = state) (run (changing (f occasion)) fuel stack w)
      (run (changing (noted f occasion)) fuel stack (w.asking [])) := by
  refine run_matches ?_ ?_ ⟨rfl, rfl⟩
  · rintro n ⟨s, state⟩ ⟨s', state', asked⟩ ⟨same, same'⟩
    obtain rfl : s' = s := same
    obtain rfl : state' = state := same'
    simp only [changing, run_keeping]
    exact ⟨rfl, rfl, rfl⟩
  · exact fun _ _ _ _ alike => ⟨rfl, alike⟩

def Gathered (f : Occasion → NodeId → Effect ε σ (Value β)) (noting : σ × List (Asked σ))
    (query : (σ × List (Asked σ)) × List (Value β)) : Prop :=
  query.1 = noting ∧ query.2 = (noting.2.flatMap (·.brings f)).reverse

theorem dropping_gathers (f : Occasion → NodeId → Effect ε σ (Value β)) (occasion : Occasion) (n : NodeId)
    {w : World (σ × List (Asked σ))} {w' : World ((σ × List (Asked σ)) × List (Value β))}
    (alike : w.Alike (Gathered f) w') :
    Matches (Gathered f) ((dropping (noted f occasion) n).run w)
      ((noting (fun n => Answer.ofValue <$> noted f occasion n) n).run w') := by
  obtain ⟨s, state, asked⟩ := w
  obtain ⟨s', ⟨state', asked'⟩, notes⟩ := w'
  obtain ⟨same, same', notes_eq⟩ := alike
  obtain rfl : s' = s := same
  obtain ⟨rfl, rfl⟩ := Prod.mk.inj same'
  obtain rfl : notes = _ := notes_eq
  have call : (noted f occasion n).run ⟨s', state', asked'⟩ = (((f occasion n).run ⟨s', state'⟩).1,
      ((f occasion n).run ⟨s', state'⟩).2.asking (asked' ++ [⟨occasion, n, ⟨s', state'⟩⟩])) := rfl
  have brings : Asked.brings f ⟨occasion, n, ⟨s', state'⟩⟩ =
      (match ((f occasion n).run ⟨s', state'⟩).1 with | .ok v => v.added | .error _ => []) := rfl
  rw [run_dropping, run_noting, map_eq_pure_bind, Trial.run_bind, call]
  cases answer : (f occasion n).run ⟨s', state'⟩ with
  | mk result w₁ =>
    rw [answer] at brings
    cases result with
    | error e => exact ⟨rfl, rfl, rfl, by simp [World.asking, brings]⟩
    | ok v =>
      refine ⟨rfl, rfl, rfl, ?_⟩
      simp [World.asking, brings, results_ofValue, Trial.run_pure]

/-- A query makes the calls of a walk, and collects what they bring. -/
theorem queryValues_collects (f : Occasion → NodeId → Effect ε σ (Value β)) (occasion : Occasion)
    (fuel : Nat) (root : Root) (w : World σ) :
    queryValues fuel (noted f occasion) root (w.asking []) =
      collected f (forEach fuel (dropping (noted f occasion)) root (w.asking [])) := by
  have gathers : Matches (Gathered f) (forEach fuel (dropping (noted f occasion)) root (w.asking []))
      (forEach fuel (noting (fun n => Answer.ofValue <$> noted f occasion n)) root
        ⟨w.store, (w.state, []), []⟩) := by
    refine run_matches ?_ ?_ ⟨rfl, rfl, rfl⟩
    · exact fun _ _ _ alike => ⟨rfl, alike⟩
    · exact fun n _ _ _ alike => dropping_gathers f occasion n alike
  have begins : (⟨(w.asking []).store, (w.asking []).state, []⟩ :
      World ((σ × List (Asked σ)) × List (Value β))) = ⟨w.store, (w.state, []), []⟩ := rfl
  rw [queryValues, query, begins]
  generalize forEach fuel (dropping (noted f occasion)) root (w.asking []) = walked at gathers ⊢
  generalize forEach fuel _ root _ = queried at gathers ⊢
  obtain ⟨result, s, noting⟩ := walked
  obtain ⟨result', s', noting', notes⟩ := queried
  obtain ⟨same, store, state, isNotes⟩ := gathers
  obtain rfl : result' = result := same
  obtain rfl : s' = s := store
  obtain rfl : noting' = noting := state
  obtain rfl : notes = _ := isNotes
  cases result' with
  | error h => rfl
  | ok => simp [collected]

theorem queryValues_noted (f : Occasion → NodeId → Effect ε σ (Value β)) (occasion : Occasion) (fuel : Nat)
    (root : Root) (w : World σ) :
    Matches (fun state noting => noting.1 = state) (queryValues fuel (f occasion) root w)
      (queryValues fuel (noted f occasion) root (w.asking [])) := by
  have walked : Matches (fun state noting => noting.1.1 = state.1 ∧ noting.2 = state.2)
      (forEach fuel (noting (fun n => Answer.ofValue <$> f occasion n)) root ⟨w.store, w.state, []⟩)
      (forEach fuel (noting (fun n => Answer.ofValue <$> noted f occasion n)) root
        ⟨w.store, (w.state, []), []⟩) := by
    refine run_matches ?_ ?_ ⟨rfl, rfl, rfl⟩
    · exact fun _ _ _ alike => ⟨rfl, alike⟩
    · rintro n _ ⟨s, state, notes⟩ ⟨s', ⟨state', asked⟩, notes'⟩ ⟨same, same', notes_eq⟩
      obtain rfl : s' = s := same
      obtain rfl : state' = state := same'
      obtain rfl : notes' = notes := notes_eq
      have call : (noted f occasion n).run ⟨s', state', asked⟩ = (((f occasion n).run ⟨s', state'⟩).1,
          ((f occasion n).run ⟨s', state'⟩).2.asking (asked ++ [⟨occasion, n, ⟨s', state'⟩⟩])) := rfl
      rw [run_noting, run_noting, map_eq_pure_bind, map_eq_pure_bind, Trial.run_bind, Trial.run_bind, call]
      obtain ⟨_ | _, _⟩ := (f occasion n).run ⟨s', state'⟩
      · exact ⟨rfl, rfl, rfl, rfl⟩
      · exact ⟨rfl, rfl, rfl, rfl⟩
  have begins : (⟨(w.asking []).store, (w.asking []).state, []⟩ :
      World ((σ × List (Asked σ)) × List (Value β))) = ⟨w.store, (w.state, []), []⟩ := rfl
  -- The results are noted alike; the calls are noted beside the state.
  rw [queryValues, query, queryValues, query, begins]
  generalize forEach fuel _ root _ = queried at walked ⊢
  generalize forEach fuel _ root _ = queried' at walked ⊢
  obtain ⟨result, s, state, notes⟩ := queried
  obtain ⟨result', s', noting, notes'⟩ := queried'
  obtain ⟨same, store, same', notes_eq⟩ := walked
  obtain rfl : result' = result := same
  obtain rfl : notes' = notes := notes_eq
  cases result' with
  | error h => exact ⟨rfl, store, same'⟩
  | ok => exact ⟨rfl, store, same'⟩

/-- A walk that looks, with any function, makes the calls of the walk whose action calls that function and
keeps the node, and ends as that one does: after as many steps and one more it is in the same world, with the
same calls made. Only the sign that there are no more items comes out of the one as it is and out of the other as
a complaint about it. A query makes these calls too, and collects what they bring. -/
theorem walks_call_alike (f : Occasion → NodeId → Effect ε σ (Value β)) (occasion : Occasion) (root : Root)
    (w : World σ) :
    (∀ result w', EndsWith (transform · (keeping (f occasion)) root w) result w' ↔
      ∃ own, EndsWith (forEach · (dropping (f occasion)) root w) own w' ∧ result = throughContainer own) ∧
    (Endless (forEach · (dropping (f occasion)) root w) ↔
      Endless (transform · (keeping (f occasion)) root w)) ∧
    (∀ fuel, (forEach (fuel + 1) (dropping (noted f occasion)) root (w.asking [])).2 =
      (transform fuel (keeping (noted f occasion)) root (w.asking [])).2) ∧
    (∀ fuel, queryValues fuel (noted f occasion) root (w.asking []) =
      collected f (forEach fuel (dropping (noted f occasion)) root (w.asking []))) ∧
    ∀ fuel, Matches (fun state noting => noting.1 = state) (forEach fuel (dropping (f occasion)) root w)
        (forEach fuel (dropping (noted f occasion)) root (w.asking [])) ∧
      Matches (fun state noting => noting.1 = state) (transform fuel (keeping (f occasion)) root w)
        (transform fuel (keeping (noted f occasion)) root (w.asking [])) ∧
      Matches (fun state noting => noting.1 = state) (queryValues fuel (f occasion) root w)
        (queryValues fuel (noted f occasion) root (w.asking [])) := by
  have behind := forEach_behind (f occasion) root w
  have noting := forEach_behind (noted f occasion) root (w.asking [])
  refine ⟨fun result w' => behind.endsWith_iff, behind.endless_iff, ?_, ?_, ?_⟩
  · exact fun fuel => (noting.catches fuel).world
  · exact fun fuel => queryValues_collects f occasion fuel root w
  · exact fun fuel => ⟨run_looking_noted f occasion fuel _ w, run_changing_noted f occasion fuel _ w,
      queryValues_noted f occasion fuel root w⟩

def oneWord : Store := .ofElements [.text .str "a"] [[⟨0⟩]] []

def hasNoMore (_ : Occasion) (_ : NodeId) : Effect Empty Unit (Value Unit) := throw .stop

/-- The sign that there are no more items comes out of a walk that looks and of a query as it is, but not out of the
walk that keeps the nodes. -/
theorem sign_comes_out_changed :
    (forEach 4 (dropping (hasNoMore (.plain (.str []) ⟨0⟩))) (.list ⟨0⟩) ⟨oneWord, ()⟩).1 = .error (.raised .stop) ∧
    (queryValues 4 (hasNoMore (.plain (.str []) ⟨0⟩)) (.list ⟨0⟩) ⟨oneWord, ()⟩).1 = .error (.raised .stop) ∧
    (transform 4 (keeping (hasNoMore (.plain (.str []) ⟨0⟩))) (.list ⟨0⟩) ⟨oneWord, ()⟩).1 = .error .stopped :=
  ⟨rfl, rfl, rfl⟩

end Walk

end DocTree
