import DocTree.Proofs.Walk.Course
/-!
Two walks over the same tree whose visitors answer alike go on in lockstep. The use made of this here
is a log: an action can be made to write down its calls, and walks the same way as before.
-/

namespace DocTree

variable {ε σ σ' : Type}

def World.Alike (S : σ → σ' → Prop) (w : World σ) (w' : World σ') : Prop :=
  w'.store = w.store ∧ S w.state w'.state

def Matches {α : Type} (S : σ → σ' → Prop) (x : α × World σ) (y : α × World σ') : Prop :=
  y.1 = x.1 ∧ x.2.Alike S y.2

theorem Matches.eq {α : Type} {f : σ → σ'} {x : α × World σ} {y : α × World σ'}
    (h : Matches (fun st st' => st' = f st) x y) : y = (x.1, ⟨x.2.store, f x.2.state⟩) := by
  obtain ⟨result', s, state'⟩ := y
  obtain ⟨result, store, state⟩ := h
  obtain rfl : result' = _ := result
  obtain rfl : s = _ := store
  obtain rfl : state' = _ := state
  rfl

namespace Walk

section

variable {v : Visitor ε σ} {v' : Visitor ε σ'} {S S' : σ → σ' → Prop} {w : World σ} {w' : World σ'}

theorem visit_matches {n : NodeId} {frame : Frame} {rest : List Frame}
    (visits : Matches S' ((v.visit n (rest.length + 1)).run w) ((v'.visit n (rest.length + 1)).run w')) :
    Matches S' (visit v n frame rest w) (visit v' n frame rest w') := by
  unfold visit
  generalize (v.visit n (rest.length + 1)).run w = x at visits ⊢
  generalize (v'.visit n (rest.length + 1)).run w' = y at visits ⊢
  obtain ⟨result, w₁⟩ := x
  obtain ⟨result', w₁'⟩ := y
  obtain ⟨same, alike⟩ := visits
  obtain rfl : result' = result := same
  cases result' with
  | error e => exact ⟨rfl, alike⟩
  | ok _ => exact ⟨rfl, alike⟩

theorem offer_matches {n : NodeId}
    {settle : Store → Option (List NodeId) → Except Rejection (Cursor × Store)}
    (same : w'.store = w.store) (offers : Matches S' ((v.offer n).run w) ((v'.offer n).run w')) :
    Matches S' (offer v n settle w) (offer v' n settle w') := by
  unfold offer
  rw [same]
  generalize (v.offer n).run w = x at offers ⊢
  generalize (v'.offer n).run w' = y at offers ⊢
  obtain ⟨result, w₁⟩ := x
  obtain ⟨result', w₁'⟩ := y
  obtain ⟨answer, alike⟩ := offers
  obtain rfl : result' = result := answer
  have store : w₁'.store = w₁.store := alike.1
  cases result' with
  | error e => exact ⟨rfl, alike⟩
  | ok reply =>
    simp only [store]
    cases reply.replacement (w.store.element n).kind >>= settle w₁.store with
    | error r => exact ⟨rfl, alike⟩
    | ok settled => exact ⟨rfl, rfl, alike.2⟩

/-- A step of both walks. Only the visitor that is asked has to answer alike. -/
theorem step_matches {frame : Frame} {rest : List Frame} (alike : w.Alike S w')
    (offers : ∀ n, offered? w.store frame rest = some n →
      Matches S' ((v.offer n).run w) ((v'.offer n).run w'))
    (visits : offered? w.store frame rest = none → ∀ n depth,
      Matches S' ((v.visit n depth).run w) ((v'.visit n depth).run w'))
    (idle : offered? w.store frame rest = none → S' w.state w'.state) :
    Matches S' (step v frame rest w) (step v' frame rest w') := by
  rw [step_eq, step_eq, alike.1]
  unfold offered? at offers visits idle
  cases next : move w.store frame rest with
  | visit n frame' =>
    simp only [next] at visits
    exact visit_matches (visits trivial n _)
  | offer n settle =>
    simp only [next] at offers
    have settled : Matches S' (offer v n settle w) (offer v' n settle w') :=
      offer_matches alike.1 (offers n rfl)
    simp only [perform]
    generalize offer v n settle w = x at settled ⊢
    generalize offer v' n settle w' = y at settled ⊢
    obtain ⟨result, w₁⟩ := x
    obtain ⟨result', w₁'⟩ := y
    obtain ⟨same, related⟩ := settled
    obtain rfl : result' = result := same
    exact ⟨rfl, related⟩
  | go stack =>
    simp only [next] at idle
    exact ⟨rfl, alike.1, idle trivial⟩

end

end Walk

def World.logging (w : World σ) (calls : List (Walk.Call σ)) : World (σ × List (Walk.Call σ)) :=
  ⟨w.store, w.state, calls⟩

theorem World.logging_inj {w w' : World σ} {calls calls' : List (Walk.Call σ)} :
    w.logging calls = w'.logging calls' ↔ w = w' ∧ calls = calls' := by
  cases w
  cases w'
  simp [World.logging, and_assoc]

namespace Walk

def logged (action : NodeId → Effect ε σ Reply) (n : NodeId) : Effect ε (σ × List (Call σ)) Reply :=
  .ofFunction fun w =>
    let before : World σ := ⟨w.store, w.state.1⟩
    let (answer, after) := (action n).run before
    (answer, after.logging (w.state.2 ++ [⟨n, before⟩]))

variable {action : NodeId → Effect ε σ Reply}

theorem run_logged (n : NodeId) (w : World σ) (log : List (Call σ)) :
    (logged action n).run (w.logging log) =
      (((action n).run w).1, ((action n).run w).2.logging (log ++ [⟨n, w⟩])) := rfl

theorem step_logged (frame : Frame) (rest : List Frame) (w : World σ) (log : List (Call σ)) :
    step ⟨logged action, ignore⟩ frame rest (w.logging log) =
      ((step ⟨action, ignore⟩ frame rest w).1,
        (step ⟨action, ignore⟩ frame rest w).2.logging (log ++ callsAt frame rest w)) := by
  apply Matches.eq (f := fun st => (st, log ++ callsAt frame rest w))
  apply step_matches (S := fun st logging => logging = (st, log)) ⟨rfl, rfl⟩
  · intro n next
    rw [callsAt_offered next, run_logged]
    exact ⟨rfl, rfl, rfl⟩
  · intro next n depth
    rw [callsAt_quiet next, List.append_nil]
    exact ⟨rfl, rfl, rfl⟩
  · intro next
    rw [callsAt_quiet next, List.append_nil]
    rfl

theorem Reaches.logged {n : Nat} {stack stack' : List Frame} {w w' : World σ} {calls : List (Call σ)}
    (h : Reaches ⟨action, ignore⟩ n stack w calls stack' w') (log : List (Call σ)) :
    ∃ noted, Reaches ⟨Walk.logged action, ignore⟩ n stack (w.logging log) noted stack'
      (w'.logging (log ++ calls)) := by
  induction h generalizing log with
  | refl => exact ⟨[], by simpa using Reaches.refl _ _⟩
  | @step n frame rest _ _ w _ _ _ first _ ih =>
    obtain ⟨noted, tail⟩ := ih (log ++ callsAt frame rest w)
    rw [List.append_assoc] at tail
    exact ⟨_, .step ((step_logged frame rest w log).trans (by rw [first])) tail⟩

theorem Reaches.of_logged {n : Nat} {stack stack' : List Frame} {w : World σ} {log : List (Call σ)}
    {noted : List (Call (σ × List (Call σ)))} {w' : World (σ × List (Call σ))}
    (h : Reaches ⟨Walk.logged action, ignore⟩ n stack (w.logging log) noted stack' w') :
    ∃ calls w₁, w' = w₁.logging (log ++ calls) ∧ Reaches ⟨action, ignore⟩ n stack w calls stack' w₁ := by
  induction n generalizing stack w log noted with
  | zero =>
    cases h
    exact ⟨[], w, by simp, .refl _ _⟩
  | succ n ih =>
    cases h with
    | @step _ frame rest _ _ _ _ _ _ first later =>
      rw [step_logged] at first
      obtain ⟨result, rfl⟩ := Prod.mk.inj first
      obtain ⟨calls, w₁, eq, tail⟩ := ih later
      refine ⟨callsAt frame rest w ++ calls, w₁, by rw [eq, List.append_assoc], .step ?_ tail⟩
      rw [← result]

/-- The calls of a run, the last one included if it fails. -/
def callsOf (action : NodeId → Effect ε σ Reply) : Nat → List Frame → World σ → List (Call σ)
  | _, [], _ => []
  | 0, _ :: _, _ => []
  | fuel + 1, frame :: rest, w =>
    callsAt frame rest w ++ match step ⟨action, ignore⟩ frame rest w with
      | (.error _, _) => []
      | (.ok stack, w) => callsOf action fuel stack w

theorem run_logged_eq (fuel : Nat) (stack : List Frame) (w : World σ) (log : List (Call σ)) :
    run ⟨logged action, ignore⟩ fuel stack (w.logging log) = ((run ⟨action, ignore⟩ fuel stack w).1,
      (run ⟨action, ignore⟩ fuel stack w).2.logging (log ++ callsOf action fuel stack w)) := by
  induction fuel generalizing stack w log with
  | zero => cases stack <;> simp [run, callsOf]
  | succ fuel ih =>
    cases stack with
    | nil => simp [run, callsOf]
    | cons frame rest =>
      rw [run, run, callsOf, step_logged]
      generalize step ⟨action, ignore⟩ frame rest w = x
      obtain ⟨result, w₁⟩ := x
      cases result with
      | error h => simp
      | ok stack => simp only [ih, List.append_assoc]

theorem transform_logged_eq (action : NodeId → Effect ε σ Reply) (fuel : Nat) (root : Root) (w : World σ) :
    transform fuel (logged action) root (w.logging []) = ((transform fuel action root w).1,
      (transform fuel action root w).2.logging (callsOf action fuel [.ofRoot root] w)) :=
  run_logged_eq fuel [.ofRoot root] w []

theorem transform_logged_ok_iff {fuel : Nat} {root : Root} {w w' : World σ} {calls : List (Call σ)} :
    transform fuel (logged action) root (w.logging []) = (.ok (), w'.logging calls) ↔
      ∃ n ≤ fuel, Reaches ⟨action, ignore⟩ n [.ofRoot root] w calls [] w' := by
  unfold transform
  rw [run_eq_ok_iff]
  constructor
  · rintro ⟨n, bound, noted, h⟩
    obtain ⟨calls', w₁, eq, course⟩ := h.of_logged
    obtain ⟨rfl, rfl⟩ := World.logging_inj.mp eq
    exact ⟨n, bound, course⟩
  · rintro ⟨n, bound, h⟩
    obtain ⟨noted, course⟩ := h.logged []
    exact ⟨n, bound, noted, course⟩

theorem transform_logged_error_iff {fuel : Nat} {root : Root} {w w' : World σ}
    {calls : List (Call σ)} {h : Halt ε} (ended : h ≠ .unfinished) :
    transform fuel (logged action) root (w.logging []) = (.error h, w'.logging calls) ↔
      ∃ n < fuel, ∃ earlier frame rest w₁,
        Reaches ⟨action, ignore⟩ n [.ofRoot root] w earlier (frame :: rest) w₁ ∧
        step ⟨action, ignore⟩ frame rest w₁ = (.error h, w') ∧
        calls = earlier ++ callsAt frame rest w₁ := by
  unfold transform
  rw [run_eq_error_iff ended]
  constructor
  · rintro ⟨n, bound, noted, frame, rest, w₂, course, last⟩
    obtain ⟨earlier, w₁, rfl, plain⟩ := course.of_logged
    rw [step_logged] at last
    obtain ⟨result, eq⟩ := Prod.mk.inj last
    obtain ⟨world, rfl⟩ := World.logging_inj.mp eq
    exact ⟨n, bound, earlier, frame, rest, w₁, plain, Prod.ext result world, rfl⟩
  · rintro ⟨n, bound, earlier, frame, rest, w₁, course, last, rfl⟩
    obtain ⟨noted, logging⟩ := course.logged []
    refine ⟨n, bound, noted, frame, rest, _, logging, ?_⟩
    rw [step_logged, last]
    rfl

end Walk

end DocTree
