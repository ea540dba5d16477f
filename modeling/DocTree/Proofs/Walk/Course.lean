import DocTree.Walk.Basic
/-!
The course of a walk: the stacks and worlds that it passes, and the calls that it makes on its way.
A run of a walk is such a course up to the empty stack, or up to a step that fails.
-/

namespace DocTree.Walk

/-- A call of an action: the node that is offered, and the world in which that happens. -/
structure Call (σ : Type) where
  node : NodeId
  world : World σ

/-- What the innermost frame does next. Only a visit and an offer ask anybody. -/
inductive Move
  | visit (n : NodeId) (frame : Frame)
  | offer (n : NodeId) (settle : Store → Option (List NodeId) → Except Rejection (Cursor × Store))
  | go (stack : List Frame)

def move (s : Store) (frame : Frame) (rest : List Frame) : Move :=
  match frame.cursor with
  | none =>
    match Errand.resume s frame.errands with
    | none => .go rest
    | some (container, errands) => .go (⟨errands, some (.enter s container)⟩ :: rest)
  | some (.sequence id index (n :: settled)) =>
    .visit n { frame with cursor := some (.sequence id index settled) }
  | some (.mapping id keys (n :: settled)) =>
    .visit n { frame with cursor := some (.mapping id keys settled) }
  | some (.sequence id index []) =>
    match (s.sequence id)[index]? with
    | none => .go ({ frame with cursor := none } :: rest)
    | some n => .offer n fun s ns => .ok (settleSequence s id index n ns)
  | some (.mapping _ [] []) => .go ({ frame with cursor := none } :: rest)
  | some (.mapping id (key :: keys) []) =>
    match (s.mapping id).get? key with
    | none => .go ({ frame with cursor := some (.mapping id keys []) } :: rest)
    | some n => .offer n fun s' => settleMapping s' id (s.element n).kind key keys n

section

variable {s : Store} {errands : List Errand} {rest : List Frame}

theorem move_enter {container : Container} {more : List Errand}
    (next : Errand.resume s errands = some (container, more)) :
    move s ⟨errands, none⟩ rest = .go (⟨more, some (.enter s container)⟩ :: rest) := by
  simp only [move, next]

theorem move_leave (next : Errand.resume s errands = none) :
    move s ⟨errands, none⟩ rest = .go rest := by
  simp only [move, next]

theorem move_member {id : SequenceId} {index : Nat} {n : NodeId}
    (next : (s.sequence id)[index]? = some n) :
    move s ⟨errands, some (.sequence id index [])⟩ rest =
      .offer n fun s ns => .ok (settleSequence s id index n ns) := by
  simp only [move, next]

theorem move_past {id : SequenceId} {index : Nat} (next : (s.sequence id)[index]? = none) :
    move s ⟨errands, some (.sequence id index [])⟩ rest = .go (⟨errands, none⟩ :: rest) := by
  simp only [move, next]

theorem move_value {id : MappingId} {key : Text} {keys : List Text} {n : NodeId}
    (next : (s.mapping id).get? key = some n) :
    move s ⟨errands, some (.mapping id (key :: keys) [])⟩ rest =
      .offer n fun s' => settleMapping s' id (s.element n).kind key keys n := by
  simp only [move, next]

theorem move_skip {id : MappingId} {key : Text} {keys : List Text}
    (next : (s.mapping id).get? key = none) :
    move s ⟨errands, some (.mapping id (key :: keys) [])⟩ rest =
      .go (⟨errands, some (.mapping id keys [])⟩ :: rest) := by
  simp only [move, next]

end

def offered? (s : Store) (frame : Frame) (rest : List Frame) : Option NodeId :=
  match move s frame rest with
  | .offer n _ => some n
  | _ => none

theorem offered?_of_move {s : Store} {frame : Frame} {rest : List Frame} {n : NodeId}
    {settle : Store → Option (List NodeId) → Except Rejection (Cursor × Store)}
    (next : move s frame rest = .offer n settle) : offered? s frame rest = some n := by
  simp [offered?, next]

theorem offered?_cases {s : Store} {frame : Frame} {rest : List Frame} {n : NodeId}
    (next : offered? s frame rest = some n) :
    (∃ id index, frame.cursor = some (.sequence id index []) ∧ (s.sequence id)[index]? = some n) ∨
    ∃ id key keys, frame.cursor = some (.mapping id (key :: keys) []) ∧
      (s.mapping id).get? key = some n := by
  obtain ⟨errands, cursor⟩ := frame
  match cursor with
  | none =>
    unfold offered? at next
    cases opened : Errand.resume s errands with
    | none => simp [move_leave opened] at next
    | some o => simp [move_enter opened] at next
  | some (.sequence id index (m :: settled)) => simp [offered?, move] at next
  | some (.mapping id keys (m :: settled)) => simp [offered?, move] at next
  | some (.mapping id [] []) => simp [offered?, move] at next
  | some (.sequence id index []) =>
    cases member : (s.sequence id)[index]? with
    | none => simp [offered?, move_past member] at next
    | some m =>
      obtain rfl : m = n := by simpa [offered?, move_member member] using next
      exact .inl ⟨id, index, rfl, member⟩
  | some (.mapping id (key :: keys) []) =>
    cases value : (s.mapping id).get? key with
    | none => simp [offered?, move_skip value] at next
    | some m =>
      obtain rfl : m = n := by simpa [offered?, move_value value] using next
      exact .inr ⟨id, key, keys, rfl, value⟩

section

variable {ε σ σ' : Type}

def perform (v : Visitor ε σ) (frame : Frame) (rest : List Frame) (w : World σ) :
    Move → Except (Halt ε) (List Frame) × World σ
  | .visit n frame' => visit v n frame' rest w
  | .offer n settle =>
    let (result, w) := offer v n settle w
    (result.map fun c => { frame with cursor := some c } :: rest, w)
  | .go stack => (.ok stack, w)

theorem step_eq (v : Visitor ε σ) (frame : Frame) (rest : List Frame) (w : World σ) :
    step v frame rest w = perform v frame rest w (move w.store frame rest) := by
  obtain ⟨errands, cursor⟩ := frame
  match cursor with
  | none =>
    simp only [step, move]
    cases Errand.resume w.store errands <;> rfl
  | some (.sequence id index (n :: settled)) => rfl
  | some (.mapping id keys (n :: settled)) => rfl
  | some (.sequence id index []) =>
    simp only [step, move]
    cases (w.store.sequence id)[index]? <;> rfl
  | some (.mapping id [] []) => rfl
  | some (.mapping id (key :: keys) []) =>
    simp only [step, move]
    cases (w.store.mapping id).get? key <;> rfl

def callsAt (frame : Frame) (rest : List Frame) (w : World σ) : List (Call σ) :=
  ((offered? w.store frame rest).map (⟨·, w⟩)).toList

section

variable {frame : Frame} {rest : List Frame} {w : World σ}

theorem callsAt_offered {n : NodeId} (next : offered? w.store frame rest = some n) :
    callsAt frame rest w = [⟨n, w⟩] := by
  simp [callsAt, next]

theorem callsAt_quiet (next : offered? w.store frame rest = none) : callsAt frame rest w = [] := by
  simp [callsAt, next]

end

/-- A number of steps that do not fail, from one stack and world to others, and their calls. -/
inductive Reaches (v : Visitor ε σ) :
    Nat → List Frame → World σ → List (Call σ) → List Frame → World σ → Prop
  | refl (stack : List Frame) (w : World σ) : Reaches v 0 stack w [] stack w
  | step {n : Nat} {frame : Frame} {rest stack stack' : List Frame} {w w₁ w' : World σ}
      {calls : List (Call σ)} (first : step v frame rest w = (.ok stack, w₁))
      (later : Reaches v n stack w₁ calls stack' w') :
      Reaches v (n + 1) (frame :: rest) w (callsAt frame rest w ++ calls) stack' w'

namespace Reaches

variable {v : Visitor ε σ} {n m : Nat} {stack stack₁ stack₂ : List Frame} {w w₁ w₂ : World σ}
  {calls later : List (Call σ)}

theorem trans (h : Reaches v n stack w calls stack₁ w₁) (h' : Reaches v m stack₁ w₁ later stack₂ w₂) :
    Reaches v (n + m) stack w (calls ++ later) stack₂ w₂ := by
  induction h with
  | refl => simpa using h'
  | step first _ ih =>
    have joined := Reaches.step first (ih h')
    rw [Nat.add_right_comm, List.append_assoc]
    exact joined

theorem snoc {frame : Frame} {rest : List Frame} (h : Reaches v n stack w calls (frame :: rest) w₁)
    (last : Walk.step v frame rest w₁ = (.ok stack₂, w₂)) :
    Reaches v (n + 1) stack w (calls ++ callsAt frame rest w₁) stack₂ w₂ := by
  have one : Reaches v 1 (frame :: rest) w₁ (callsAt frame rest w₁ ++ []) stack₂ w₂ :=
    .step last (.refl _ _)
  simpa using h.trans one

/-- Of two courses from one place, the shorter is the beginning of the longer. -/
theorem split (h : Reaches v n stack w calls stack₁ w₁)
    (h' : Reaches v (n + m) stack w later stack₂ w₂) :
    ∃ last, later = calls ++ last ∧ Reaches v m stack₁ w₁ last stack₂ w₂ := by
  induction h generalizing later with
  | refl => exact ⟨later, rfl, by simpa using h'⟩
  | @step n _ _ _ _ _ _ _ _ first _ ih =>
    rw [Nat.add_right_comm] at h'
    cases h' with
    | step first' rest' =>
      have same := first.symm.trans first'
      simp only [Prod.mk.injEq, Except.ok.injEq] at same
      obtain ⟨rfl, rfl⟩ := same
      obtain ⟨last, eq, tail⟩ := ih rest'
      exact ⟨last, by rw [eq, List.append_assoc], tail⟩

theorem of_go {frame : Frame} {rest : List Frame} (next : move w.store frame rest = .go stack) :
    Reaches v 1 (frame :: rest) w [] stack w := by
  have first : Walk.step v frame rest w = (.ok stack, w) := by
    rw [step_eq, next]
    rfl
  have quiet : callsAt frame rest w = [] := callsAt_quiet (by simp [offered?, next])
  have course := Reaches.step first (.refl stack w)
  rwa [quiet] at course

theorem of_visit {frame frame' : Frame} {rest : List Frame} {m : NodeId}
    (next : move w.store frame rest = .visit m frame')
    (visited : (v.visit m (rest.length + 1)).run w = (.ok (), w₁)) :
    Reaches v 1 (frame :: rest) w [] (.below m :: frame' :: rest) w₁ := by
  have first : Walk.step v frame rest w = (.ok (.below m :: frame' :: rest), w₁) := by
    rw [step_eq, next]
    simp only [perform, visit, visited]
  have quiet : callsAt frame rest w = [] := callsAt_quiet (by simp [offered?, next])
  have course := Reaches.step first (.refl _ w₁)
  rwa [quiet] at course

theorem of_empty (h : Reaches v n [] w calls stack w₁) : n = 0 ∧ calls = [] ∧ stack = [] ∧ w₁ = w := by
  cases h
  exact ⟨rfl, rfl, rfl, rfl⟩

/-- A course to the end leads through every place to which a course from the same place leads. -/
theorem within (h : Reaches v n stack w calls stack₁ w₁) (ends : Reaches v m stack w later [] w₂) :
    ∃ k last, m = n + k ∧ later = calls ++ last ∧ Reaches v k stack₁ w₁ last [] w₂ := by
  rcases Nat.le_total n m with less | less
  · obtain ⟨k, rfl⟩ := Nat.exists_eq_add_of_le less
    obtain ⟨last, rfl, tail⟩ := h.split ends
    exact ⟨k, last, rfl, rfl, tail⟩
  · obtain ⟨k, rfl⟩ := Nat.exists_eq_add_of_le less
    obtain ⟨last, rfl, tail⟩ := ends.split h
    obtain ⟨rfl, rfl, rfl, rfl⟩ := tail.of_empty
    exact ⟨0, [], rfl, by simp, .refl _ _⟩

end Reaches

section

variable {v : Visitor ε σ} {fuel : Nat} {stack : List Frame} {w w' : World σ}

/-- A run comes to its end if a course leads to the empty stack. -/
theorem run_eq_ok_iff :
    run v fuel stack w = (.ok (), w') ↔ ∃ n ≤ fuel, ∃ calls, Reaches v n stack w calls [] w' := by
  induction fuel generalizing stack w with
  | zero =>
    cases stack with
    | nil =>
      simp only [run, Prod.mk.injEq, true_and]
      constructor
      · rintro rfl
        exact ⟨0, Nat.le_refl 0, [], .refl _ _⟩
      · rintro ⟨n, _, calls, h⟩
        exact h.of_empty.2.2.2.symm
    | cons frame rest =>
      simp only [run, Prod.mk.injEq, reduceCtorEq, false_and, false_iff]
      rintro ⟨n, bound, calls, h⟩
      cases h
      omega
  | succ fuel ih =>
    cases stack with
    | nil =>
      simp only [run, Prod.mk.injEq, true_and]
      constructor
      · rintro rfl
        exact ⟨0, Nat.zero_le _, [], .refl _ _⟩
      · rintro ⟨n, _, calls, h⟩
        exact h.of_empty.2.2.2.symm
    | cons frame rest =>
      rw [run]
      constructor
      · intro finished
        split at finished
        · simp at finished
        · next stack w₁ first =>
          obtain ⟨n, bound, calls, h⟩ := ih.mp finished
          exact ⟨n + 1, by omega, _, .step first h⟩
      · rintro ⟨n, bound, calls, h⟩
        cases h with
        | step first later =>
          rw [first]
          exact ih.mpr ⟨_, by omega, _, later⟩

/-- A run never ends if some frame is open at first and every step from what holds there keeps it. -/
theorem run_unfinished {open_ : List Frame → World σ → Prop} (nonempty : ∀ w, ¬open_ [] w)
    (goesOn : ∀ frame rest w, open_ (frame :: rest) w →
      ∃ stack w', step v frame rest w = (.ok stack, w') ∧ open_ stack w')
    (fuel : Nat) (h : open_ stack w) : (run v fuel stack w).1 = .error .unfinished := by
  induction fuel generalizing stack w with
  | zero =>
    cases stack with
    | nil => exact absurd h (nonempty w)
    | cons frame rest => rfl
  | succ fuel ih =>
    cases stack with
    | nil => exact absurd h (nonempty w)
    | cons frame rest =>
      obtain ⟨stack, w', next, later⟩ := goesOn frame rest w h
      rw [run, next]
      exact ih later

/-- A run fails if a course leads to a step that fails. -/
theorem run_eq_error_iff {h : Halt ε} (ended : h ≠ .unfinished) :
    run v fuel stack w = (.error h, w') ↔ ∃ n < fuel, ∃ calls frame rest w₁,
      Reaches v n stack w calls (frame :: rest) w₁ ∧ step v frame rest w₁ = (.error h, w') := by
  induction fuel generalizing stack w with
  | zero =>
    cases stack with
    | nil => simp [run]
    | cons frame rest => simp [run, ended.symm]
  | succ fuel ih =>
    cases stack with
    | nil =>
      simp only [run, Prod.mk.injEq, reduceCtorEq, false_and, false_iff]
      rintro ⟨n, _, calls, frame, rest, w₁, h, _⟩
      exact absurd h.of_empty.2.2.1 (List.cons_ne_nil _ _)
    | cons frame rest =>
      rw [run]
      constructor
      · intro failed
        split at failed
        · next h' w₁ first =>
          obtain ⟨same, rfl⟩ : h' = h ∧ w₁ = w' := by simpa using failed
          exact ⟨0, by omega, [], frame, rest, w, .refl _ _, same ▸ first⟩
        · next stack w₁ first =>
          obtain ⟨n, bound, calls, frame', rest', w₂, h, last⟩ := ih.mp failed
          exact ⟨n + 1, by omega, _, frame', rest', w₂, .step first h, last⟩
      · rintro ⟨n, bound, calls, frame', rest', w₁, h, last⟩
        cases h with
        | refl => rw [last]
        | step first later =>
          rw [first]
          exact ih.mpr ⟨_, by omega, _, frame', rest', w₁, later, last⟩

end

end

end DocTree.Walk
