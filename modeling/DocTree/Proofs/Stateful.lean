/-!
Computations that change a state and may fail, which leaves the state as it is at the failure. What is
seen of the state in some view may be kept by all parts of a computation, and so by the whole.
-/

namespace DocTree

abbrev Stateful (ε s : Type) := ExceptT ε (StateM s)

section

variable {ε s ω α β : Type}

theorem run_bind (x : Stateful ε s α) (f : α → Stateful ε s β) (st : s) :
    (x >>= f).run st = match x.run st with
      | (.ok a, st') => (f a).run st'
      | (.error e, st') => (.error e, st') := by
  change ExceptT.bindCont f (x.run st).1 (x.run st).2 = _
  cases x.run st with
  | mk result st' => cases result <;> rfl

theorem run_get_bind (f : s → Stateful ε s α) (st : s) : (get >>= f).run st = (f st).run st := rfl

theorem run_bind_ok {x : Stateful ε s α} {f : α → Stateful ε s β} {st st'' : s} {b : β}
    (ran : (x >>= f).run st = (.ok b, st'')) :
    ∃ a st', x.run st = (.ok a, st') ∧ (f a).run st' = (.ok b, st'') := by
  rw [run_bind] at ran
  cases first : x.run st with
  | mk result st' =>
    rw [first] at ran
    cases result with
    | ok a => exact ⟨a, st', rfl, ran⟩
    | error e => cases congrArg (·.1) ran

theorem run_bind_error {x : Stateful ε s α} {f : α → Stateful ε s β} {st st'' : s} {e : ε}
    (ran : (x >>= f).run st = (.error e, st'')) :
    x.run st = (.error e, st'') ∨ ∃ a st', x.run st = (.ok a, st') ∧ (f a).run st' = (.error e, st'') := by
  rw [run_bind] at ran
  cases first : x.run st with
  | mk result st' =>
    rw [first] at ran
    cases result with
    | ok a => exact .inr ⟨a, st', rfl, ran⟩
    | error e' =>
      obtain ⟨same, rfl⟩ := Prod.mk.inj ran
      exact .inl (by rw [Except.error.inj same])

/-- What a view shows of the state is the same afterwards, whether or not there is a failure. -/
def Keeps (view : s → ω) (x : Stateful ε s α) : Prop := ∀ st, view (x.run st).2 = view st

namespace Keeps

variable {view : s → ω}

theorem pure (a : α) : Keeps view (pure a : Stateful ε s α) := fun _ => rfl

theorem throw (e : ε) : Keeps view (throw e : Stateful ε s α) := fun _ => rfl

theorem get : Keeps view (get : Stateful ε s s) := fun _ => rfl

theorem of_get {f : s → Stateful ε s α} (each : ∀ st, view ((f st).run st).2 = view st) :
    Keeps view (MonadState.get >>= f) := each

theorem after_set {f : PUnit → Stateful ε s α} {st st' : s} (same : view st' = view st)
    (later : Keeps view (f ⟨⟩)) : view ((set st' >>= f).run st).2 = view st := (later st').trans same

theorem bind {x : Stateful ε s α} {f : α → Stateful ε s β} (first : Keeps view x)
    (later : ∀ a, Keeps view (f a)) : Keeps view (x >>= f) := by
  intro st
  have kept := first st
  rw [run_bind]
  generalize x.run st = y at kept ⊢
  obtain ⟨result, st'⟩ := y
  cases result with
  | ok a => exact (later a st').trans kept
  | error e => exact kept

theorem mapM {read : β → Stateful ε s α} (each : ∀ b, Keeps view (read b)) (bs : List β) :
    Keeps view (bs.mapM read) := by
  induction bs with
  | nil => exact .pure []
  | cons b rest ih =>
    rw [List.mapM_cons]
    exact (each b).bind fun a => ih.bind fun as => .pure (a :: as)

theorem forIn {body : β → α → Stateful ε s (ForInStep α)} (each : ∀ b a, Keeps view (body b a))
    (bs : List β) (start : α) : Keeps view (forIn bs start body) := by
  induction bs generalizing start with
  | nil => exact .pure start
  | cons b rest ih =>
    rw [List.forIn_cons]
    refine (each b start).bind fun step => ?_
    cases step with
    | done a => exact .pure a
    | yield a => exact ih a

end Keeps

def FailsBy (sort : ε → Prop) (x : Stateful ε s α) : Prop :=
  ∀ st e st', x.run st = (.error e, st') → sort e

namespace FailsBy

variable {sort : ε → Prop}

theorem pure (a : α) : FailsBy sort (pure a : Stateful ε s α) := by
  intro st e st' failed
  cases congrArg (·.1) failed

theorem bind {x : Stateful ε s α} {f : α → Stateful ε s β} (first : FailsBy sort x)
    (later : ∀ a, FailsBy sort (f a)) : FailsBy sort (x >>= f) := by
  intro st e st' failed
  rcases run_bind_error failed with failed | ⟨a, st₁, -, failed⟩
  · exact first st e st' failed
  · exact later a st₁ e st' failed

theorem forIn {body : β → α → Stateful ε s (ForInStep α)} (each : ∀ b a, FailsBy sort (body b a))
    (bs : List β) (start : α) : FailsBy sort (forIn bs start body) := by
  induction bs generalizing start with
  | nil => exact .pure start
  | cons b rest ih =>
    rw [List.forIn_cons]
    refine (each b start).bind fun step => ?_
    cases step with
    | done a => exact .pure a
    | yield a => exact ih a

theorem result {x : Stateful ε s α} {f : α → Stateful ε s β} {r : Except ε β}
    (never : FailsBy (fun _ => False) x) (later : ∀ a st, ((f a).run st).1 = r) (st : s) :
    ((x >>= f).run st).1 = r := by
  rw [run_bind]
  cases ran : x.run st with
  | mk first st' =>
    cases first with
    | ok a => exact later a st'
    | error e => exact (never st e st' ran).elim

end FailsBy

end

end DocTree
