import DocTree.Folder
/-!
Which texts are paths at all, and what a folder keeps when a file is written. Writing changes nothing but
the file that is written, so a path leads where it led before.
-/

namespace DocTree

/-- A text that can be a path: it has bytes, and no null byte is among them. -/
structure Path.Possible (t : Text) : Prop where
  bytes : ∃ bs, Path.bytes t = .ok bs
  noNull : ∀ c ∈ t, c.val ≠ 0

namespace Folder

section

variable {α β : Type} {t : Text} {x : Except FileFault α} {g : α → Except FileFault β}

def OnTheWay (x : Except FileFault α) : Prop := ∀ fault, x = .error fault → fault.isSystem = true

theorem OnTheWay.pure (a : α) : OnTheWay (pure a) := nofun

theorem OnTheWay.throw {fault : FileFault} (system : fault.isSystem = true) :
    OnTheWay (throw fault : Except FileFault α) := by
  intro fault' same
  rw [← Except.error.inj same]
  exact system

theorem OnTheWay.bind (first : OnTheWay x) (later : ∀ a, OnTheWay (g a)) : OnTheWay (x >>= g) := by
  intro fault failed
  cases x with
  | ok a => exact later a fault failed
  | error fault' => exact first fault (congrArg _ (Except.error.inj failed))

theorem OnTheWay.check {p : Prop} [Decidable p] {fault : FileFault} (system : fault.isSystem = true)
    (later : OnTheWay x) : OnTheWay (if p then MonadExcept.throw fault >>= fun _ : PUnit => x else x) := by
  split
  · exact (OnTheWay.throw system).bind fun _ => later
  · exact later

structure Judges (t : Text) (x : Except FileFault α) : Prop where
  error : ∀ fault, x = .error fault → (fault.isSystem = true ↔ Path.Possible t)
  ok : ∀ a, x = .ok a → Path.Possible t

theorem Judges.bind (first : Judges t x) (later : ∀ a, OnTheWay (g a)) : Judges t (x >>= g) := by
  cases x with
  | error fault' =>
    constructor
    · intro fault failed
      exact first.error fault (congrArg _ (Except.error.inj failed))
    · nofun
  | ok a =>
    have possible := first.ok a rfl
    constructor
    · intro fault failed
      exact iff_of_true (later a fault failed) possible
    · intro b _
      exact possible

theorem judges_checkPath (t : Text) : Judges t (checkPath t) := by
  unfold checkPath
  cases found : Path.bytes t with
  | error noBytes =>
    constructor
    · intro fault failed
      obtain rfl := Except.error.inj failed
      refine ⟨nofun, ?_⟩
      rintro ⟨⟨bytes, hasBytes⟩, -⟩
      cases found.symm.trans hasBytes
    · nofun
  | ok bytes =>
    by_cases null : t.any (·.val = 0) = true
    · obtain ⟨c, member, isNull⟩ := List.any_eq_true.mp null
      constructor
      · intro fault failed
        simp only [null, if_true] at failed
        obtain rfl := Except.error.inj failed
        exact ⟨nofun, fun possible => absurd (of_decide_eq_true isNull) (possible.noNull c member)⟩
      · intro a fine
        simp only [null, if_true] at fine
        cases fine
    · have possible : Path.Possible t := by
        refine ⟨⟨bytes, found⟩, fun c member isNull => null ?_⟩
        exact List.any_eq_true.mpr ⟨c, member, decide_eq_true isNull⟩
      have checked : Judges t (Except.ok bytes : Except FileFault Bytes) := ⟨nofun, fun _ _ => possible⟩
      refine checked.bind fun bytes => ?_
      rw [if_neg null]
      refine .check rfl ?_
      split
      · exact .throw rfl
      · exact .pure _

end

section

variable (f : Folder) (t : Text)

theorem enter_onTheWay (here : Path) (step : Text) : OnTheWay (f.enter here step) := by
  unfold enter
  split
  · exact .pure here
  · split
    · exact .pure _
    · split
      · exact .throw rfl
      · dsimp only
        split
        · exact .pure _
        · split <;> exact .throw rfl

theorem enters_onTheWay (here : Path) (steps : List Text) : OnTheWay (steps.foldlM f.enter here) := by
  induction steps generalizing here with
  | nil => exact .pure here
  | cons step rest ih =>
    rw [List.foldlM_cons]
    exact (f.enter_onTheWay here step).bind ih

theorem judges_goal : Judges t (f.goal t) := by
  refine (judges_checkPath t).bind fun _ => ?_
  refine (f.enters_onTheWay _ _).bind fun here => ?_
  split
  · exact .pure _
  · split <;> exact .pure _

/-- Reading a file fails for a text that is no path, or for what the path leads to. -/
theorem judges_read : Judges t (f.read t) := by
  refine Judges.bind ?_ fun found => .pure found.2
  refine (f.judges_goal t).bind fun goal => ?_
  cases goal with
  | folder => exact .throw rfl
  | entry path =>
    refine .check rfl (.check rfl ?_)
    split
    · exact .throw rfl
    · split
      · exact .throw rfl
      · exact .pure _

theorem judges_target : Judges t (f.target t) := by
  refine (f.judges_goal t).bind fun goal => ?_
  cases goal with
  | folder => exact .throw rfl
  | entry path =>
    refine .check rfl (.check rfl ?_)
    split
    · exact .throw rfl
    · exact .pure _

end

section

variable {f f' f'' : Folder} {p q : Path} {content : Bytes} {places : List Path} {t : Text}

@[simp] theorem lookup_putIn_self (files : List (Path × Bytes)) :
    (putIn p content files).lookup p = some content := by
  induction files with
  | nil => simp [putIn]
  | cons entry rest ih =>
    obtain ⟨own, old⟩ := entry
    rw [putIn]
    split
    · next same => simp [same]
    · next other => rw [List.lookup_cons, beq_false_of_ne (Ne.symm other), ih]

theorem lookup_putIn_of_ne (other : q ≠ p) (files : List (Path × Bytes)) :
    (putIn p content files).lookup q = files.lookup q := by
  induction files with
  | nil => simp [putIn, List.lookup_cons, beq_false_of_ne other]
  | cons entry rest ih =>
    obtain ⟨own, old⟩ := entry
    rw [putIn]
    split
    · next same =>
      subst same
      simp [List.lookup_cons, beq_false_of_ne other]
    · rw [List.lookup_cons, List.lookup_cons, ih]

@[simp] theorem file?_put : (f.put p content).file? p = some content := lookup_putIn_self f.files

@[simp] theorem file?_append : (f.append p content).file? p = some ((f.file? p).getD [] ++ content) :=
  file?_put

/-- Nothing has changed but for the files at some places. -/
structure SameBut (places : List Path) (f f' : Folder) : Prop where
  home : f'.home = f.home
  folders : f'.folders = f.folders
  files : ∀ p, p ∉ places → f'.file? p = f.file? p

theorem SameBut.trans (first : f.SameBut places f') (second : f'.SameBut places f'') : f.SameBut places f'' := by
  constructor
  · exact second.home.trans first.home
  · exact second.folders.trans first.folders
  · intro p apart
    exact (second.files p apart).trans (first.files p apart)

theorem SameBut.more {others : List Path} (same : f.SameBut places f') (fewer : ∀ p ∈ places, p ∈ others) :
    f.SameBut others f' := by
  refine ⟨same.home, same.folders, fun p apart => ?_⟩
  exact same.files p fun member => apart (fewer p member)

theorem put_sameBut (f : Folder) (content : Bytes) (member : p ∈ places) : f.SameBut places (f.put p content) := by
  refine ⟨rfl, rfl, fun q apart => ?_⟩
  apply lookup_putIn_of_ne
  rintro rfl
  exact apart member

theorem append_sameBut (f : Folder) (content : Bytes) (member : p ∈ places) :
    f.SameBut places (f.append p content) := put_sameBut f _ member

/-! A path leads to a file or to none, whatever the files are, as long as the folders stay. -/

theorem SameBut.isFolder (same : f.SameBut places f') (p : Path) : f'.isFolder p = f.isFolder p := by
  rw [Folder.isFolder, Folder.isFolder, same.home, same.folders]

theorem toOption_bind {ε α β : Type} (x : Except ε α) (g : α → Except ε β) :
    (x >>= g).toOption = x.toOption.bind fun a => (g a).toOption := by
  cases x <;> rfl

theorem SameBut.enter (same : f.SameBut places f') (here : Path) (step : Text) :
    (f'.enter here step).toOption = (f.enter here step).toOption := by
  simp only [Folder.enter, same.isFolder]
  split
  · rfl
  · split
    · rfl
    · split
      · rfl
      · split <;> rfl

theorem SameBut.enters (same : f.SameBut places f') (here : Path) (steps : List Text) :
    (steps.foldlM f'.enter here).toOption = (steps.foldlM f.enter here).toOption := by
  induction steps generalizing here with
  | nil => rfl
  | cons step rest ih =>
    rw [List.foldlM_cons, List.foldlM_cons, toOption_bind, toOption_bind, same.enter]
    exact congrArg _ (funext ih)

theorem SameBut.goal (same : f.SameBut places f') (t : Text) :
    (f'.goal t).toOption = (f.goal t).toOption := by
  unfold Folder.goal
  simp only [toOption_bind, same.home, same.enters]

theorem SameBut.target (same : f.SameBut places f') (t : Text) :
    (f'.target t).toOption = (f.target t).toOption := by
  unfold Folder.target
  simp only [toOption_bind, same.goal, same.isFolder]

end

end Folder

end DocTree
