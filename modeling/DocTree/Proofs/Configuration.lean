import DocTree.Options
/-!
What can be wrong with options where the environment holds texts: a range of versions that cannot be read.
-/

namespace DocTree

namespace Environment

variable {m : Mapping Text} {name : Text} {j : Json}

theorem get?_ofTexts (found : (ofTexts m).get? name = some j) : ∃ t, j = .str t := by
  induction m with
  | nil => cases found
  | cons entry rest ih =>
    obtain ⟨key, t⟩ := entry
    rw [ofTexts, List.map_cons, Mapping.get?] at found
    split at found
    · exact ⟨t, (Option.some.inj found).symm⟩
    · exact ih found

theorem value?_ofTexts (found : (ofTexts m).value? name = some j) : ∃ t, j = .str t := by
  unfold value? at found
  split at found
  · cases found
  · exact get?_ofTexts found

end Environment

theorem Options.ofEnvironment_error [Versioning] {m : Mapping Text} {fault : OptionsFault} {given : Settings}
    (noRange : given.supported = none) (failed : ofEnvironment (.ofTexts m) given = .error fault) :
    ∃ text, fault = .invalidRange text := by
  have switch (name : Text) : ∃ word, Settings.switchOf ((Environment.ofTexts m).value? name) = .ok word := by
    cases found : (Environment.ofTexts m).value? name with
    | none => exact ⟨_, rfl⟩
    | some j =>
      obtain ⟨t, rfl⟩ := Environment.value?_ofTexts found
      exact ⟨_, rfl⟩
  obtain ⟨validate, first⟩ := switch (Settings.variableOf "validate_api_version")
  obtain ⟨ascii, second⟩ := switch (Settings.variableOf "ensure_ascii")
  rw [ofEnvironment, Settings.ofEnvironment, first, second] at failed
  simp only [bind, Except.bind, pure, Except.pure, ofSettings] at failed
  split at failed
  · cases failed
  · next unread =>
    rw [← Except.error.inj failed]
    have ofText {t : Text} {found : OptionsFault} (unread : readRange (.str t) = .error found) :
        ∃ text, found = .invalidRange text := by
      rw [readRange] at unread
      split at unread
      · cases unread
      · exact ⟨t, (Except.error.inj unread).symm⟩
    rw [Settings.withFallback, noRange] at unread
    cases found : (Environment.ofTexts m).value? (Settings.variableOf "supported_api_versions") with
    | none =>
      rw [found] at unread
      exact ofText unread
    | some j =>
      obtain ⟨t, rfl⟩ := Environment.value?_ofTexts found
      rw [found] at unread
      exact ofText unread

end DocTree
