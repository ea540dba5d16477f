import DocTree.Proofs.Json.Pieces
/-!
What is written of strings of scalar values is a text of scalar values, so UTF-8 has bytes for it. Portable
values have no other strings.
-/

namespace DocTree

namespace Text

variable {t u : Text}

theorem scalar_append : Scalar (t ++ u) ↔ t.Scalar ∧ u.Scalar := List.forall_mem_append

theorem scalar_cons {c : CodePoint} : Scalar (c :: t) ↔ c.isSurrogate = false ∧ t.Scalar :=
  List.forall_mem_cons

theorem scalar_nil : Scalar [] := fun _ member => nomatch member

theorem isSurrogate_ofChar (c : Char) : (CodePoint.ofChar c).isSurrogate = false := by
  have valid : c.val.toNat.isValidChar := c.valid
  have same : (CodePoint.ofChar c).val = c.val.toNat := rfl
  simp only [Nat.isValidChar] at valid
  simp only [CodePoint.isSurrogate, Bool.and_eq_false_iff, decide_eq_false_iff_not]
  omega

theorem scalar_chars (chars : List Char) : Scalar (chars.map CodePoint.ofChar) := by
  intro c member
  obtain ⟨char, -, rfl⟩ := List.mem_map.mp member
  exact isSurrogate_ofChar char

theorem scalar_ofString (s : String) : (ofString s).Scalar := scalar_chars s.toList

theorem Bare.scalar (bare : t.Bare) : t.Scalar := by
  intro c member
  obtain ⟨-, small, -⟩ := bare c member
  simp only [CodePoint.isSurrogate, Bool.and_eq_false_iff, decide_eq_false_iff_not]
  omega

end Text

open Text

namespace Json

open Reader

theorem scalar_escapeChar (ascii : Bool) {c : CodePoint} (scalar : c.isSurrogate = false) :
    (escapeChar ascii c).Scalar := by
  rcases escapeChar_cases ascii c with ⟨letter, form, -⟩ | form | ⟨form, -⟩
  · rw [form]
    exact scalar_chars ['\\', letter]
  · rw [form]
    exact (bare_unicodeEscape c).scalar
  · rw [form]
    exact scalar_cons.mpr ⟨scalar, scalar_nil⟩

theorem scalar_writeString (ascii : Bool) {t : Text} (scalar : t.Scalar) :
    (writeString ascii t).Scalar := by
  refine scalar_append.mpr ⟨scalar_append.mpr ⟨scalar_ofString "\"", ?_⟩, scalar_ofString "\""⟩
  intro c member
  obtain ⟨d, inside, own⟩ := List.mem_flatMap.mp member
  exact scalar_escapeChar ascii (scalar d inside) c own

theorem scalar_composed : Composed Text.Scalar where
  bare _ := Bare.scalar
  append first second := scalar_append.mpr ⟨first, second⟩

/-- What is written of a value has no surrogate if its strings and keys have none. -/
theorem scalar_of_texts (ascii : Bool) {j : Json} (texts : ∀ t, j.HasText t → t.Scalar) :
    (write ascii j).Scalar :=
  scalar_composed.write ascii j fun t inside => scalar_writeString ascii (texts t inside)

theorem Portable.scalar {j : Json} (portable : j.Portable) {t : Text} (inside : HasText t j) : t.Scalar := by
  induction inside with
  | str =>
    cases portable with
    | str scalar => exact scalar
  | item member _ ih =>
    cases portable with
    | arr each => exact ih (each _ member)
  | key member isKey =>
    cases portable with
    | obj _ scalar _ => exact isKey ▸ scalar _ member
  | value member _ ih =>
    cases portable with
    | obj _ _ each => exact ih (each _ member)

theorem scalar_write (ascii : Bool) {j : Json} (portable : j.Portable) : (write ascii j).Scalar :=
  scalar_of_texts ascii fun _ => portable.scalar

end Json

end DocTree
