import DocTree.Proofs.Number.Digits
/-!
Texts of visible ASCII characters that need no quotation: what numbers are written with, in decimal and in
hexadecimal.
-/

namespace DocTree

namespace Text

variable {t u : Text}

/-- Visible ASCII characters, and no quotation mark among them. -/
def Bare (t : Text) : Prop := ∀ c ∈ t, 0x20 < c.val ∧ c.val ≤ 0x7E ∧ c.val ≠ 0x22

instance (t : Text) : Decidable t.Bare := List.decidableBAll _ t

theorem bare_append : Bare (t ++ u) ↔ t.Bare ∧ u.Bare := List.forall_mem_append

theorem bare_cons {c : CodePoint} :
    Bare (c :: t) ↔ (0x20 < c.val ∧ c.val ≤ 0x7E ∧ c.val ≠ 0x22) ∧ t.Bare := List.forall_mem_cons

theorem bare_nil : Bare [] := nofun

theorem bare_ofNat (n : Nat) : (ofNat n).Bare := by
  intro c member
  have digit := isDigit_ofNat n c member
  simp only [CodePoint.isDigit, Bool.and_eq_true, decide_eq_true_eq] at digit
  omega

theorem bare_ofInt (n : Int) : (ofInt n).Bare := by
  cases n with
  | ofNat n => exact bare_ofNat n
  | negSucc n => exact bare_append.mpr ⟨by decide, bare_ofNat (n + 1)⟩

theorem bare_copies (count : Nat) (bare : t.Bare) : (copies count t).Bare :=
  fun c member => bare c (mem_copies member)

theorem bare_hex (width n : Nat) : (hex width n).Bare := by
  have digit : ∀ n : Fin 16, Bare [CodePoint.hexDigit n] := by decide
  induction width generalizing n with
  | zero => exact bare_nil
  | succ width ih => exact bare_append.mpr ⟨ih (n / 16), digit ⟨n % 16, Nat.mod_lt n (by decide)⟩⟩

end Text

end DocTree
