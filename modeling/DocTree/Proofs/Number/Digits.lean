import DocTree.Number.Literal
import Mathlib
/-!
Decimal digits: what a number is written with, and what digits in a row are worth.
-/

namespace DocTree

theorem CodePoint.val_ofChar (c : Char) : (CodePoint.ofChar c).val = c.toNat := rfl

theorem CodePoint.isDigit_ofChar {c : Char} (h : c.isDigit = true) : (ofChar c).isDigit = true := by
  simp only [Char.isDigit, Bool.and_eq_true, decide_eq_true_eq, UInt32.le_iff_toNat_le, ge_iff_le] at h
  have range : 48 ≤ c.toNat ∧ c.toNat ≤ 57 := h
  simp only [isDigit, Bool.and_eq_true, decide_eq_true_eq]
  exact range

namespace Text

theorem mem_copies {c : CodePoint} {count : Nat} {t : Text} (member : c ∈ copies count t) : c ∈ t := by
  obtain ⟨copy, isCopy, inside⟩ := List.mem_flatten.mp member
  rwa [(List.mem_replicate.mp isCopy).2] at inside

theorem ofNat_of_lt {d : Nat} (h : d < 10) : ofNat d = [CodePoint.ofChar d.digitChar] := by
  rw [ofNat, Nat.toDigits_of_lt_base h]
  rfl

theorem ofNat_step {n d : Nat} (positive : 0 < n) (h : d < 10) :
    ofNat (10 * n + d) = ofNat n ++ ofNat d := by
  rw [ofNat, ← Nat.toDigits_append_toDigits (by decide) positive h, List.map_append]
  rfl

theorem ofNat_ne_nil (n : Nat) : ofNat n ≠ [] := by
  simp [ofNat]

theorem isDigit_ofNat (n : Nat) : ∀ c ∈ ofNat n, c.isDigit = true := by
  intro c member
  obtain ⟨d, inside, rfl⟩ := List.mem_map.mp member
  exact CodePoint.isDigit_ofChar (Nat.isDigit_of_mem_toDigits (by decide) (by decide) inside)

theorem length_ofNat (n : Nat) : (ofNat n).length = (Nat.toDigits 10 n).length := List.length_map _

theorem decimal_induction {P : Nat → Prop} (digit : ∀ d, d < 10 → P d)
    (step : ∀ n d, 0 < n → d < 10 → P n → P (10 * n + d)) (n : Nat) : P n := by
  induction n using Nat.strongRecOn with
  | ind n ih =>
    by_cases small : n < 10
    · exact digit n small
    · have cut : n = 10 * (n / 10) + n % 10 := by omega
      rw [cut]
      exact step (n / 10) (n % 10) (by omega) (by omega) (ih (n / 10) (by omega))

theorem head_ofNat {n : Nat} (positive : 0 < n) :
    ∃ c rest, ofNat n = c :: rest ∧ c.val ≠ 0x30 ∧ c.isDigit = true := by
  induction n using decimal_induction with
  | digit d small =>
    rw [ofNat_of_lt small]
    have digit : (CodePoint.ofChar d.digitChar).isDigit = true :=
      CodePoint.isDigit_ofChar (by simp [small])
    have value : (CodePoint.ofChar d.digitChar).val = 48 + d := by
      rw [CodePoint.val_ofChar, Nat.toNat_digitChar_of_lt_ten small]
    exact ⟨_, [], rfl, by omega, digit⟩
  | step n d before small ih =>
    obtain ⟨c, rest, eq, other, digit⟩ := ih before
    rw [ofNat_step before small, eq]
    exact ⟨c, rest ++ ofNat d, rfl, other, digit⟩

end Text

namespace Number

theorem value_append (t u : Text) : value (t ++ u) = value t * 10 ^ u.length + value u := by
  have started (u : Text) (n : Nat) : u.foldl (fun n c => 10 * n + (c.val - 0x30)) n =
      n * 10 ^ u.length + value u := by
    induction u generalizing n with
    | nil => simp [value]
    | cons c rest ih =>
      have own : value (c :: rest) = (10 * 0 + (c.val - 0x30)) * 10 ^ rest.length + value rest := ih _
      rw [List.foldl_cons, ih, own, List.length_cons, Nat.pow_succ]
      grind
  rw [value, List.foldl_append, started]
  rfl

theorem value_digit {d : Nat} (h : d < 10) : value (Text.ofNat d) = d := by
  rw [Text.ofNat_of_lt h, value, List.foldl_cons, List.foldl_nil, CodePoint.val_ofChar,
    Nat.toNat_digitChar_of_lt_ten h]
  omega

theorem value_ofNat (n : Nat) : value (Text.ofNat n) = n := by
  induction n using Text.decimal_induction with
  | digit d small => exact value_digit small
  | step n d before small ih =>
    have one : (Text.ofNat d).length = 1 := by rw [Text.ofNat_of_lt small]; rfl
    rw [Text.ofNat_step before small, value_append, ih, value_digit small, one]
    omega

theorem value_zeros (count : Nat) : value (Text.copies count "0") = 0 := by
  induction count with
  | zero => rfl
  | succ count ih =>
    have first : Text.copies (count + 1) "0" = "0" ++ Text.copies count "0" := by
      simp [Text.copies, List.replicate_succ]
    have zero : value "0" = 0 := by decide
    rw [first, value_append, ih, zero]
    omega

theorem value_lt {t : Text} (digits : ∀ c ∈ t, c.isDigit = true) : value t < 10 ^ t.length := by
  induction t using List.reverseRecOn with
  | nil => exact Nat.one_pos
  | append_singleton t c ih =>
    have own : value [c] < 10 := by
      have last := digits c (List.mem_append_right t List.mem_cons_self)
      simp only [CodePoint.isDigit, Bool.and_eq_true, decide_eq_true_eq] at last
      simp only [value, List.foldl_cons, List.foldl_nil]
      omega
    have before := ih fun c member => digits c (List.mem_append_left _ member)
    rw [value_append, List.length_append, List.length_singleton, Nat.pow_succ]
    omega

theorem isShort_iff {n : Int} : isShort n = true ↔ n.natAbs < 10 ^ digitLimit := by
  rw [isShort, decide_eq_true_iff, Text.length_ofNat, Nat.length_toDigits_le_iff (by decide) (by decide)]

/-- The least whole number above zero that is not written, for its number of digits. -/
def tooLong : Int := 10 ^ digitLimit

theorem isShort_tooLong : isShort tooLong = false := by
  rw [← Bool.not_eq_true, isShort_iff, tooLong, Int.natAbs_pow, show Int.natAbs 10 = 10 from rfl]
  exact Nat.lt_irrefl _

/-- A number that is read from a text is not too long to be printed again. -/
theorem isShort_readInt {t : Text} {n : Int} (isRead : readInt t = .ok n) : isShort n = true := by
  rw [isShort_iff]
  unfold readInt at isRead
  generalize signed (bare t) = body at isRead
  obtain ⟨negative, body⟩ := body
  dsimp only at isRead
  have below : value (digitsOf (run body)) < 10 ^ (digitsOf (run body)).length :=
    value_lt fun c member => List.of_mem_filter member
  split at isRead
  · cases isRead
  split at isRead
  · cases isRead
  · next few =>
    have limited := Nat.lt_of_lt_of_le below (Nat.pow_le_pow_right (by decide) (Nat.not_lt.mp few))
    split at isRead
    · cases isRead
    · obtain rfl := Except.ok.inj isRead
      cases negative
      · exact limited
      · simpa using limited

theorem unitsOf_lt (exponent : Fin 2047) (fraction : Fin 0x10000000000000) :
    Binary64.unitsOf exponent fraction < 10 ^ digitLimit := by
  have inDigits : 54 + (exponent.val - 1) ≤ digitLimit := by
    have limit : digitLimit = 4300 := rfl
    omega
  have scaled : Binary64.unitsOf exponent fraction < 2 ^ (54 + (exponent.val - 1)) := by
    have positive := Nat.two_pow_pos (exponent.val - 1)
    rw [Nat.pow_add]
    unfold Binary64.unitsOf
    split
    · exact Nat.lt_of_lt_of_le (by omega) (Nat.le_mul_of_pos_right (2 ^ 54) positive)
    · exact (Nat.mul_lt_mul_right positive).mpr (by omega)
  exact Nat.lt_of_lt_of_le scaled ((Nat.pow_le_pow_left (by decide) _).trans
    (Nat.pow_le_pow_right (by decide) inDigits))

/-- The whole part of a floating point number is not too long to be printed. -/
theorem isShort_truncate {x : Binary64} {n : Int} (whole : x.truncate? = some n) : isShort n = true := by
  obtain ⟨units, isUnits, rfl⟩ := Option.map_eq_some_iff.mp whole
  have small : units.natAbs < 10 ^ digitLimit := by
    cases x with
    | finite negative exponent fraction =>
      have below := unitsOf_lt exponent fraction
      cases negative
      · obtain rfl := Option.some.inj isUnits
        exact below
      · obtain rfl := Option.some.inj isUnits
        rwa [Int.natAbs_neg, Int.natAbs_natCast]
    | infinite | nan => cases isUnits
  rw [isShort_iff, Int.natAbs_tdiv]
  exact Nat.lt_of_le_of_lt (Nat.div_le_self _ _) small

end Number

end DocTree
