import DocTree.Number.Shortest
import DocTree.Proofs.Number.Digits
/-!
The decimal that a floating point number is written with reads back to it. The search for few digits
needs no argument, since it tries what it finds; what it falls back on is exact, and dropping zeros at
the end of a decimal does not change what it reads as.
-/

namespace DocTree

namespace Binary64

theorem roundEven_mul {k num den : Nat} (positive : 0 < k) :
    roundEven (k * num) (k * den) = roundEven num den := by
  have twice : 2 * (k * (num % den)) = k * (2 * (num % den)) := by grind
  have more : k * den < k * (2 * (num % den)) ↔ den < 2 * (num % den) := Nat.mul_lt_mul_left positive
  have half : k * (2 * (num % den)) = k * den ↔ 2 * (num % den) = den := Nat.mul_right_inj (by omega)
  simp only [roundEven, Nat.mul_div_mul_left num den positive, Nat.mul_mod_mul_left, twice, more, half]

theorem roundEven_exact {den : Nat} (m : Nat) (positive : 0 < den) : roundEven (m * den) den = m := by
  have none : ¬ den < 2 * 0 := by omega
  have half : ¬ 2 * 0 = den := by omega
  simp only [roundEven, Nat.mul_div_cancel m positive, Nat.mul_mod_left, none, half, if_false]

theorem ofRatio_mul {k : Nat} (negative : Bool) (num den : Nat) (positive : 0 < k) :
    ofRatio negative (k * num) (k * den) = ofRatio negative num den := by
  simp only [ofRatio, Nat.mul_assoc, Nat.mul_div_mul_left (num * unity) den positive,
    roundEven_mul positive]

theorem log2_eq {u k : Nat} (low : 2 ^ k ≤ u) (high : u < 2 ^ (k + 1)) : Nat.log2 u = k := by
  have nonzero : u ≠ 0 := by
    have := Nat.two_pow_pos k
    omega
  have atLeast := (Nat.le_log2 nonzero).mpr low
  have below := (Nat.log2_lt nonzero).mpr high
  omega

theorem pack_eq {negative : Bool} {m shift : Nat} {exponent : Fin 2047}
    {fraction : Fin 0x10000000000000}
    (isExponent : (if m < 0x10000000000000 then shift else shift + 1) = exponent.val)
    (isFraction : m % 0x10000000000000 = fraction.val) :
    pack negative m shift = finite negative exponent fraction := by
  simp only [pack, isExponent, exponent.isLt, isFraction, dif_pos]

/-- A fraction that is a finite value is read as that value. -/
theorem ofRatio_exact {num den : Nat} (negative : Bool) (exponent : Fin 2047)
    (fraction : Fin 0x10000000000000) (positive : 0 < den) (nonzero : unitsOf exponent fraction ≠ 0)
    (isValue : num * unity = unitsOf exponent fraction * den) :
    ofRatio negative num den = finite negative exponent fraction := by
  have below := fraction.isLt
  have whole : num * unity / den = unitsOf exponent fraction := by
    rw [isValue, Nat.mul_div_cancel _ positive]
  have rounded (shift : Nat) : roundEven (num * unity) (den * Nat.pow 2 shift) =
      roundEven (unitsOf exponent fraction) (Nat.pow 2 shift) := by
    rw [isValue, Nat.mul_comm _ den, roundEven_mul positive]
  simp only [ofRatio, whole, rounded]
  -- Both of the lowest exponents shift by nothing; the lowest one has no hidden bit.
  by_cases lowest : exponent.val = 0
  · have units : unitsOf exponent fraction = fraction.val := by rw [unitsOf, if_pos lowest]
    rw [units] at nonzero ⊢
    have small : Nat.log2 fraction.val < 52 := (Nat.log2_lt nonzero).mpr (by omega)
    have shift : Nat.log2 fraction.val - 52 = 0 := by omega
    have m : roundEven fraction.val (Nat.pow 2 0) = fraction.val := by
      have one := roundEven_exact fraction.val Nat.one_pos
      rwa [Nat.mul_one] at one
    have noCarry : ¬ fraction.val = 0x20000000000000 := by omega
    rw [shift, m, if_neg noCarry]
    refine pack_eq ?_ (Nat.mod_eq_of_lt below)
    rw [if_pos below, lowest]
  · obtain ⟨k, isNext⟩ : ∃ k, exponent.val = k + 1 := ⟨exponent.val - 1, by omega⟩
    have units : unitsOf exponent fraction = (0x10000000000000 + fraction.val) * 2 ^ k := by
      rw [unitsOf, if_neg lowest, isNext]
      rfl
    have log : Nat.log2 (unitsOf exponent fraction) = 52 + k := by
      rw [units]
      refine log2_eq ?_ ?_
      · rw [Nat.pow_add]
        exact Nat.mul_le_mul_right _ (by omega)
      · rw [Nat.add_right_comm, Nat.pow_add]
        exact Nat.mul_lt_mul_of_pos_right (by omega) (Nat.two_pow_pos k)
    have shift : Nat.log2 (unitsOf exponent fraction) - 52 = k := by omega
    have m : roundEven (unitsOf exponent fraction) (Nat.pow 2 k) = 0x10000000000000 + fraction.val := by
      rw [units]
      exact roundEven_exact _ (Nat.two_pow_pos k)
    have noCarry : ¬ 0x10000000000000 + fraction.val = 0x20000000000000 := by omega
    rw [shift, m, if_neg noCarry]
    refine pack_eq ?_ (by omega)
    rw [if_neg (by omega), isNext]

theorem unitsOf_lt (exponent : Fin 2047) (fraction : Fin 0x10000000000000) :
    unitsOf exponent fraction < 2 ^ 2098 := by
  have below := fraction.isLt
  rw [unitsOf]
  split
  · exact Nat.lt_of_lt_of_le below (by decide +kernel)
  · have grows (k : Nat) (last : exponent.val - 1 ≤ k) : Nat.pow 2 (exponent.val - 1) ≤ Nat.pow 2 k :=
      Nat.pow_le_pow_right (by decide) last
    have power := grows 2045 (by omega)
    have total : 2 ^ 53 * Nat.pow 2 2045 = 2 ^ 2098 := by decide +kernel
    have positive : 0 < Nat.pow 2 2045 := by decide +kernel
    generalize Nat.pow 2 2045 = most at power total positive
    calc (0x10000000000000 + fraction.val) * Nat.pow 2 (exponent.val - 1)
        ≤ (0x10000000000000 + fraction.val) * most := Nat.mul_le_mul_left _ power
      _ < 2 ^ 53 * most := Nat.mul_lt_mul_of_pos_right (by omega) positive
      _ = 2 ^ 2098 := total

theorem ofDecimal_zero (negative : Bool) (e : Int) : ofDecimal negative 0 e = finite negative 0 0 := rfl

theorem ratio_step (negative : Bool) (digits : Nat) (e : Int) :
    (match e with
      | .ofNat e => ofRatio negative (digits * 10 * Nat.pow 10 e) 1
      | .negSucc e => ofRatio negative (digits * 10) (Nat.pow 10 (e + 1))) =
      match e + 1 with
      | .ofNat e => ofRatio negative (digits * Nat.pow 10 e) 1
      | .negSucc e => ofRatio negative digits (Nat.pow 10 (e + 1)) := by
  match e with
  | .ofNat k =>
    have power : digits * 10 * Nat.pow 10 k = digits * Nat.pow 10 (k + 1) := by
      rw [Nat.mul_assoc]
      exact congrArg (digits * ·) (Nat.pow_succ'.symm)
    exact congrArg (ofRatio negative · 1) power
  | .negSucc 0 =>
    have cancel := ofRatio_mul negative digits 1 (show 0 < 10 by decide)
    rw [Nat.mul_comm] at cancel
    have unit : digits * Nat.pow 10 0 = digits := Nat.mul_one digits
    exact cancel.trans (congrArg (ofRatio negative · 1) unit.symm)
  | .negSucc (k + 1) =>
    have cancel := ofRatio_mul negative digits (Nat.pow 10 (k + 1)) (show 0 < 10 by decide)
    have power : 10 * Nat.pow 10 (k + 1) = Nat.pow 10 (k + 1 + 1) := Nat.pow_succ'.symm
    rw [Nat.mul_comm, power] at cancel
    exact cancel

theorem ofDecimal_step (negative : Bool) (digits : Nat) (e : Int) :
    ofDecimal negative (digits * 10) e = ofDecimal negative digits (e + 1) := by
  by_cases zero : digits = 0
  · subst zero
    rfl
  · have nonzero : ¬ digits * 10 = 0 := by omega
    have longer : ((Nat.toDigits 10 (digits * 10)).length : Int) + e =
        (Nat.toDigits 10 digits).length + (e + 1) := by
      have split := Text.ofNat_step (Nat.pos_of_ne_zero zero) (show 0 < 10 by decide)
      have lengths := congrArg List.length split
      rw [List.length_append, Text.length_ofNat, Text.length_ofNat, Nat.add_zero, Nat.mul_comm] at lengths
      have one : (Text.ofNat 0).length = 1 := rfl
      omega
    simp only [ofDecimal, if_neg nonzero, if_neg zero, longer]
    refine ite_congr rfl (fun _ => rfl) fun _ => ite_congr rfl (fun _ => rfl) fun _ => ?_
    exact ratio_step negative digits e

theorem ofDecimal_shift (negative : Bool) (digits : Nat) (e : Int) (zeros : Nat) :
    ofDecimal negative (digits * 10 ^ zeros) e = ofDecimal negative digits (e + zeros) := by
  induction zeros generalizing e with
  | zero => rw [Nat.pow_zero, Nat.mul_one, Int.natCast_zero, Int.add_zero]
  | succ zeros ih =>
    rw [Nat.pow_succ, ← Nat.mul_assoc, ofDecimal_step, ih]
    congr 1
    omega

/-- A decimal fraction that is a finite value is read as that value. -/
theorem ofDecimal_exact {digits k : Nat} (exponent : Fin 2047) (fraction : Fin 0x10000000000000)
    (nonzero : unitsOf exponent fraction ≠ 0)
    (notLarge : (Nat.toDigits 10 digits).length ≤ 311 + k)
    (notSmall : k ≤ 329 + (Nat.toDigits 10 digits).length)
    (isValue : digits * unity = unitsOf exponent fraction * Nat.pow 10 (k + 1)) :
    ofDecimal false digits (.negSucc k) = finite false exponent fraction := by
  have positive : 0 < Nat.pow 10 (k + 1) := Nat.pow_pos (by decide)
  have someDigits : digits ≠ 0 := by
    rintro rfl
    rw [Nat.zero_mul] at isValue
    exact Nat.mul_ne_zero nonzero (by omega) isValue.symm
  have notLarge : ¬ (310 : Int) < (Nat.toDigits 10 digits).length + .negSucc k := by omega
  have notSmall : ¬ ((Nat.toDigits 10 digits).length : Int) + .negSucc k < -330 := by omega
  simp only [ofDecimal, if_neg someDigits, if_neg notLarge, if_neg notSmall]
  exact ofRatio_exact false exponent fraction positive nonzero isValue

theorem ofRatio_signed {num den : Nat} {exponent : Fin 2047} {fraction : Fin 0x10000000000000}
    (isValue : ofRatio false num den = finite false exponent fraction) (negative : Bool) :
    ofRatio negative num den = finite negative exponent fraction := by
  have signed (m shift : Nat) (packed : pack false m shift = finite false exponent fraction) :
      pack negative m shift = finite negative exponent fraction := by
    simp only [pack] at packed ⊢
    generalize (if m < 0x10000000000000 then shift else shift + 1) = kept at packed ⊢
    split at packed
    · next small =>
      rw [dif_pos small]
      cases packed
      rfl
    · cases packed
  simp only [ofRatio] at isValue ⊢
  split at isValue
  · next carry =>
    rw [if_pos carry]
    exact signed _ _ isValue
  · next noCarry =>
    rw [if_neg noCarry]
    exact signed _ _ isValue

theorem ofDecimal_signed {digits : Nat} {e : Int} {exponent : Fin 2047}
    {fraction : Fin 0x10000000000000}
    (isValue : ofDecimal false digits e = finite false exponent fraction) (negative : Bool) :
    ofDecimal negative digits e = finite negative exponent fraction := by
  simp only [ofDecimal] at isValue ⊢
  split at isValue
  · next zero =>
    rw [if_pos zero]
    cases isValue
    rfl
  · next nonzero =>
    rw [if_neg nonzero]
    split at isValue
    · cases isValue
    · next notLarge =>
      rw [if_neg notLarge]
      split at isValue
      · next small =>
        rw [if_pos small]
        cases isValue
        rfl
      · next notSmall =>
        rw [if_neg notSmall]
        cases e with
        | ofNat k => exact ofRatio_signed isValue negative
        | negSucc k => exact ofRatio_signed isValue negative

end Binary64

namespace Decimal

open Binary64

variable {value : Binary64} {units : Nat}

/-- Every finite value is a decimal of 1074 places, and that one reads back. -/
theorem read_exact (exponent : Fin 2047) (fraction : Fin 0x10000000000000)
    (nonzero : unitsOf exponent fraction ≠ 0) :
    (exact (unitsOf exponent fraction)).read = finite false exponent fraction := by
  have below := unitsOf_lt exponent fraction
  -- The decimal is neither so large nor so small that its power of ten is left out of account.
  have fewDigits : 2 ^ 2098 * Nat.pow 5 1074 < 10 ^ 1383 := by decide +kernel
  have manyDigits : 10 ^ 743 ≤ Nat.pow 5 1074 := by decide +kernel
  have tens : Nat.pow 5 1074 * unity = Nat.pow 10 1074 := by decide +kernel
  rw [read, Decimal.exact]
  generalize Nat.pow 5 1074 = fives at fewDigits manyDigits tens ⊢
  change ofDecimal false (unitsOf exponent fraction * fives) (.negSucc 1073) = _
  have positive : 0 < fives := Nat.lt_of_lt_of_le (Nat.pow_pos (by decide)) manyDigits
  have atMost : (Nat.toDigits 10 (unitsOf exponent fraction * fives)).length ≤ 1383 := by
    refine (Nat.length_toDigits_le_iff (by decide) (by decide)).mpr ?_
    exact Nat.lt_trans (Nat.mul_lt_mul_of_pos_right below positive) fewDigits
  have atLeast : ¬ (Nat.toDigits 10 (unitsOf exponent fraction * fives)).length ≤ 743 := by
    rw [Nat.length_toDigits_le_iff (by decide) (by decide), Nat.not_lt]
    exact Nat.le_trans manyDigits (Nat.le_mul_of_pos_left _ (Nat.pos_of_ne_zero nonzero))
  refine ofDecimal_exact exponent fraction nonzero (by omega) (by omega) ?_
  rw [Nat.mul_assoc, tens]

theorem read_candidate {e : Int} {d : Decimal} (found : candidate? value units e = some d) :
    d.read = value := by
  have holds := List.find?_some found
  exact of_decide_eq_true holds

theorem read_dropZeros (fuel : Nat) (d : Decimal) : (d.dropZeros fuel).read = d.read := by
  induction fuel generalizing d with
  | zero => rfl
  | succ fuel ih =>
    rw [dropZeros]
    split
    · next more =>
      have ends : d.digits / 10 * 10 = d.digits := by omega
      rw [ih, read, ← ofDecimal_step, ends]
      rfl
    · rfl

/-- What is written of a finite value reads back to it. -/
theorem read_shortest (exponent : Fin 2047) (fraction : Fin 0x10000000000000)
    (nonzero : unitsOf exponent fraction ≠ 0) :
    (shortest (finite false exponent fraction) (unitsOf exponent fraction)).read =
      finite false exponent fraction := by
  simp only [shortest, read_dropZeros]
  generalize isTried : (List.range 17).findSome? _ = tried
  cases tried with
  | none => exact read_exact exponent fraction nonzero
  | some d =>
    obtain ⟨k, -, found⟩ := List.exists_of_findSome?_eq_some isTried
    exact read_candidate found

theorem digits_ne_zero {d : Decimal} {exponent : Fin 2047} {fraction : Fin 0x10000000000000}
    (nonzero : unitsOf exponent fraction ≠ 0) (isValue : d.read = finite false exponent fraction) :
    d.digits ≠ 0 := by
  intro zero
  rw [read, zero, ofDecimal_zero] at isValue
  cases isValue
  exact nonzero rfl

end Decimal

end DocTree
