import DocTree.Proofs.Json.Numbers
/-!
The text of a string reads back, whichever characters are escaped. A character above the last unit is
escaped as two units, which the reader joins again; half of a pair would not come back, so the
characters are scalar values.
-/

namespace DocTree

/-- A text of Unicode scalar values. -/
def Text.Scalar (t : Text) : Prop := ∀ c ∈ t, c.isSurrogate = false

instance (t : Text) : Decidable t.Scalar := inferInstanceAs (Decidable (∀ c ∈ t, c.isSurrogate = false))

theorem CodePoint.val_ofNat {n : Nat} (h : n < 0x110000) : (ofNat n).val = n := by
  rw [ofNat, dif_pos h]

theorem CodePoint.ofNat_val (c : CodePoint) : ofNat c.val = c := by
  rw [ofNat, dif_pos c.isLt]

namespace Json.Reader

variable {c : CodePoint} {rest : Text} {p : Nat}

theorem hexValue?_hexDigit {n : Nat} (h : n < 16) : (CodePoint.hexDigit n).hexValue? = some n := by
  have all : ∀ n : Fin 16, (CodePoint.hexDigit n).hexValue? = some n.val := by decide
  exact all ⟨n, h⟩

theorem hex4?_hex {n : Nat} (h : n < 0x10000) (rest : Text) : hex4? (Text.hex 4 n ++ rest) = some n := by
  have digit (k : Nat) : (CodePoint.hexDigit (k % 16)).hexValue? = some (k % 16) :=
    hexValue?_hexDigit (Nat.mod_lt k (by decide))
  have joined : ((n / 16 / 16 / 16 % 16 * 16 + n / 16 / 16 % 16) * 16 + n / 16 % 16) * 16 + n % 16 = n := by
    omega
  simp only [Text.hex, List.nil_append, List.cons_append, hex4?, digit]
  exact congrArg some joined

theorem drop_hex (n : Nat) (rest : Text) : (Text.hex 4 n ++ rest).drop 4 = rest := rfl

theorem readUnits_one (single : c.isHighSurrogate = false) (small : c.val < 0x10000) (more : rest ≠ []) :
    readUnits ⟨p, Text.hex 4 c.val ++ rest⟩ = .ok (c, 4) := by
  have goesOn : rest.isEmpty = false := by simpa using more
  simp only [readUnits, drop_hex, goesOn, hex4?_hex small, CodePoint.ofNat_val, single]
  rfl

theorem readUnits_two (large : 0x10000 ≤ c.val) (more : rest ≠ []) :
    readUnits ⟨p, Text.hex 4 (0xD800 + (c.val - 0x10000) / 0x400) ++
      (unitEscape (0xDC00 + (c.val - 0x10000) % 0x400) ++ rest)⟩ = .ok (c, 10) := by
  have bound := c.isLt
  have highUnit : 0xD800 + (c.val - 0x10000) / 0x400 < 0x10000 := by omega
  have lowUnit : 0xDC00 + (c.val - 0x10000) % 0x400 < 0x10000 := by omega
  have highValue := CodePoint.val_ofNat (Nat.lt_trans highUnit (show 0x10000 < 0x110000 by decide))
  have lowValue := CodePoint.val_ofNat (Nat.lt_trans lowUnit (show 0x10000 < 0x110000 by decide))
  have isHigh : (CodePoint.ofNat (0xD800 + (c.val - 0x10000) / 0x400)).isHighSurrogate = true := by
    simp only [CodePoint.isHighSurrogate, highValue, Bool.and_eq_true, decide_eq_true_eq]
    omega
  have isLow : (CodePoint.ofNat (0xDC00 + (c.val - 0x10000) % 0x400)).isLowSurrogate = true := by
    simp only [CodePoint.isLowSurrogate, lowValue, Bool.and_eq_true, decide_eq_true_eq]
    omega
  have joined : CodePoint.joinSurrogates (CodePoint.ofNat (0xD800 + (c.val - 0x10000) / 0x400))
      (CodePoint.ofNat (0xDC00 + (c.val - 0x10000) % 0x400)) = c := by
    have total : 0x10000 + (0xD800 + (c.val - 0x10000) / 0x400 - 0xD800) * 0x400 +
        (0xDC00 + (c.val - 0x10000) % 0x400 - 0xDC00) = c.val := by omega
    rw [CodePoint.joinSurrogates, highValue, lowValue, total, CodePoint.ofNat_val]
  have goesOn : rest.isEmpty = false := by simpa using more
  have follows (n : Nat) : secondUnitFollows (unitEscape n ++ rest) = !rest.isEmpty := rfl
  have second (m n : Nat) : (Text.hex 4 m ++ (unitEscape n ++ rest)).drop 6 = Text.hex 4 n ++ rest := rfl
  have notEnd (n : Nat) : (unitEscape n ++ rest).isEmpty = false := rfl
  simp only [readUnits, drop_hex, notEnd, hex4?_hex highUnit, isHigh, follows, goesOn, second,
    hex4?_hex lowUnit, isLow, joined]
  rfl

theorem readChars_escaped {more : Text} {count : Nat} (start fuel : Nat)
    (escape : readEscape start ⟨p, CodePoint.ofChar '\\' :: more⟩ = .ok (c, count)) :
    readChars start (fuel + 1) ⟨p, CodePoint.ofChar '\\' :: more⟩ = (do
      let (t, after) ← readChars start fuel ((⟨p, CodePoint.ofChar '\\' :: more⟩ : Spot).skip count)
      return (c :: t, after)) := by
  have noQuote : ¬ (CodePoint.ofChar '\\').val = 0x22 := by decide
  have backslash : (CodePoint.ofChar '\\').val = 0x5C := rfl
  simp only [readChars, if_neg noQuote, if_pos backslash, escape]
  rfl

theorem readEscape_units (start : Nat) (rest : Text) :
    readEscape start ⟨p, CodePoint.ofChar '\\' :: CodePoint.ofChar 'u' :: rest⟩ = (do
      let (c, count) ← readUnits ⟨p + 2, rest⟩
      return (c, count + 2)) := rfl

theorem readEscape_unicode (start : Nat) (scalar : c.isSurrogate = false) (more : rest ≠ []) :
    readEscape start ⟨p, unicodeEscape c ++ rest⟩ = .ok (c, (unicodeEscape c).length) := by
  rw [unicodeEscape]
  split
  · next small =>
    have single : c.isHighSurrogate = false := by
      simp only [CodePoint.isSurrogate, CodePoint.isHighSurrogate, Bool.and_eq_false_iff,
        decide_eq_false_iff_not] at scalar ⊢
      omega
    have units := readUnits_one (p := p + 2) single small more
    refine (readEscape_units start (Text.hex 4 c.val ++ rest)).trans ?_
    rw [units]
    rfl
  · next large =>
    have units := readUnits_two (p := p + 2) (Nat.not_lt.mp large) more
    refine (readEscape_units start (Text.hex 4 (0xD800 + (c.val - 0x10000) / 0x400) ++
      (unitEscape (0xDC00 + (c.val - 0x10000) % 0x400) ++ rest))).trans ?_
    rw [units]
    rfl

/-- A character is written as a letter after a backslash, as its number, or as itself. -/
theorem escapeChar_cases (ascii : Bool) (c : CodePoint) :
    (∃ letter : Char, escapeChar ascii c = [CodePoint.ofChar '\\', CodePoint.ofChar letter] ∧
      (CodePoint.ofChar letter).val ≠ 0x75 ∧ letterEscape? (CodePoint.ofChar letter) = some c) ∨
    escapeChar ascii c = unicodeEscape c ∨
    (escapeChar ascii c = [c] ∧ c.val ≠ 0x22 ∧ c.val ≠ 0x5C ∧ ¬ c.val < 0x20) := by
  have known {n : Nat} (isChar : c.val = n) : c = CodePoint.ofNat n := by
    rw [← isChar, CodePoint.ofNat_val]
  by_cases quote : c.val = 0x22
  · obtain rfl := known quote
    exact .inl ⟨'"', rfl, by decide, rfl⟩
  by_cases backslash : c.val = 0x5C
  · obtain rfl := known backslash
    exact .inl ⟨'\\', rfl, by decide, rfl⟩
  by_cases newline : c.val = 0x0A
  · obtain rfl := known newline
    exact .inl ⟨'n', rfl, by decide, rfl⟩
  by_cases carriageReturn : c.val = 0x0D
  · obtain rfl := known carriageReturn
    exact .inl ⟨'r', rfl, by decide, rfl⟩
  by_cases tab : c.val = 0x09
  · obtain rfl := known tab
    exact .inl ⟨'t', rfl, by decide, rfl⟩
  by_cases formFeed : c.val = 0x0C
  · obtain rfl := known formFeed
    exact .inl ⟨'f', rfl, by decide, rfl⟩
  by_cases backspace : c.val = 0x08
  · obtain rfl := known backspace
    exact .inl ⟨'b', rfl, by decide, rfl⟩
  rw [escapeChar, if_neg quote, if_neg backslash, if_neg newline, if_neg carriageReturn, if_neg tab,
    if_neg formFeed, if_neg backspace]
  split
  · exact .inr (.inl rfl)
  · next plain => exact .inr (.inr ⟨rfl, quote, backslash, fun control => plain (.inl control)⟩)

theorem unicodeEscape_eq (c : CodePoint) :
    ∃ digits, unicodeEscape c = CodePoint.ofChar '\\' :: digits := by
  rw [unicodeEscape]
  split <;> exact ⟨_, rfl⟩

theorem escapeChar_nonempty (ascii : Bool) (c : CodePoint) : 1 ≤ (escapeChar ascii c).length := by
  rcases escapeChar_cases ascii c with ⟨letter, form, -⟩ | form | ⟨form, -⟩
  · rw [form]
    exact Nat.le_add_left 1 1
  · obtain ⟨digits, isEscape⟩ := unicodeEscape_eq c
    rw [form, isEscape]
    exact Nat.le_add_left 1 _
  · rw [form]
    exact Nat.le_refl 1

theorem readChars_escapeChar (ascii : Bool) (start fuel : Nat) (scalar : c.isSurrogate = false)
    (more : rest ≠ []) :
    readChars start (fuel + 1) ⟨p, escapeChar ascii c ++ rest⟩ = (do
      let (t, after) ← readChars start fuel ⟨p + (escapeChar ascii c).length, rest⟩
      return (c :: t, after)) := by
  have left : (⟨p, escapeChar ascii c ++ rest⟩ : Spot).skip (escapeChar ascii c).length =
      ⟨p + (escapeChar ascii c).length, rest⟩ := Spot.skip_append p _ rest
  rw [← left]
  rcases escapeChar_cases ascii c with ⟨letter, form, noNumber, known⟩ | form |
    ⟨form, noQuote, noBackslash, noControl⟩
  · have escape : readEscape start ⟨p, CodePoint.ofChar '\\' :: CodePoint.ofChar letter :: rest⟩ =
        .ok (c, 2) := by
      simp only [readEscape, Spot.skip, List.drop_succ_cons, List.drop_zero, if_neg noNumber, known]
    rw [form]
    exact readChars_escaped start fuel escape
  · obtain ⟨digits, isEscape⟩ := unicodeEscape_eq c
    have escape := readEscape_unicode (p := p) start scalar more
    rw [form]
    rw [isEscape] at escape ⊢
    exact readChars_escaped start fuel escape
  · rw [form]
    simp only [List.cons_append, readChars, if_neg noQuote, if_neg noBackslash, if_neg noControl]
    rfl

theorem readChars_flatMap (ascii : Bool) (start : Nat) {t : Text} {fuel : Nat} (scalar : t.Scalar)
    (enough : t.length < fuel) :
    readChars start fuel ⟨p, t.flatMap (escapeChar ascii) ++ CodePoint.ofChar '"' :: rest⟩ =
      .ok (t, ⟨p + (t.flatMap (escapeChar ascii)).length + 1, rest⟩) := by
  induction t generalizing p fuel with
  | nil =>
    obtain ⟨fuel, rfl⟩ := Nat.exists_eq_add_one_of_ne_zero (Nat.ne_of_gt enough)
    rfl
  | cons c t ih =>
    obtain ⟨fuel, rfl⟩ := Nat.exists_eq_add_one_of_ne_zero (Nat.ne_of_gt (Nat.zero_lt_of_lt enough))
    have own := scalar c List.mem_cons_self
    have later := ih (p := p + (escapeChar ascii c).length)
      (fun d member => scalar d (List.mem_cons_of_mem c member)) (Nat.lt_of_succ_lt_succ enough)
    have more : t.flatMap (escapeChar ascii) ++ CodePoint.ofChar '"' :: rest ≠ [] :=
      List.append_ne_nil_of_right_ne_nil _ (List.cons_ne_nil _ _)
    rw [List.flatMap_cons, List.append_assoc, readChars_escapeChar ascii start fuel own more, later,
      List.length_append, ← Nat.add_assoc p]
    rfl

theorem length_flatMap_escapeChar (ascii : Bool) (t : Text) :
    t.length ≤ (t.flatMap (escapeChar ascii)).length := by
  induction t with
  | nil => exact Nat.le_refl 0
  | cons c t ih =>
    have first := escapeChar_nonempty ascii c
    rw [List.flatMap_cons, List.length_append, List.length_cons]
    omega

theorem writeString_eq (ascii : Bool) (t rest : Text) :
    writeString ascii t ++ rest =
      CodePoint.ofChar '"' :: (t.flatMap (escapeChar ascii) ++ CodePoint.ofChar '"' :: rest) := by
  simp only [writeString, List.append_assoc]
  rfl

theorem length_writeString (ascii : Bool) (t : Text) :
    (writeString ascii t).length = (t.flatMap (escapeChar ascii)).length + 2 := by
  have quote : (Text.ofString "\"").length = 1 := rfl
  simp only [writeString, List.length_append, quote]
  omega

theorem readString_writeString (ascii : Bool) {t : Text} {fuel : Nat} (scalar : t.Scalar)
    (enough : t.length < fuel) :
    readString fuel ⟨p, writeString ascii t ++ rest⟩ =
      .ok (t, ⟨p + (writeString ascii t).length, rest⟩) := by
  have read : _ = Except.ok (t, (⟨_, rest⟩ : Spot)) := readChars_flatMap (p := p + 1) ascii p scalar enough
  have place : p + 1 + (t.flatMap (escapeChar ascii)).length + 1 = p + (writeString ascii t).length := by
    rw [length_writeString]
    omega
  rw [place] at read
  rw [writeString_eq]
  exact read

end Json.Reader

end DocTree
