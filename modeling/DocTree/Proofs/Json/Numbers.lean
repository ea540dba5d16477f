import DocTree.Json.Reader
import DocTree.Json.Writer
import DocTree.Proofs.Number.Shortest
/-!
The text of a number reads back. A number ends where nothing follows that could belong to it, so
every statement has what comes after the number in it.
-/

namespace DocTree.Json.Reader

variable {w ds rest more : Text} {p : Nat}

theorem Spot.skip_append (p : Nat) (w rest : Text) :
    (⟨p, w ++ rest⟩ : Spot).skip w.length = ⟨p + w.length, rest⟩ := by
  rw [Spot.skip, List.drop_left]

theorem Spot.skip_zero (s : Spot) : s.skip 0 = s := rfl

theorem Spot.skip_skip (s : Spot) (m n : Nat) : (s.skip m).skip n = s.skip (m + n) := by
  simp only [Spot.skip, List.drop_drop, Nat.add_assoc]

def EndsDigits (rest : Text) : Prop := ∀ c ∈ rest.head?, c.isDigit = false

/-- Nothing comes next that could belong to a number. -/
def EndsNumber (rest : Text) : Prop :=
  ∀ c ∈ rest.head?, c.isDigit = false ∧ c.val ≠ 0x2E ∧ c.val ≠ 0x65 ∧ c.val ≠ 0x45

theorem EndsNumber.endsDigits (ends : EndsNumber rest) : EndsDigits rest :=
  fun c isHead => (ends c isHead).1

theorem endsDigits_cons {c : CodePoint} (other : c.isDigit = false) : EndsDigits (c :: rest) := by
  intro first isHead
  cases isHead
  exact other

theorem digits_append (all : ∀ c ∈ w, c.isDigit = true) (ends : EndsDigits rest) :
    digits (w ++ rest) = w := by
  have none : rest.takeWhile CodePoint.isDigit = [] := by
    cases rest with
    | nil => rfl
    | cons c rest => rw [List.takeWhile_cons_of_neg (Bool.not_eq_true _ ▸ ends c rfl)]
  rw [digits, List.takeWhile_append_of_pos all, none, List.append_nil]

/-- The digits before the point: a zero alone, or digits that do not begin with one. -/
structure IsWhole (w : Text) : Prop where
  isDigit : ∀ c ∈ w, c.isDigit = true
  start : ∃ c rest, w = c :: rest ∧ (c.val = 0x30 → rest = [])

theorem isWhole_zero : IsWhole "0" := by
  refine ⟨?_, CodePoint.ofChar '0', [], rfl, fun _ => rfl⟩
  intro c member
  cases List.mem_singleton.mp member
  rfl

theorem isWhole_append {n : Nat} (positive : 0 < n) (all : ∀ c ∈ ds, c.isDigit = true) :
    IsWhole (Text.ofNat n ++ ds) := by
  obtain ⟨c, others, eq, other, -⟩ := Text.head_ofNat positive
  refine ⟨?_, c, others ++ ds, by rw [eq, List.cons_append], fun zero => absurd zero other⟩
  intro c member
  cases List.mem_append.mp member with
  | inl inside => exact Text.isDigit_ofNat n c inside
  | inr inside => exact all c inside

theorem isWhole_ofNat (n : Nat) : IsWhole (Text.ofNat n) := by
  cases n with
  | zero => exact isWhole_zero
  | succ n =>
    have none : ∀ c ∈ ([] : Text), c.isDigit = true := fun _ member => nomatch member
    have whole := isWhole_append (Nat.succ_pos n) none
    rwa [List.append_nil] at whole

theorem wholeDigits_append (whole : IsWhole w) (ends : EndsDigits more) :
    wholeDigits (w ++ more) = w := by
  obtain ⟨c, others, rfl, alone⟩ := whole.start
  rw [List.cons_append, wholeDigits]
  split
  · next zero => rw [alone zero]
  · exact digits_append whole.isDigit ends

theorem fraction_none (ends : EndsNumber rest) : fraction rest = ([], 0) := by
  cases rest with
  | nil => rfl
  | cons c rest => rw [fraction, if_neg fun point => (ends c rfl).2.1 point.1]

theorem fraction_point (all : ∀ c ∈ ds, c.isDigit = true) (nonempty : ds ≠ []) (ends : EndsDigits rest) :
    fraction ("." ++ (ds ++ rest)) = (ds, ds.length + 1) := by
  have run := digits_append all ends
  change fraction (CodePoint.ofChar '.' :: (ds ++ rest)) = _
  rw [fraction, run, if_pos ⟨rfl, nonempty⟩]

theorem exponent_none (ends : EndsNumber rest) : exponent rest = none := by
  cases rest with
  | nil => rfl
  | cons c rest =>
    have other : ¬ (c.val = 0x65 ∨ c.val = 0x45) := not_or.mpr (ends c rfl).2.2
    rw [exponent, if_neg other]

def signText (negative : Bool) : Text := if negative then "-" else ""

theorem read_sign {t : Text} (negative : Bool) (p : Nat) (unsigned : ∀ c ∈ t.head?, c.val ≠ 0x2D) :
    ((⟨p, signText negative ++ t⟩ : Spot).peek? == some 0x2D) = negative ∧
      (if negative then (⟨p, signText negative ++ t⟩ : Spot).skip 1 else ⟨p, signText negative ++ t⟩) =
        ⟨p + (signText negative).length, t⟩ := by
  cases negative with
  | true => exact ⟨rfl, rfl⟩
  | false =>
    refine ⟨?_, rfl⟩
    cases t with
    | nil => rfl
    | cons c rest =>
      have other : some c.val ≠ some 0x2D := fun same => unsigned c rfl (Option.some.inj same)
      exact beq_eq_false_iff_ne.mpr other

theorem IsWhole.unsigned (whole : IsWhole w) (more : Text) : ∀ c ∈ (w ++ more).head?, c.val ≠ 0x2D := by
  obtain ⟨c, others, rfl, -⟩ := whole.start
  intro first isHead same
  cases isHead
  have digit := whole.isDigit c List.mem_cons_self
  simp only [CodePoint.isDigit, Bool.and_eq_true, decide_eq_true_eq] at digit
  omega

theorem IsWhole.nonempty (whole : IsWhole w) : w ≠ [] := by
  obtain ⟨c, others, rfl, -⟩ := whole.start
  exact List.cons_ne_nil c others

theorem readNumber_whole (negative : Bool) (whole : IsWhole w) (few : w.length ≤ Number.digitLimit)
    (ends : EndsNumber rest) :
    readNumber ⟨p, signText negative ++ (w ++ rest)⟩ =
      .ok (.int (if negative then -(Number.value w : Int) else Number.value w),
        ⟨p + (signText negative).length + w.length, rest⟩) := by
  obtain ⟨sign, body⟩ := read_sign negative p (whole.unsigned rest)
  have spelled := wholeDigits_append whole ends.endsDigits
  have notLong : ¬ Number.digitLimit < w.length := Nat.not_lt.mpr few
  simp only [readNumber, sign, body, spelled, if_neg whole.nonempty, Spot.skip_append,
    fraction_none ends, Spot.skip_zero, exponent_none ends, if_neg notLong]

theorem readNumber_parts {tail : Text} {size : Nat} {power : Option (Int × Nat)} (negative : Bool)
    (whole : IsWhole w) (ends : EndsDigits (tail ++ rest)) (isFraction : fraction (tail ++ rest) = (ds, size))
    (isPower : exponent ((tail ++ rest).drop size) = power) (isFloat : ds ≠ [] ∨ power ≠ none)
    (total : size + (power.getD (0, 0)).2 = tail.length) :
    readNumber ⟨p, signText negative ++ (w ++ tail ++ rest)⟩ =
      .ok (.float (.ofDecimal negative (Number.value (w ++ ds)) ((power.getD (0, 0)).1 - ds.length)),
        ⟨p + (signText negative).length + (w ++ tail).length, rest⟩) := by
  rw [List.append_assoc]
  obtain ⟨sign, body⟩ := read_sign negative p (whole.unsigned (tail ++ rest))
  have spelled := wholeDigits_append whole ends
  have isPower : exponent
      ((⟨p + (signText negative).length + w.length, tail ++ rest⟩ : Spot).skip size).rest = power := isPower
  have place : (⟨p + (signText negative).length + w.length, tail ++ rest⟩ : Spot).skip tail.length =
      ⟨p + (signText negative).length + (w ++ tail).length, rest⟩ := by
    rw [Spot.skip_append, List.length_append, Nat.add_assoc _ w.length]
  rw [← place, ← total]
  simp only [readNumber, sign, body, spelled, if_neg whole.nonempty, Spot.skip_append, isFraction, isPower]
  cases ds with
  | nil =>
    cases power with
    | none => simp at isFloat
    | some power => simp only [Spot.skip_skip]
  | cons d ds => simp only [Spot.skip_skip]

theorem isDigit_zeros (count : Nat) : ∀ c ∈ Text.copies count "0", c.isDigit = true := by
  intro c member
  cases List.mem_singleton.mp (Text.mem_copies member)
  rfl

theorem exponent_text (e : Int) (ends : EndsNumber rest) :
    exponent (NumberLayout.json.exponentText e ++ rest) =
      some (e, (NumberLayout.json.exponentText e).length) := by
  obtain ⟨spelled, isSpelled⟩ : ∃ spelled,
    Text.copies (2 - (Text.ofNat e.natAbs).length) "0" ++ Text.ofNat e.natAbs = spelled := ⟨_, rfl⟩
  have all : ∀ c ∈ spelled, c.isDigit = true := by
    rw [← isSpelled]
    intro c member
    cases List.mem_append.mp member with
    | inl inside => exact isDigit_zeros _ c inside
    | inr inside => exact Text.isDigit_ofNat _ c inside
  have nonempty : spelled ≠ [] := by
    rw [← isSpelled]
    exact List.append_ne_nil_of_right_ne_nil _ (Text.ofNat_ne_nil _)
  have size : Number.value spelled = e.natAbs := by
    rw [← isSpelled, Number.value_append, Number.value_zeros, Nat.zero_mul, Nat.zero_add,
      Number.value_ofNat]
  have run := digits_append all ends.endsDigits
  obtain ⟨d, others, eq⟩ := List.exists_cons_of_ne_nil nonempty
  have digit := all d (eq ▸ List.mem_cons_self)
  have form : NumberLayout.json.exponentText e =
      CodePoint.ofChar 'e' :: CodePoint.ofChar (if e < 0 then '-' else '+') :: spelled := by
    rw [NumberLayout.exponentText, List.append_assoc, ← isSpelled]
    split <;> rfl
  -- A digit is no sign, so the sign before it is the one that is taken.
  have differs : some (CodePoint.ofChar (if e < 0 then '-' else '+')) ≠ (spelled ++ rest).head? := by
    rw [eq]
    intro same
    rw [← Option.some.inj same] at digit
    split at digit <;> cases digit
  have signed : Number.signed (CodePoint.ofChar (if e < 0 then '-' else '+') :: (spelled ++ rest)) =
      (decide (e < 0), spelled ++ rest) := by
    split
    · next below => rw [decide_eq_true below]; rfl
    · next above => rw [decide_eq_false above]; rfl
  have mark : (CodePoint.ofChar 'e').val = 0x65 ∨ (CodePoint.ofChar 'e').val = 0x45 := Or.inl rfl
  rw [form, List.cons_append, List.cons_append, exponent, if_pos mark]
  simp only [signed, run, if_neg nonempty, List.head?_cons, if_neg differs, size, List.length_cons]
  congr 2
  · simp only [decide_eq_true_eq]
    split <;> omega
  · omega

theorem readNumber_point (negative : Bool) (whole : IsWhole w) (all : ∀ c ∈ ds, c.isDigit = true)
    (nonempty : ds ≠ []) (ends : EndsNumber rest) :
    readNumber ⟨p, signText negative ++ (w ++ ("." ++ ds) ++ rest)⟩ =
      .ok (.float (.ofDecimal negative (Number.value (w ++ ds)) (-ds.length)),
        ⟨p + (signText negative).length + (w ++ ("." ++ ds)).length, rest⟩) := by
  have point := fraction_point all nonempty ends.endsDigits
  have left : ("." ++ (ds ++ rest)).drop (ds.length + 1) = rest := List.drop_left
  have noPower : exponent (("." ++ (ds ++ rest)).drop (ds.length + 1)) = none :=
    (congrArg exponent left).trans (exponent_none ends)
  have total : ds.length + 1 + ((none : Option (Int × Nat)).getD (0, 0)).2 = ("." ++ ds).length := rfl
  have endsPoint : EndsDigits ("." ++ ds ++ rest) := endsDigits_cons rfl
  rw [← Int.zero_sub]
  exact readNumber_parts negative whole endsPoint point noPower (Or.inl nonempty) total

def pointed (ds : Text) : Text := if ds = [] then [] else "." ++ ds

theorem readNumber_power (negative : Bool) (e : Int) (whole : IsWhole w)
    (all : ∀ c ∈ ds, c.isDigit = true) (ends : EndsNumber rest) :
    readNumber ⟨p, signText negative ++ (w ++ (pointed ds ++ NumberLayout.json.exponentText e) ++ rest)⟩ =
      .ok (.float (.ofDecimal negative (Number.value (w ++ ds)) (e - ds.length)),
        ⟨p + (signText negative).length + (w ++ (pointed ds ++ NumberLayout.json.exponentText e)).length,
          rest⟩) := by
  have power := exponent_text e ends
  have mark : ∃ more, NumberLayout.json.exponentText e ++ rest = CodePoint.ofChar 'e' :: more := by
    simp only [NumberLayout.exponentText, List.append_assoc]
    exact ⟨_, rfl⟩
  obtain ⟨more, isMark⟩ := mark
  have endsMark : EndsDigits (NumberLayout.json.exponentText e ++ rest) := isMark ▸ endsDigits_cons rfl
  by_cases none : ds = []
  · subst none
    have noFraction : fraction (NumberLayout.json.exponentText e ++ rest) = ([], 0) := by
      rw [isMark]
      rfl
    exact readNumber_parts negative whole endsMark noFraction power
      (Or.inr (Option.some_ne_none _)) (Nat.zero_add _)
  · obtain ⟨point, isPoint⟩ : ∃ point : Text, point = "." ++ ds := ⟨_, rfl⟩
    have form : pointed ds = point := (if_neg none).trans isPoint.symm
    have split : point ++ NumberLayout.json.exponentText e ++ rest =
        "." ++ (ds ++ (NumberLayout.json.exponentText e ++ rest)) := by
      rw [isPoint, List.append_assoc, List.append_assoc]
    have isFraction := fraction_point all none endsMark
    have left : ("." ++ (ds ++ (NumberLayout.json.exponentText e ++ rest))).drop (ds.length + 1) =
        NumberLayout.json.exponentText e ++ rest := List.drop_left
    rw [← split] at isFraction left
    have total : ds.length + 1 + (NumberLayout.json.exponentText e).length =
        (point ++ NumberLayout.json.exponentText e).length := by
      rw [List.length_append, isPoint]
      rfl
    have endsPoint : EndsDigits (point ++ NumberLayout.json.exponentText e ++ rest) :=
      split ▸ endsDigits_cons rfl
    rw [form]
    have isPower := (congrArg exponent left).trans power
    exact readNumber_parts negative whole endsPoint isFraction isPower (Or.inl none) total

theorem length_zeros (count : Nat) : (Text.copies count "0").length = count := by
  have one : Text.copies count "0" = List.replicate count (CodePoint.ofChar '0') :=
    List.flatten_replicate_singleton
  rw [one, List.length_replicate]

theorem isWhole_take {n k : Nat} (positive : 0 < n) : IsWhole ((Text.ofNat n).take (k + 1)) := by
  obtain ⟨c, others, eq, other, -⟩ := Text.head_ofNat positive
  refine ⟨fun d member => Text.isDigit_ofNat n d (List.mem_of_mem_take member), c, others.take k, ?_,
    fun zero => absurd zero other⟩
  rw [eq, List.take_succ_cons]

/-- A text begins with the whole part of a number, and reads as the decimal with these digits and this
exponent. -/
def Spells (negative : Bool) (n : Nat) (e : Int) (t : Text) : Prop :=
  ∃ w tail, t = w ++ tail ∧ IsWhole w ∧ ∀ p rest, EndsNumber rest →
    readNumber ⟨p, signText negative ++ (w ++ tail ++ rest)⟩ =
      .ok (.float (.ofDecimal negative n e), ⟨p + (signText negative).length + (w ++ tail).length, rest⟩)

section

variable {n m k : Nat} {e lead : Int}

theorem spells_zeros (negative : Bool) (positive : 0 < n) (zeros : Nat) :
    Spells negative n (.ofNat zeros) (Text.ofNat n ++ Text.copies zeros "0" ++ ".0") := by
  have zero : Number.value "0" = 0 := by decide
  -- The zero after the point is one digit more, which the exponent makes up for.
  have isValue : Number.value (Text.ofNat n ++ Text.copies zeros "0" ++ "0") = n * 10 ^ (zeros + 1) := by
    rw [Number.value_append, Number.value_append, Number.value_ofNat, Number.value_zeros, zero, length_zeros,
      Nat.pow_succ, Nat.add_zero, Nat.add_zero, Nat.mul_assoc]
    rfl
  have same : Binary64.ofDecimal negative (n * 10 ^ (zeros + 1)) (-1) = .ofDecimal negative n (.ofNat zeros) := by
    have exponent : -1 + ((zeros + 1 : Nat) : Int) = zeros := by omega
    rw [Binary64.ofDecimal_shift, exponent]
    rfl
  have whole := isWhole_append positive (isDigit_zeros zeros)
  refine ⟨_, "." ++ "0", rfl, whole, fun p rest ends => ?_⟩
  rw [← same, ← isValue]
  exact readNumber_point negative whole isWhole_zero.isDigit isWhole_zero.nonempty ends

theorem spells_point (negative : Bool) (positive : 0 < n)
    (isLead : Int.negSucc m + (Text.ofNat n).length - 1 = (k : Int)) :
    Spells negative n (.negSucc m) ((Text.ofNat n).take (k + 1) ++ "." ++ (Text.ofNat n).drop (k + 1)) := by
  have places : ((Text.ofNat n).drop (k + 1)).length = m + 1 := by
    rw [List.length_drop]
    omega
  have all : ∀ c ∈ (Text.ofNat n).drop (k + 1), c.isDigit = true :=
    fun c member => Text.isDigit_ofNat n c (List.mem_of_mem_drop member)
  have whole := isWhole_take (k := k) positive
  refine ⟨_, "." ++ (Text.ofNat n).drop (k + 1), List.append_assoc _ _ _, whole, fun p rest ends => ?_⟩
  have read := readNumber_point (p := p) negative whole all (List.ne_nil_of_length_eq_add_one places) ends
  rw [List.take_append_drop, Number.value_ofNat, places] at read
  exact read

theorem spells_fraction (negative : Bool)
    (isLead : Int.negSucc m + (Text.ofNat n).length - 1 = Int.negSucc k) :
    Spells negative n (.negSucc m) ("0." ++ Text.copies k "0" ++ Text.ofNat n) := by
  have all : ∀ c ∈ Text.copies k "0" ++ Text.ofNat n, c.isDigit = true := by
    intro c member
    cases List.mem_append.mp member with
    | inl inside => exact isDigit_zeros k c inside
    | inr inside => exact Text.isDigit_ofNat n c inside
  have isValue : Number.value ("0" ++ (Text.copies k "0" ++ Text.ofNat n)) = n := by
    have zero : Number.value "0" = 0 := by decide
    rw [Number.value_append, Number.value_append, Number.value_ofNat, Number.value_zeros, zero, Nat.zero_mul,
      Nat.zero_mul, Nat.zero_add, Nat.zero_add]
  have places : (Text.copies k "0" ++ Text.ofNat n).length = m + 1 := by
    rw [List.length_append, length_zeros]
    omega
  refine ⟨"0", "." ++ (Text.copies k "0" ++ Text.ofNat n), List.append_assoc ("0." : Text) _ _, isWhole_zero,
    fun p rest ends => ?_⟩
  have read := readNumber_point (p := p) negative isWhole_zero all
    (List.ne_nil_of_length_eq_add_one places) ends
  rw [isValue, places] at read
  exact read

theorem spells_power (negative : Bool) {first : CodePoint} {others : Text} (eq : Text.ofNat n = first :: others)
    (other : first.val ≠ 0x30) (isLead : e + (Text.ofNat n).length - 1 = lead) :
    Spells negative n e (first :: (pointed others ++ NumberLayout.json.exponentText lead)) := by
  have digit := Text.isDigit_ofNat n
  have whole : IsWhole [first] := by
    refine ⟨?_, first, [], rfl, fun zero => absurd zero other⟩
    intro c member
    cases List.mem_singleton.mp member
    exact digit first (eq ▸ List.mem_cons_self)
  have all : ∀ c ∈ others, c.isDigit = true :=
    fun c member => digit c (eq ▸ List.mem_cons_of_mem first member)
  have isValue : Number.value ([first] ++ others) = n := by
    rw [List.singleton_append, ← eq, Number.value_ofNat]
  have power : lead - (others.length : Nat) = e := by
    rw [eq, List.length_cons] at isLead
    omega
  refine ⟨[first], _, rfl, whole, fun p rest ends => ?_⟩
  have read := readNumber_power (p := p) negative lead whole all ends
  rw [isValue, power] at read
  exact read

end

/-- The text of a decimal reads as that decimal, whichever layout its exponent asks for. -/
theorem spells_decimal (negative : Bool) {d : Decimal} (nonzero : d.digits ≠ 0) :
    Spells negative d.digits d.exponent (NumberLayout.json.decimalText d) := by
  obtain ⟨n, e⟩ := d
  have positive : 0 < n := Nat.pos_of_ne_zero nonzero
  obtain ⟨lead, isLead⟩ : ∃ lead, e + (Text.ofNat n).length - 1 = lead := ⟨_, rfl⟩
  rw [NumberLayout.decimalText]
  simp only [isLead]
  split
  · cases e with
    | ofNat zeros => exact spells_zeros negative positive zeros
    | negSucc m =>
      cases lead with
      | ofNat k => exact spells_point negative positive isLead
      | negSucc k => exact spells_fraction negative isLead
  · obtain ⟨first, others, eq, other, -⟩ := Text.head_ofNat positive
    have spelled := spells_power negative eq other isLead
    rw [eq]
    cases others with
    | nil => exact spelled
    | cons _ _ => exact spelled

theorem words_letter : ∀ entry ∈ words, ∃ negative letter others,
    entry.1 = signText negative ++ letter :: others ∧ letter.isDigit = false ∧
      letter ≠ CodePoint.ofChar '-' := by
  intro entry member
  simp only [words, List.mem_cons, List.not_mem_nil, or_false] at member
  rcases member with rfl | rfl | rfl | rfl | rfl | rfl
  · exact ⟨false, _, _, rfl, rfl, by decide⟩
  · exact ⟨false, _, _, rfl, rfl, by decide⟩
  · exact ⟨false, _, _, rfl, rfl, by decide⟩
  · exact ⟨false, _, _, rfl, rfl, by decide⟩
  · exact ⟨false, _, _, rfl, rfl, by decide⟩
  · exact ⟨true, _, _, rfl, rfl, by decide⟩

theorem find?_words {c : CodePoint} (digit : c.isDigit = true) (negative : Bool) (more : Text) :
    words.find? (fun (word, _) => Spot.startsWith ⟨p, signText negative ++ c :: more⟩ word) = none := by
  refine List.find?_eq_none.mpr fun entry member starts => ?_
  obtain ⟨sign, letter, others, eq, noDigit, noSign⟩ := words_letter entry member
  have isPrefix := List.isPrefixOf_iff_prefix.mp starts
  have differs : letter ≠ c := by
    rintro rfl
    exact absurd (noDigit.symm.trans digit) Bool.false_ne_true
  rw [eq] at isPrefix
  cases negative with
  | false =>
    cases sign with
    | false => exact differs (List.cons_prefix_cons.mp isPrefix).1
    | true =>
      rw [← (List.cons_prefix_cons.mp isPrefix).1] at digit
      cases digit
  | true =>
    cases sign with
    | false => exact noSign (List.cons_prefix_cons.mp isPrefix).1
    | true =>
      have later := (List.cons_prefix_cons.mp isPrefix).2
      exact differs (List.cons_prefix_cons.mp later).1

theorem readScalar_whole (negative : Bool) (whole : IsWhole w) (more : Text) :
    readScalar ⟨p, signText negative ++ (w ++ more)⟩ = readNumber ⟨p, signText negative ++ (w ++ more)⟩ := by
  obtain ⟨c, rest, rfl, -⟩ := whole.start
  have digit := whole.isDigit c List.mem_cons_self
  rw [List.cons_append, readScalar, find?_words digit]

theorem ofInt_eq (n : Int) : Text.ofInt n = signText (decide (n < 0)) ++ Text.ofNat n.natAbs := by
  cases n with
  | ofNat n => rfl
  | negSucc n =>
    rw [decide_eq_true (Int.negSucc_lt_zero n)]
    rfl

theorem readScalar_int {n : Int} (few : (Text.ofNat n.natAbs).length ≤ Number.digitLimit)
    (ends : EndsNumber rest) :
    readScalar ⟨p, Text.ofInt n ++ rest⟩ = .ok (.int n, ⟨p + (Text.ofInt n).length, rest⟩) := by
  have whole := isWhole_ofNat n.natAbs
  have read := readNumber_whole (p := p) (decide (n < 0)) whole few ends
  have sign : (if decide (n < 0) = true then -(n.natAbs : Int) else n.natAbs) = n := by
    simp only [decide_eq_true_eq]
    split <;> omega
  rw [Number.value_ofNat, sign, ← readScalar_whole _ whole] at read
  rw [ofInt_eq, List.append_assoc, List.length_append, ← Nat.add_assoc]
  exact read

theorem text_finite (negative : Bool) (exponent : Fin 2047) (fraction : Fin 0x10000000000000) :
    NumberLayout.json.text (.finite negative exponent fraction) = signText negative ++
      if Binary64.unitsOf exponent fraction = 0 then ("0" ++ ("." ++ "0") : Text)
      else NumberLayout.json.decimalText
        (Decimal.shortest (.finite false exponent fraction) (Binary64.unitsOf exponent fraction)) := by
  cases negative <;> rfl

theorem zero_of_unitsOf {exponent : Fin 2047} {fraction : Fin 0x10000000000000}
    (zero : Binary64.unitsOf exponent fraction = 0) : exponent = 0 ∧ fraction = 0 := by
  rw [Binary64.unitsOf] at zero
  split at zero
  · next lowest => exact ⟨Fin.ext lowest, Fin.ext zero⟩
  · have positive : 0 < Nat.pow 2 (exponent.val - 1) := Nat.two_pow_pos _
    exact absurd zero (Nat.mul_ne_zero (by omega) (by omega))

theorem readScalar_float {x : Binary64} (written : x ≠ .nan false) (ends : EndsNumber rest) :
    readScalar ⟨p, NumberLayout.json.text x ++ rest⟩ =
      .ok (.float x, ⟨p + (NumberLayout.json.text x).length, rest⟩) := by
  cases x with
  | nan literal =>
    cases literal with
    | true => rfl
    | false => exact absurd rfl written
  | infinite negative => cases negative <;> rfl
  | finite negative exponent fraction =>
    rw [text_finite, List.append_assoc, List.length_append, ← Nat.add_assoc]
    split
    · next zero =>
      obtain ⟨rfl, rfl⟩ := zero_of_unitsOf zero
      have read := readNumber_point (p := p) negative isWhole_zero isWhole_zero.isDigit
        isWhole_zero.nonempty ends
      exact (readScalar_whole negative isWhole_zero _).trans read
    · next nonzero =>
      have isValue := Decimal.read_shortest exponent fraction nonzero
      generalize Decimal.shortest _ _ = d at isValue
      obtain ⟨w, tail, text, whole, read⟩ :=
        spells_decimal negative (Decimal.digits_ne_zero nonzero isValue)
      have read := read p rest ends
      rw [Binary64.ofDecimal_signed isValue, List.append_assoc w] at read
      rw [text, List.append_assoc w]
      exact (readScalar_whole negative whole _).trans read

end DocTree.Json.Reader
