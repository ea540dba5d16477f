import DocTree.Proofs.Json.Strings
import DocTree.Text.Encoding
import Mathlib.Data.List.TakeWhile
/-!
UTF-8: the bytes of a text of scalar values are read as that text, and a text that begins with an ASCII
character is taken for UTF-8.
-/

namespace DocTree.Encoding

variable {b t : UInt8} {ts rest : Bytes} {c : CodePoint}

theorem toNat_ofNat_of_lt {n : Nat} (h : n < 0x100) : (UInt8.ofNat n).toNat = n := by
  rw [UInt8.toNat_ofNat']
  exact Nat.mod_eq_of_lt h

theorem isContinuation_iff : isContinuation t = true ↔ 0x80 ≤ t.toNat ∧ t.toNat ≤ 0xBF := by
  simp only [isContinuation, Bool.and_eq_true, decide_eq_true_eq, UInt8.le_iff_toNat_le]
  rfl

theorem utf8Lead?_one (low : b.toNat < 0x80) : utf8Lead? b = some (0, 0x80, 0xBF) := by
  simp only [utf8Lead?, UInt8.lt_iff_toNat_lt, UInt8.reduceToNat, if_pos low]

theorem utf8Lead?_two (low : 0xC2 ≤ b.toNat) (high : b.toNat < 0xE0) :
    utf8Lead? b = some (1, 0x80, 0xBF) := by
  have ascii : ¬ b.toNat < 0x80 := by omega
  have middle : ¬ b.toNat < 0xC2 := by omega
  simp only [utf8Lead?, UInt8.lt_iff_toNat_lt, UInt8.reduceToNat, if_neg ascii, if_neg middle, if_pos high]

/-- The lowest of the first bytes of three would also start overlong forms. -/
theorem utf8Lead?_three (low : 0xE0 ≤ b.toNat) (high : b.toNat < 0xF0) :
    utf8Lead? b = some (2, if b.toNat = 0xE0 then 0xA0 else 0x80, 0xBF) := by
  have ascii : ¬ b.toNat < 0x80 := by omega
  have middle : ¬ b.toNat < 0xC2 := by omega
  have two : ¬ b.toNat < 0xE0 := by omega
  simp only [utf8Lead?, UInt8.lt_iff_toNat_lt, ← UInt8.toNat_inj, UInt8.reduceToNat, if_neg ascii,
    if_neg middle, if_neg two, if_pos high]
  split <;> rfl

/-- So would the lowest of the first bytes of four, and the highest starts numbers that are no code
points. -/
theorem utf8Lead?_four (low : 0xF0 ≤ b.toNat) (high : b.toNat ≤ 0xF4) :
    utf8Lead? b = some (3, if b.toNat = 0xF0 then 0x90 else 0x80, if b.toNat = 0xF4 then 0x8F else 0xBF) := by
  have ascii : ¬ b.toNat < 0x80 := by omega
  have middle : ¬ b.toNat < 0xC2 := by omega
  have two : ¬ b.toNat < 0xE0 := by omega
  have three : ¬ b.toNat < 0xF0 := by omega
  have notE0 : ¬ b.toNat = 0xE0 := by omega
  simp only [utf8Lead?, UInt8.lt_iff_toNat_lt, ← UInt8.toNat_inj, UInt8.reduceToNat, if_neg ascii,
    if_neg middle, if_neg two, if_neg three, if_neg notE0]
  by_cases isF0 : b.toNat = 0xF0
  · have notF4 : ¬ b.toNat = 0xF4 := by omega
    rw [if_pos isF0, if_pos isF0, if_neg notF4]
  · rw [if_neg isF0, if_neg isF0]
    by_cases isF4 : b.toNat = 0xF4
    · have notBelow : ¬ b.toNat < 0xF4 := by omega
      rw [if_neg notBelow, if_pos isF4, if_pos isF4]
    · have below : b.toNat < 0xF4 := by omega
      rw [if_pos below, if_neg isF4]

theorem utf8Next_join {low high : UInt8} (lead : utf8Lead? b = some (ts.length + 1, low, high))
    (first : low.toNat ≤ t.toNat ∧ t.toNat ≤ high.toNat) (notHalf : b.toNat = 0xED → t.toNat < 0xA0)
    (all : ∀ u ∈ t :: ts, isContinuation u = true) :
    utf8Next b (t :: ts ++ rest) = .ok (utf8Join b (t :: ts), ts.length + 1) := by
  have inRange : (t < low || high < t) = false := by
    simp only [Bool.or_eq_false_iff, decide_eq_false_iff_not, UInt8.lt_iff_toNat_lt]
    omega
  have whole : (b == 0xED && 0xA0 ≤ t && !((ts ++ rest).head?.any isContinuation)) = false := by
    by_cases half : b.toNat = 0xED
    · have small : ¬ 0xA0 ≤ t := by
        rw [UInt8.le_iff_toNat_le]
        exact Nat.not_le.mpr (notHalf half)
      rw [decide_eq_false small, Bool.and_false, Bool.false_and]
    · have other : b ≠ 0xED := fun same => half (congrArg UInt8.toNat same)
      rw [beq_eq_false_iff_ne.mpr other, Bool.false_and, Bool.false_and]
  have taken : (t :: (ts ++ rest)).take (ts.length + 1) = t :: ts := by
    rw [List.take_succ_cons, List.take_left]
  have good : (t :: ts).takeWhile isContinuation = t :: ts := List.takeWhile_eq_self_iff.mpr all
  rw [utf8Next, lead]
  simp only [List.cons_append, inRange, whole, taken, good]
  exact if_pos rfl

theorem utf8Next_ascii (small : c.val < 0x80) : utf8Next (UInt8.ofNat c.val) rest = .ok (c, 0) := by
  have byte : (UInt8.ofNat c.val).toNat = c.val := toNat_ofNat_of_lt (by omega)
  have lead : utf8Lead? (UInt8.ofNat c.val) = some (0, 0x80, 0xBF) := utf8Lead?_one (by omega)
  simp only [utf8Next, lead, byte, CodePoint.ofNat_val]

theorem toNat_trail (k : Nat) : (UInt8.ofNat (0x80 + k % 0x40)).toNat = 0x80 + k % 0x40 :=
  toNat_ofNat_of_lt (by omega)

theorem isContinuation_trail (k : Nat) : isContinuation (UInt8.ofNat (0x80 + k % 0x40)) = true := by
  rw [isContinuation_iff, toNat_trail]
  omega

theorem utf8Next_two (notOne : 0x80 ≤ c.val) (two : c.val < 0x800) :
    utf8Next (UInt8.ofNat (0xC0 + c.val / 0x40)) (UInt8.ofNat (0x80 + c.val / 1 % 0x40) :: rest) =
      .ok (c, 1) := by
  have lead : (UInt8.ofNat (0xC0 + c.val / 0x40)).toNat = 0xC0 + c.val / 0x40 :=
    toNat_ofNat_of_lt (by omega)
  have last := toNat_trail (c.val / 1)
  have continues := isContinuation_trail (c.val / 1)
  generalize UInt8.ofNat (0xC0 + c.val / 0x40) = b at lead
  generalize UInt8.ofNat (0x80 + c.val / 1 % 0x40) = t at last continues
  have joined : utf8Join b [t] = c := by
    have total : b.toNat % 0x20 * 0x40 + t.toNat % 0x40 = c.val := by omega
    simp only [utf8Join, List.length_cons, List.length_nil, List.foldl_cons, List.foldl_nil, total,
      CodePoint.ofNat_val]
  have asks : utf8Lead? b = some (([] : Bytes).length + 1, 0x80, 0xBF) :=
    utf8Lead?_two (by omega) (by omega)
  rw [← joined]
  refine utf8Next_join asks (isContinuation_iff.mp continues) (by omega) ?_
  simpa using continues

theorem utf8Next_three (notTwo : 0x800 ≤ c.val) (three : c.val < 0x10000) (scalar : c.isSurrogate = false) :
    utf8Next (UInt8.ofNat (0xE0 + c.val / 0x1000))
        (UInt8.ofNat (0x80 + c.val / 0x40 % 0x40) :: UInt8.ofNat (0x80 + c.val / 1 % 0x40) :: rest) =
      .ok (c, 2) := by
  have notHalf : ¬ (0xD800 ≤ c.val ∧ c.val ≤ 0xDFFF) := by
    simpa [CodePoint.isSurrogate] using scalar
  have lead : (UInt8.ofNat (0xE0 + c.val / 0x1000)).toNat = 0xE0 + c.val / 0x1000 :=
    toNat_ofNat_of_lt (by omega)
  have first := toNat_trail (c.val / 0x40)
  have last := toNat_trail (c.val / 1)
  have continues := isContinuation_trail (c.val / 0x40)
  have ends := isContinuation_trail (c.val / 1)
  generalize UInt8.ofNat (0xE0 + c.val / 0x1000) = b at lead
  generalize UInt8.ofNat (0x80 + c.val / 0x40 % 0x40) = t at first continues
  generalize UInt8.ofNat (0x80 + c.val / 1 % 0x40) = u at last ends
  have joined : utf8Join b [t, u] = c := by
    have total : (b.toNat % 0x10 * 0x40 + t.toNat % 0x40) * 0x40 + u.toNat % 0x40 = c.val := by omega
    simp only [utf8Join, List.length_cons, List.length_nil, List.foldl_cons, List.foldl_nil, total,
      CodePoint.ofNat_val]
  have asks : utf8Lead? b = some ([u].length + 1, if b.toNat = 0xE0 then 0xA0 else 0x80, 0xBF) :=
    utf8Lead?_three (by omega) (by omega)
  have inRange : (if b.toNat = 0xE0 then (0xA0 : UInt8) else 0x80).toNat ≤ t.toNat ∧
      t.toNat ≤ (0xBF : UInt8).toNat := by
    have bounds := isContinuation_iff.mp continues
    refine ⟨?_, bounds.2⟩
    split
    · exact show 0xA0 ≤ t.toNat by omega
    · exact bounds.1
  rw [← joined]
  refine utf8Next_join asks inRange (by omega) ?_
  simpa using ⟨continues, ends⟩

theorem utf8Next_four (notThree : 0x10000 ≤ c.val) :
    utf8Next (UInt8.ofNat (0xF0 + c.val / 0x40000))
        (UInt8.ofNat (0x80 + c.val / 0x1000 % 0x40) :: UInt8.ofNat (0x80 + c.val / 0x40 % 0x40) ::
          UInt8.ofNat (0x80 + c.val / 1 % 0x40) :: rest) =
      .ok (c, 3) := by
  have bound := c.isLt
  have lead : (UInt8.ofNat (0xF0 + c.val / 0x40000)).toNat = 0xF0 + c.val / 0x40000 :=
    toNat_ofNat_of_lt (by omega)
  have first := toNat_trail (c.val / 0x1000)
  have second := toNat_trail (c.val / 0x40)
  have last := toNat_trail (c.val / 1)
  have continues := isContinuation_trail (c.val / 0x1000)
  have goesOn := isContinuation_trail (c.val / 0x40)
  have ends := isContinuation_trail (c.val / 1)
  generalize UInt8.ofNat (0xF0 + c.val / 0x40000) = b at lead
  generalize UInt8.ofNat (0x80 + c.val / 0x1000 % 0x40) = t at first continues
  generalize UInt8.ofNat (0x80 + c.val / 0x40 % 0x40) = u at second goesOn
  generalize UInt8.ofNat (0x80 + c.val / 1 % 0x40) = v at last ends
  have joined : utf8Join b [t, u, v] = c := by
    have total : ((b.toNat % 0x08 * 0x40 + t.toNat % 0x40) * 0x40 + u.toNat % 0x40) * 0x40 +
        v.toNat % 0x40 = c.val := by omega
    simp only [utf8Join, List.length_cons, List.length_nil, List.foldl_cons, List.foldl_nil, total,
      CodePoint.ofNat_val]
  have asks : utf8Lead? b = some ([u, v].length + 1, if b.toNat = 0xF0 then 0x90 else 0x80,
      if b.toNat = 0xF4 then 0x8F else 0xBF) := utf8Lead?_four (by omega) (by omega)
  have inRange : (if b.toNat = 0xF0 then (0x90 : UInt8) else 0x80).toNat ≤ t.toNat ∧
      t.toNat ≤ (if b.toNat = 0xF4 then (0x8F : UInt8) else 0xBF).toNat := by
    have bounds := isContinuation_iff.mp continues
    constructor
    · split
      · exact show 0x90 ≤ t.toNat by omega
      · exact bounds.1
    · split
      · exact show t.toNat ≤ 0x8F by omega
      · exact bounds.2
  rw [← joined]
  refine utf8Next_join asks inRange (by omega) ?_
  simpa using ⟨continues, goesOn, ends⟩

/-- The bytes of a character are read as that character, whatever follows them. -/
theorem utf8Next_utf8Bytes (scalar : c.isSurrogate = false) :
    ∃ b tail, utf8Bytes c = b :: tail ∧ ∀ rest, utf8Next b (tail ++ rest) = .ok (c, tail.length) := by
  rw [utf8Bytes]
  split
  · next one => exact ⟨_, [], rfl, fun rest => utf8Next_ascii one⟩
  split
  · next notOne two => exact ⟨_, _, rfl, fun rest => utf8Next_two (Nat.not_lt.mp notOne) two⟩
  split
  · next notTwo three =>
    exact ⟨_, _, rfl, fun rest => utf8Next_three (Nat.not_lt.mp notTwo) three scalar⟩
  · next notThree => exact ⟨_, _, rfl, fun rest => utf8Next_four (Nat.not_lt.mp notThree)⟩

theorem decodeUtf8From_flatMap {t : Text} (scalar : t.Scalar) (start : Nat) {fuel : Nat}
    (enough : (t.flatMap utf8Bytes).length ≤ fuel) :
    decodeUtf8From start fuel (t.flatMap utf8Bytes) = .ok t := by
  induction t generalizing start fuel with
  | nil => cases fuel <;> rfl
  | cons c t ih =>
    obtain ⟨b, tail, eq, next⟩ := utf8Next_utf8Bytes (scalar c List.mem_cons_self)
    rw [List.flatMap_cons, eq, List.cons_append] at enough ⊢
    obtain ⟨fuel, rfl⟩ := Nat.exists_eq_add_one_of_ne_zero (Nat.ne_of_gt (Nat.lt_of_lt_of_le (Nat.succ_pos _) enough))
    rw [List.length_cons, List.length_append] at enough
    have later := ih (fun d member => scalar d (List.mem_cons_of_mem c member)) (start + 1 + tail.length)
      (show _ ≤ fuel by omega)
    rw [decodeUtf8From, next]
    simp only [List.drop_left, later]
    rfl

theorem encodeUtf8_scalar {t : Text} (scalar : t.Scalar) : encodeUtf8 t = .ok (t.flatMap utf8Bytes) := by
  have none : t.dropWhile (!·.isSurrogate) = [] :=
    List.dropWhile_eq_nil_iff.mpr fun c member => by rw [scalar c member]; rfl
  rw [encodeUtf8, none]

theorem encodeUtf8_ok_iff {t : Text} : (∃ bs, encodeUtf8 t = .ok bs) ↔ t.Scalar := by
  constructor
  · rintro ⟨bs, encoded⟩ c member
    unfold encodeUtf8 at encoded
    split at encoded
    · next none => simpa using List.dropWhile_eq_nil_iff.mp none c member
    · cases encoded
  · intro scalar
    exact ⟨_, encodeUtf8_scalar scalar⟩

theorem utf8Bytes_low {low : Nat} (small : low ≤ 0x80) (above : low ≤ c.val) : ∀ b ∈ utf8Bytes c, low ≤ b.toNat := by
  have bound := c.isLt
  have byte (n : Nat) (large : low ≤ n) (isByte : n < 0x100) : low ≤ (UInt8.ofNat n).toNat := by
    rwa [toNat_ofNat_of_lt isByte]
  have trail (k : Nat) : low ≤ (UInt8.ofNat (0x80 + k % 0x40)).toNat := byte _ (by omega) (by omega)
  rw [utf8Bytes]
  split
  · exact List.forall_mem_singleton.mpr (byte _ above (by omega))
  split
  · exact List.forall_mem_cons.mpr ⟨byte _ (by omega) (by omega), List.forall_mem_singleton.mpr (trail _)⟩
  split
  · exact List.forall_mem_cons.mpr ⟨byte _ (by omega) (by omega),
      List.forall_mem_cons.mpr ⟨trail _, List.forall_mem_singleton.mpr (trail _)⟩⟩
  · exact List.forall_mem_cons.mpr ⟨byte _ (by omega) (by omega), List.forall_mem_cons.mpr ⟨trail _,
      List.forall_mem_cons.mpr ⟨trail _, List.forall_mem_singleton.mpr (trail _)⟩⟩⟩

theorem decodeUtf8_flatMap {t : Text} (scalar : t.Scalar) : decodeUtf8 (t.flatMap utf8Bytes) = .ok t :=
  decodeUtf8From_flatMap scalar 0 (Nat.le_refl _)

theorem detect_ascii {bs : Bytes} (ascii : b.toNat < 0x80) (nonzero : b ≠ 0) (next : t ≠ 0) :
    detect (b :: t :: bs) = (.utf8, 0) := by
  have wide (n : UInt8) (large : 0x80 ≤ n.toNat) : n ≠ b := by
    rintro rfl
    omega
  have noZero : unmarked (b :: t :: bs) = .utf8 := by
    rcases bs with _ | ⟨_, _ | ⟨_, _⟩⟩
    · rw [unmarked, if_neg nonzero, if_neg next]
    · rfl
    · rw [unmarked, if_neg nonzero, if_neg next]
  rw [detect, List.find?_eq_none.mpr, noZero]
  simp [marks, nonzero.symm, wide 0xFE (by decide), wide 0xFF (by decide), wide 0xEF (by decide)]

/-- A text of at least two characters, of which the first is an ASCII character and neither is zero, is
read back from its bytes. -/
theorem decode_encodeUtf8 {t : Text} {c d : CodePoint} {more : Text} (scalar : t.Scalar)
    (start : t = c :: d :: more) (ascii : c.val < 0x80) (nonzero : c.val ≠ 0) (next : d.val ≠ 0) :
    ∃ bs, encodeUtf8 t = .ok bs ∧ decode bs = .ok t := by
  refine ⟨_, encodeUtf8_scalar scalar, ?_⟩
  have first : utf8Bytes c = [UInt8.ofNat c.val] := if_pos ascii
  have value : (UInt8.ofNat c.val).toNat = c.val := toNat_ofNat_of_lt (by omega)
  obtain ⟨b, tail, second, reads⟩ := utf8Next_utf8Bytes (scalar d (start ▸ .tail _ (.head _)))
  -- A zero byte is a character of its own, and the second one is not zero.
  have notZero : b ≠ 0 := by
    rintro rfl
    have zero := reads []
    cases tail with
    | nil =>
      cases zero
      exact next rfl
    | cons _ _ => cases zero
  have bytes : t.flatMap utf8Bytes = UInt8.ofNat c.val :: b :: (tail ++ more.flatMap utf8Bytes) := by
    rw [start, List.flatMap_cons, List.flatMap_cons, first, second]
    rfl
  have charset : detect (t.flatMap utf8Bytes) = (.utf8, 0) := by
    rw [bytes]
    exact detect_ascii (by omega) (fun zero => nonzero (value.symm.trans (congrArg UInt8.toNat zero))) notZero
  rw [decode, charset]
  exact decodeUtf8_flatMap scalar

end DocTree.Encoding
