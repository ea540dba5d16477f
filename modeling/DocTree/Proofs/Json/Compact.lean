import DocTree.Proofs.Json.Pieces
/-!
JSON text stays on one line. Strings may have any characters, but what is written of them has no control
characters, and outside of the strings there are no blanks. With escapes all that is written is ASCII.
-/

namespace DocTree.Json

open Reader Text

/-- Where one is in a JSON text: between its strings, in one of them, or there after a backslash. -/
inductive Place
  | between
  | inside
  | escaped
  deriving DecidableEq, Repr

namespace Place

/-- A quotation mark begins a string and ends it, unless there is a backslash before it. -/
def next (c : CodePoint) : Place → Place
  | between => if c.val = 0x22 then inside else between
  | inside => if c.val = 0x22 then between else if c.val = 0x5C then escaped else inside
  | escaped => inside

def after (place : Place) : Text → Place
  | [] => place
  | c :: t => (place.next c).after t

/-- The characters of a text that are between its strings, and the marks that these begin with. -/
def outer : Place → Text → Text
  | _, [] => []
  | between, c :: t => c :: (next c between).outer t
  | inside, c :: t => (next c inside).outer t
  | escaped, c :: t => (next c escaped).outer t

variable {place : Place} {c : CodePoint} {t u : Text}

theorem after_append : place.after (t ++ u) = (place.after t).after u := by
  induction t generalizing place with
  | nil => rfl
  | cons c t ih => exact ih

theorem outer_append : place.outer (t ++ u) = place.outer t ++ (place.after t).outer u := by
  induction t generalizing place with
  | nil => cases place <;> rfl
  | cons c t ih => cases place <;> simp [outer, after, ih]

/-- Without a quotation mark there is no string. -/
theorem between_bare (bare : t.Bare) : between.after t = between ∧ between.outer t = t := by
  induction t with
  | nil => exact ⟨rfl, rfl⟩
  | cons c t ih =>
    obtain ⟨⟨-, -, noQuote⟩, bare⟩ := bare_cons.mp bare
    obtain ⟨stays, whole⟩ := ih bare
    simp only [after, outer, next, if_neg noQuote, stays, whole, and_self]

/-- A text that does not leave the string it begins in. -/
def Within (t : Text) : Prop := inside.after t = inside ∧ inside.outer t = []

theorem Within.append (first : Within t) (second : Within u) : Within (t ++ u) := by
  refine ⟨?_, ?_⟩
  · rw [after_append, first.1, second.1]
  · rw [outer_append, first.1, first.2, second.2, List.append_nil]

theorem within_single (plain : c.val ≠ 0x22 ∧ c.val ≠ 0x5C) : Within [c] := by
  simp only [Within, after, outer, next, if_neg plain.1, if_neg plain.2, and_self]

theorem within_hex (width n : Nat) : Within (hex width n) := by
  have digit : ∀ n : Fin 16, (CodePoint.hexDigit n).val ≠ 0x22 ∧ (CodePoint.hexDigit n).val ≠ 0x5C := by decide
  induction width generalizing n with
  | zero => exact ⟨rfl, rfl⟩
  | succ width ih => exact (ih (n / 16)).append (within_single (digit ⟨n % 16, Nat.mod_lt n (by decide)⟩))

theorem within_unitEscape (n : Nat) : Within (unitEscape n) := by
  have start : Within "\\u" := ⟨by decide, by decide⟩
  exact start.append (within_hex 4 n)

theorem within_letter (letter : Char) : Within [CodePoint.ofChar '\\', CodePoint.ofChar letter] := by
  have backslash : next (CodePoint.ofChar '\\') inside = escaped := by decide
  generalize CodePoint.ofChar '\\' = first at backslash
  refine ⟨?_, ?_⟩
  · rw [after, backslash]
    rfl
  · rw [outer, backslash]
    rfl

theorem within_escapeChar (ascii : Bool) (c : CodePoint) : Within (escapeChar ascii c) := by
  rcases escapeChar_cases ascii c with ⟨letter, form, -⟩ | form | ⟨form, noQuote, noBackslash, -⟩
  · rw [form]
    exact within_letter letter
  · rw [form, unicodeEscape]
    split
    · exact within_unitEscape _
    · exact (within_unitEscape _).append (within_unitEscape _)
  · rw [form]
    exact within_single ⟨noQuote, noBackslash⟩

theorem within_flatMap (ascii : Bool) (t : Text) : Within (t.flatMap (escapeChar ascii)) := by
  induction t with
  | nil => exact ⟨rfl, rfl⟩
  | cons c t ih =>
    rw [List.flatMap_cons]
    exact (within_escapeChar ascii c).append ih

/-- A string is closed, and nothing of it but its first mark is outside. -/
theorem between_writeString (ascii : Bool) (t : Text) :
    between.after (writeString ascii t) = between ∧ between.outer (writeString ascii t) = "\"" := by
  obtain ⟨stays, none⟩ := within_flatMap ascii t
  rw [writeString, after_append, outer_append, after_append, outer_append]
  change ((inside.after _).after "\"" = between) ∧ "\"" ++ inside.outer _ ++ (inside.after _).outer "\"" = _
  rw [stays, none]
  exact ⟨rfl, rfl⟩

end Place

theorem letterEscape?_range {letter c : CodePoint} (known : letterEscape? letter = some c) :
    0x20 ≤ letter.val ∧ letter.val ≤ 0x7E := by
  unfold letterEscape? at known
  split at known <;> first | omega | cases known

theorem escapeChar_itself {c : CodePoint} (form : escapeChar true c = [c]) : c.val ≤ 0x7E := by
  by_contra large
  have escaped : escapeChar true c = unicodeEscape c := by
    simp only [escapeChar]
    repeat rw [if_neg (by omega)]
    exact if_pos (.inr ⟨trivial, Nat.lt_of_not_le large⟩)
  obtain ⟨digits, isEscape⟩ := unicodeEscape_eq c
  rw [escaped, isEscape] at form
  have backslash : c = CodePoint.ofChar '\\' := (List.cons.inj form).1.symm
  exact large (backslash ▸ by decide)

theorem escapeChar_range (ascii : Bool) (c : CodePoint) :
    ∀ d ∈ escapeChar ascii c, 0x20 ≤ d.val ∧ (ascii = true → d.val ≤ 0x7E) := by
  rcases escapeChar_cases ascii c with ⟨letter, form, -, known⟩ | form | ⟨form, -, -, noControl⟩
  · obtain ⟨visible, small⟩ := letterEscape?_range known
    rw [form]
    exact List.forall_mem_cons.mpr ⟨⟨by decide, fun _ => by decide⟩,
      List.forall_mem_singleton.mpr ⟨visible, fun _ => small⟩⟩
  · intro d member
    rw [form] at member
    obtain ⟨visible, small, -⟩ := bare_unicodeEscape c d member
    exact ⟨Nat.le_of_lt visible, fun _ => small⟩
  · rw [form]
    refine List.forall_mem_singleton.mpr ⟨Nat.not_lt.mp noControl, ?_⟩
    rintro rfl
    exact escapeChar_itself form

/-- A text without control characters, with all its strings closed and no blank outside of them. -/
structure Compact (ascii : Bool) (t : Text) : Prop where
  noControl : ∀ c ∈ t, 0x20 ≤ c.val
  onlyAscii : ascii = true → ∀ c ∈ t, c.val ≤ 0x7E
  closed : Place.between.after t = .between
  noBlank : ∀ c ∈ Place.between.outer t, 0x20 < c.val ∧ c.val ≤ 0x7E

theorem compact_composed (ascii : Bool) : Composed (Compact ascii) where
  bare t bare := by
    obtain ⟨stays, whole⟩ := Place.between_bare bare
    refine ⟨fun c member => ?_, fun _ c member => (bare c member).2.1, stays, fun c member => ?_⟩
    · exact Nat.le_of_lt (bare c member).1
    · rw [whole] at member
      exact ⟨(bare c member).1, (bare c member).2.1⟩
  append {t u} first second := by
    refine ⟨List.forall_mem_append.mpr ⟨first.noControl, second.noControl⟩, fun escapes => ?_, ?_, ?_⟩
    · exact List.forall_mem_append.mpr ⟨first.onlyAscii escapes, second.onlyAscii escapes⟩
    · rw [Place.after_append, first.closed, second.closed]
    · rw [Place.outer_append, first.closed]
      exact List.forall_mem_append.mpr ⟨first.noBlank, second.noBlank⟩

theorem compact_writeString (ascii : Bool) (t : Text) : Compact ascii (writeString ascii t) := by
  obtain ⟨closed, outside⟩ := Place.between_writeString ascii t
  have range : ∀ c ∈ writeString ascii t, 0x20 ≤ c.val ∧ (ascii = true → c.val ≤ 0x7E) := by
    have mark : ∀ c ∈ Text.ofString "\"", 0x20 ≤ c.val ∧ (ascii = true → c.val ≤ 0x7E) :=
      List.forall_mem_singleton.mpr ⟨by decide, fun _ => by decide⟩
    refine List.forall_mem_append.mpr ⟨List.forall_mem_append.mpr ⟨mark, fun c member => ?_⟩, mark⟩
    obtain ⟨d, -, own⟩ := List.mem_flatMap.mp member
    exact escapeChar_range ascii d c own
  refine ⟨fun c member => (range c member).1, fun escapes c member => (range c member).2 escapes, closed, ?_⟩
  rw [outside]
  exact List.forall_mem_singleton.mpr (by decide)

/-- Whatever its strings and keys are, a value is written as a compact text. -/
theorem compact_write (ascii : Bool) (j : Json) : Compact ascii (write ascii j) :=
  (compact_composed ascii).write ascii j fun t _ => compact_writeString ascii t

/-- What is written with escapes has no surrogate, though the strings may have some. -/
theorem scalar_of_ascii {t : Text} (compact : Compact true t) : t.Scalar := by
  intro c member
  have small := compact.onlyAscii rfl c member
  simp only [CodePoint.isSurrogate, Bool.and_eq_false_iff, decide_eq_false_iff_not]
  omega

/-- A text in which each string has a blank, an escaped mark and a line feed. -/
example : Place.between.outer (write false (.arr [.str " \"\n", .int 3])) = ("[\",3]" : Text) := by decide

end DocTree.Json
