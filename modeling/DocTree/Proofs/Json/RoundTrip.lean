import DocTree.Proofs.Json.Strings
import DocTree.Proofs.Text.Mapping
import Mathlib.Data.List.TakeWhile
/-!
JSON text reads back as the value it was written for. What is read has to be something that JSON text
can say: numbers of not too many digits, scalar texts, and no key twice in an object.
-/

namespace DocTree

namespace Mapping

variable {α : Type}

theorem put_fresh {key : Text} {m : Mapping α} (fresh : key ∉ m.keys) (a : α) :
    m.put key a = m ++ [(key, a)] := by
  induction m with
  | nil => rfl
  | cons entry rest ih =>
    obtain ⟨other, b⟩ := entry
    obtain ⟨different, fresh⟩ := not_or.mp (mt List.mem_cons.mpr fresh)
    rw [put, if_neg (Ne.symm different), ih fresh]
    rfl

theorem ofPairs_eq {pairs : Mapping α} (distinct : pairs.keys.Nodup) : ofPairs pairs = pairs := by
  have onto (pairs settled : Mapping α) (distinct : (settled ++ pairs).keys.Nodup) :
      pairs.foldl (fun m entry => m.put entry.1 entry.2) settled = settled ++ pairs := by
    induction pairs generalizing settled with
    | nil => exact (List.append_nil settled).symm
    | cons entry rest ih =>
      obtain ⟨key, a⟩ := entry
      have joined : settled ++ (key, a) :: rest = settled ++ [(key, a)] ++ rest := by simp
      have next := put_fresh (fresh_of_nodup distinct) a
      rw [joined] at distinct ⊢
      rw [← next] at distinct ⊢
      exact ih _ distinct
  exact onto pairs [] distinct

end Mapping

namespace Json

/-- The values that JSON text carries without loss. -/
inductive Portable : Json → Prop
  | null : Portable .null
  | bool (b : Bool) : Portable (.bool b)
  | int {n : Int} (few : (Text.ofNat n.natAbs).length ≤ Number.digitLimit) : Portable (.int n)
  | float {x : Binary64} (written : x ≠ .nan false) : Portable (.float x)
  | str {t : Text} (scalar : t.Scalar) : Portable (.str t)
  | arr {items : List Json} (each : ∀ j ∈ items, Portable j) : Portable (.arr items)
  | obj {members : Mapping Json} (distinct : members.keys.Nodup)
    (scalar : ∀ entry ∈ members, entry.1.Scalar) (each : ∀ entry ∈ members, Portable entry.2) :
    Portable (.obj members)

namespace Reader

variable {ascii : Bool} {rest : Text} {p : Nat}

def StartsScalar (c : CodePoint) : Prop :=
  c.isDigit = true ∨ c.val ∈ [0x2D, 0x49, 0x4E, 0x66, 0x6E, 0x74]

theorem StartsScalar.range {c : CodePoint} (start : StartsScalar c) :
    c.val = 0x2D ∨ (0x30 ≤ c.val ∧ c.val ≤ 0x39) ∨ c.val = 0x49 ∨ c.val = 0x4E ∨ c.val = 0x66 ∨
      c.val = 0x6E ∨ c.val = 0x74 := by
  cases start with
  | inl digit =>
    simp only [CodePoint.isDigit, Bool.and_eq_true, decide_eq_true_eq] at digit
    exact .inr (.inl digit)
  | inr other =>
    simp only [List.mem_cons, List.not_mem_nil, or_false] at other
    omega

theorem signed_start (negative : Bool) {w : Text} (whole : IsWhole w) (more : Text) :
    ∃ c others, signText negative ++ (w ++ more) = c :: others ∧ StartsScalar c := by
  cases negative with
  | true => exact ⟨_, _, rfl, .inr List.mem_cons_self⟩
  | false =>
    obtain ⟨c, others, rfl, -⟩ := whole.start
    exact ⟨c, _, rfl, .inl (whole.isDigit c List.mem_cons_self)⟩

theorem int_start (n : Int) : ∃ c others, Text.ofInt n = c :: others ∧ StartsScalar c := by
  have start := signed_start (decide (n < 0)) (isWhole_ofNat n.natAbs) []
  rwa [List.append_nil, ← ofInt_eq] at start

theorem float_start (x : Binary64) :
    ∃ c others, NumberLayout.json.text x = c :: others ∧ StartsScalar c := by
  cases x with
  | nan literal => exact ⟨_, _, rfl, .inr (by decide)⟩
  | infinite negative =>
    cases negative with
    | true => exact ⟨_, _, rfl, .inr (by decide)⟩
    | false => exact ⟨_, _, rfl, .inr (by decide)⟩
  | finite negative exponent fraction =>
    rw [text_finite]
    split
    · exact signed_start negative isWhole_zero _
    · next nonzero =>
      have isValue := Decimal.read_shortest exponent fraction nonzero
      obtain ⟨w, tail, text, whole, -⟩ :=
        spells_decimal negative (Decimal.digits_ne_zero nonzero isValue)
      rw [text]
      exact signed_start negative whole tail

/-- A value begins with an ASCII character that is no blank and closes nothing. -/
theorem write_start (ascii : Bool) (j : Json) :
    ∃ c others, write ascii j = c :: others ∧ c.isJsonBlank = false ∧ c.val ≠ 0x5D ∧
      0 < c.val ∧ c.val < 0x80 := by
  have scalar {t : Text} (start : ∃ c others, t = c :: others ∧ StartsScalar c) :
      ∃ c others, t = c :: others ∧ c.isJsonBlank = false ∧ c.val ≠ 0x5D ∧ 0 < c.val ∧ c.val < 0x80 := by
    obtain ⟨c, others, eq, start⟩ := start
    have range := start.range
    refine ⟨c, others, eq, ?_, by omega, by omega, by omega⟩
    simp only [CodePoint.isJsonBlank, Bool.or_eq_false_iff, beq_eq_false_iff_ne]
    omega
  have bracket (c : Char) (more : Text) (notBlank : (CodePoint.ofChar c).isJsonBlank = false)
      (notEnd : c.toNat ≠ 0x5D) (range : 0 < c.toNat ∧ c.toNat < 0x80) :
      ∃ d others, CodePoint.ofChar c :: more = d :: others ∧ d.isJsonBlank = false ∧ d.val ≠ 0x5D ∧
        0 < d.val ∧ d.val < 0x80 := ⟨_, _, rfl, notBlank, notEnd, range⟩
  cases j with
  | null =>
    rw [write]
    exact bracket 'n' _ rfl (by decide) (by decide)
  | bool b =>
    cases b with
    | false =>
      rw [write]
      exact bracket 'f' _ rfl (by decide) (by decide)
    | true =>
      rw [write]
      exact bracket 't' _ rfl (by decide) (by decide)
  | int n =>
    rw [write]
    exact scalar (int_start n)
  | float x =>
    rw [write]
    exact scalar (float_start x)
  | str t =>
    rw [write]
    exact bracket '"' _ rfl (by decide) (by decide)
  | arr items =>
    rw [write]
    exact bracket '[' _ rfl (by decide) (by decide)
  | obj members =>
    rw [write]
    exact bracket '\x7b' _ rfl (by decide) (by decide)

theorem Spot.skipBlanks_start {c : CodePoint} {more : Text} (notBlank : c.isJsonBlank = false) :
    (⟨p, c :: more⟩ : Spot).skipBlanks = ⟨p, c :: more⟩ := by
  rw [skipBlanks, List.takeWhile_cons_of_neg (Bool.not_eq_true _ ▸ notBlank)]
  rfl

/-- A value that is written is read where it is followed by something else. -/
def Reads (ascii : Bool) (j : Json) : Prop :=
  ∀ fuel p rest, EndsNumber rest → 2 * (write ascii j).length ≤ fuel →
    readValue fuel ⟨p, write ascii j ++ rest⟩ = .ok (j, ⟨p + (write ascii j).length, rest⟩)

theorem readValue_scalar {fuel : Nat} {c : CodePoint} {more : Text} (start : StartsScalar c) :
    readValue (fuel + 1) ⟨p, c :: more⟩ = readScalar ⟨p, c :: more⟩ := by
  have range := start.range
  rw [readValue]
  split
  · next quote =>
    have isChar : c.val = 0x22 := Option.some.inj quote
    omega
  · next bracket =>
    have isChar : c.val = 0x5B := Option.some.inj bracket
    omega
  · next brace =>
    have isChar : c.val = 0x7B := Option.some.inj brace
    omega
  · rfl

theorem reads_scalar {j : Json} (start : ∃ c others, write ascii j = c :: others ∧ StartsScalar c)
    (read : ∀ p rest, EndsNumber rest →
      readScalar ⟨p, write ascii j ++ rest⟩ = .ok (j, ⟨p + (write ascii j).length, rest⟩)) :
    Reads ascii j := by
  intro fuel p rest ends enough
  obtain ⟨c, others, eq, start⟩ := start
  have read := read p rest ends
  rw [eq, List.length_cons] at enough
  obtain ⟨fuel, rfl⟩ : ∃ k, fuel = k + 1 := ⟨fuel - 1, by omega⟩
  rw [eq] at read ⊢
  rw [List.cons_append, readValue_scalar start]
  exact read

theorem readValue_quote (fuel : Nat) (rest : Text) :
    readValue (fuel + 1) ⟨p, CodePoint.ofChar '"' :: rest⟩ = (do
      let (t, after) ← readString fuel ⟨p, CodePoint.ofChar '"' :: rest⟩
      return (str t, after)) := by
  rw [readValue]
  rfl

theorem reads_string {t : Text} (scalar : t.Scalar) : Reads ascii (.str t) := by
  intro fuel p rest _ enough
  have long := length_flatMap_escapeChar ascii t
  rw [write] at enough ⊢
  rw [length_writeString] at enough
  obtain ⟨fuel, rfl⟩ : ∃ k, fuel = k + 1 := ⟨fuel - 1, by omega⟩
  have read : readString fuel ⟨p, writeString ascii t ++ rest⟩ =
      .ok (t, ⟨p + (writeString ascii t).length, rest⟩) :=
    readString_writeString ascii scalar (by omega)
  rw [writeString_eq] at read ⊢
  exact (readValue_quote fuel _).trans (by rw [read]; rfl)

theorem endsNumber_cons {c : CodePoint} {more : Text} (digit : c.isDigit = false) (point : c.val ≠ 0x2E)
    (small : c.val ≠ 0x65) (capital : c.val ≠ 0x45) : EndsNumber (c :: more) := by
  intro first isHead
  cases isHead
  exact ⟨digit, point, small, capital⟩

theorem writeItems_next (ascii : Bool) (j k : Json) (more : List Json) :
    writeItems ascii (j :: k :: more) =
      write ascii j ++ CodePoint.ofChar ',' :: writeItems ascii (k :: more) := by
  rw [writeItems, List.append_assoc]
  · rfl
  · exact List.cons_ne_nil _ _

theorem writeItems_start (ascii : Bool) (j : Json) (more : List Json) :
    ∃ c others, writeItems ascii (j :: more) = c :: others ∧ c.isJsonBlank = false ∧ c.val ≠ 0x5D ∧
      0 < c.val := by
  obtain ⟨c, others, eq, notBlank, notEnd, nonzero, -⟩ := write_start ascii j
  cases more with
  | nil =>
    rw [writeItems]
    exact ⟨c, others, eq, notBlank, notEnd, nonzero⟩
  | cons k more =>
    rw [writeItems_next, eq]
    exact ⟨c, _, rfl, notBlank, notEnd, nonzero⟩

theorem readItems_comma {fuel q : Nat} {t tail : Text} {j : Json}
    (first : readValue fuel ⟨p, t⟩ = .ok (j, ⟨q, CodePoint.ofChar ',' :: tail⟩)) :
    readItems (fuel + 1) ⟨p, t⟩ = (do
      let (others, last) ← readItems fuel (Spot.skipBlanks ⟨q + 1, tail⟩)
      return (j :: others, last)) := by
  rw [readItems, first]
  rfl

theorem readItems_writeItems {items : List Json} (nonempty : items ≠ [])
    (each : ∀ j ∈ items, Reads ascii j) {fuel : Nat}
    (enough : 2 * (writeItems ascii items).length < fuel) :
    readItems fuel ⟨p, writeItems ascii items ++ CodePoint.ofChar ']' :: rest⟩ =
      .ok (items, ⟨p + (writeItems ascii items).length + 1, rest⟩) := by
  induction items generalizing p fuel with
  | nil => exact absurd rfl nonempty
  | cons j more ih =>
    obtain ⟨fuel, rfl⟩ := Nat.exists_eq_add_one_of_ne_zero (Nat.ne_of_gt (Nat.zero_lt_of_lt enough))
    have own := each j List.mem_cons_self
    cases more with
    | nil =>
      rw [writeItems] at enough ⊢
      have ends : EndsNumber (CodePoint.ofChar ']' :: rest) :=
        endsNumber_cons rfl (by decide) (by decide) (by decide)
      have read := own fuel p _ ends (by omega)
      rw [readItems, read]
      rfl
    | cons k more =>
      obtain ⟨c, others, start, notBlank, -⟩ := writeItems_start ascii k more
      rw [writeItems_next, List.length_append, List.length_cons] at enough ⊢
      rw [List.append_assoc, List.cons_append]
      generalize isTail : writeItems ascii (k :: more) ++ CodePoint.ofChar ']' :: rest = tail
      have ends : EndsNumber (CodePoint.ofChar ',' :: tail) :=
        endsNumber_cons rfl (by decide) (by decide) (by decide)
      have first := own fuel p _ ends (by omega)
      have later := ih (p := p + (write ascii j).length + 1) (List.cons_ne_nil k more)
        (fun i member => each i (List.mem_cons_of_mem j member)) (show _ < fuel by omega)
      have place : (⟨p + (write ascii j).length + 1, tail⟩ : Spot).skipBlanks =
          ⟨p + (write ascii j).length + 1, tail⟩ := by
        rw [← isTail, start]
        exact Spot.skipBlanks_start notBlank
      rw [isTail] at later
      rw [readItems_comma first, place, later]
      simp only [Nat.add_assoc, Nat.add_comm 1]
      rfl

theorem readValue_bracket (fuel : Nat) (rest : Text) :
    readValue (fuel + 1) ⟨p, CodePoint.ofChar '[' :: rest⟩ = (do
      let inside := (⟨p + 1, rest⟩ : Spot).skipBlanks
      if inside.peek? = some 0x5D then return (Json.arr [], inside.skip 1)
      let (items, after) ← readItems fuel inside
      return (Json.arr items, after)) := by
  rw [readValue]
  rfl

theorem reads_arr {items : List Json} (each : ∀ j ∈ items, Reads ascii j) : Reads ascii (.arr items) := by
  intro fuel p rest _ enough
  have split : write ascii (.arr items) ++ rest =
      CodePoint.ofChar '[' :: (writeItems ascii items ++ CodePoint.ofChar ']' :: rest) := by
    rw [write, List.append_assoc, List.append_assoc]
    rfl
  have total : (write ascii (.arr items)).length = (writeItems ascii items).length + 2 := by
    rw [write, List.length_append, List.length_append]
    exact Nat.add_right_comm 1 _ 1 |>.trans (Nat.add_comm _ _)
  rw [total] at enough ⊢
  obtain ⟨fuel, rfl⟩ : ∃ k, fuel = k + 1 := ⟨fuel - 1, by omega⟩
  rw [split, readValue_bracket]
  cases items with
  | nil => rfl
  | cons j more =>
    obtain ⟨c, others, start, notBlank, notEnd, -⟩ := writeItems_start ascii j more
    have read : readItems fuel ⟨p + 1, writeItems ascii (j :: more) ++ CodePoint.ofChar ']' :: rest⟩ =
        .ok (j :: more, ⟨p + 1 + (writeItems ascii (j :: more)).length + 1, rest⟩) :=
      readItems_writeItems (List.cons_ne_nil j more) each (by omega)
    have place : (⟨p + 1, writeItems ascii (j :: more) ++ CodePoint.ofChar ']' :: rest⟩ : Spot).skipBlanks =
        ⟨p + 1, writeItems ascii (j :: more) ++ CodePoint.ofChar ']' :: rest⟩ := by
      rw [start]
      exact Spot.skipBlanks_start notBlank
    have goesOn : ¬ (⟨p + 1, writeItems ascii (j :: more) ++ CodePoint.ofChar ']' :: rest⟩ : Spot).peek? =
        some 0x5D := by
      rw [start]
      exact fun same => notEnd (Option.some.inj same)
    simp only [place, if_neg goesOn, read]
    rw [Nat.add_right_comm p 1]
    rfl

theorem readMembers_member {key : Text} {j : Json} {fuel : Nat} {c : CodePoint} {tail : Text}
    (scalar : key.Scalar) (own : Reads ascii j) (ends : EndsNumber (c :: tail))
    (notBlank : c.isJsonBlank = false)
    (enough : 2 * ((writeString ascii key).length + (write ascii j).length) ≤ fuel) :
    readMembers (fuel + 1)
        ⟨p, writeString ascii key ++ CodePoint.ofChar ':' :: (write ascii j ++ c :: tail)⟩ = (do
      let next : Spot := ⟨p + (writeString ascii key).length + 1 + (write ascii j).length, c :: tail⟩
      match next.peek? with
      | some 0x7D => return ([(key, j)], next.skip 1)
      | some 0x2C =>
        let (others, last) ← readMembers fuel (next.skip 1).skipBlanks
        return ((key, j) :: others, last)
      | _ => next.fail .expectingComma) := by
  have long := length_flatMap_escapeChar ascii key
  have quotes := length_writeString ascii key
  -- What the reader finds on its way, so that its definition is opened once and only rewritten.
  have name (more : Text) : readString fuel ⟨p, writeString ascii key ++ more⟩ =
      .ok (key, ⟨p + (writeString ascii key).length, more⟩) :=
    readString_writeString ascii scalar (by omega)
  have value := own fuel (p + (writeString ascii key).length + 1) (c :: tail) ends (by omega)
  obtain ⟨d, others, start, startNotBlank, -⟩ := write_start ascii j
  have place : (⟨p + (writeString ascii key).length + 1, write ascii j ++ c :: tail⟩ : Spot).skipBlanks =
      ⟨p + (writeString ascii key).length + 1, write ascii j ++ c :: tail⟩ := by
    rw [start]
    exact Spot.skipBlanks_start startNotBlank
  have next (p : Nat) : (⟨p, c :: tail⟩ : Spot).skipBlanks = ⟨p, c :: tail⟩ :=
    Spot.skipBlanks_start notBlank
  have quote (more : Text) : (⟨p, writeString ascii key ++ more⟩ : Spot).peek? = some 0x22 := by
    rw [writeString_eq]
    rfl
  have colon (p : Nat) (more : Text) : (⟨p, CodePoint.ofChar ':' :: more⟩ : Spot).skipBlanks =
      ⟨p, CodePoint.ofChar ':' :: more⟩ := Spot.skipBlanks_start rfl
  have isColon (p : Nat) (more : Text) : (⟨p, CodePoint.ofChar ':' :: more⟩ : Spot).peek? = some 0x3A := rfl
  have afterColon (p : Nat) (more : Text) : (⟨p, CodePoint.ofChar ':' :: more⟩ : Spot).skip 1 =
      ⟨p + 1, more⟩ := rfl
  have read := readMembers.eq_def (fuel + 1)
    ⟨p, writeString ascii key ++ CodePoint.ofChar ':' :: (write ascii j ++ c :: tail)⟩
  simp only [quote, name, bind, Except.bind, colon, isColon, afterColon, place, value, next, ne_eq,
    not_true_eq_false, if_false] at read
  exact read

theorem writeMembers_next (ascii : Bool) (key name : Text) (j k : Json) (more : Mapping Json) :
    writeMembers ascii ((key, j) :: (name, k) :: more) = writeString ascii key ++ CodePoint.ofChar ':' ::
      (write ascii j ++ CodePoint.ofChar ',' :: writeMembers ascii ((name, k) :: more)) := by
  rw [writeMembers]
  · simp only [List.append_assoc]
    rfl
  · exact List.cons_ne_nil _ _

theorem writeMembers_last (ascii : Bool) (key : Text) (j : Json) :
    writeMembers ascii [(key, j)] =
      writeString ascii key ++ CodePoint.ofChar ':' :: write ascii j := by
  rw [writeMembers, List.append_assoc]
  rfl

theorem writeMembers_start (ascii : Bool) (key : Text) (j : Json) (more : Mapping Json) :
    ∃ others, writeMembers ascii ((key, j) :: more) = CodePoint.ofChar '"' :: others := by
  cases more with
  | nil =>
    rw [writeMembers_last, writeString_eq]
    exact ⟨_, rfl⟩
  | cons entry more =>
    rw [writeMembers_next, writeString_eq]
    exact ⟨_, rfl⟩

theorem readMembers_writeMembers {members : Mapping Json} (nonempty : members ≠ [])
    (scalar : ∀ entry ∈ members, entry.1.Scalar) (each : ∀ entry ∈ members, Reads ascii entry.2)
    {fuel : Nat} (enough : 2 * (writeMembers ascii members).length < fuel) :
    readMembers fuel ⟨p, writeMembers ascii members ++ CodePoint.ofChar '\x7d' :: rest⟩ =
      .ok (members, ⟨p + (writeMembers ascii members).length + 1, rest⟩) := by
  induction members generalizing p fuel with
  | nil => exact absurd rfl nonempty
  | cons entry more ih =>
    obtain ⟨key, j⟩ := entry
    obtain ⟨fuel, rfl⟩ := Nat.exists_eq_add_one_of_ne_zero (Nat.ne_of_gt (Nat.zero_lt_of_lt enough))
    have ownName := scalar (key, j) List.mem_cons_self
    have own := each (key, j) List.mem_cons_self
    cases more with
    | nil =>
      rw [writeMembers_last, List.length_append, List.length_cons] at enough ⊢
      have ends : EndsNumber (CodePoint.ofChar '\x7d' :: rest) :=
        endsNumber_cons rfl (by decide) (by decide) (by decide)
      have room : 2 * ((writeString ascii key).length + (write ascii j).length) ≤ fuel := by omega
      rw [List.append_assoc, List.cons_append, readMembers_member ownName own ends rfl room]
      simp only [Nat.add_assoc, Nat.add_comm 1]
      rfl
    | cons entry more =>
      obtain ⟨name, k⟩ := entry
      obtain ⟨others, start⟩ := writeMembers_start ascii name k more
      rw [writeMembers_next, List.length_append, List.length_cons, List.length_append,
        List.length_cons] at enough ⊢
      rw [List.append_assoc, List.cons_append, List.append_assoc, List.cons_append]
      generalize isTail : writeMembers ascii ((name, k) :: more) ++ CodePoint.ofChar '\x7d' :: rest = tail
      have ends : EndsNumber (CodePoint.ofChar ',' :: tail) :=
        endsNumber_cons rfl (by decide) (by decide) (by decide)
      have later := ih (p := p + (writeString ascii key).length + 1 + (write ascii j).length + 1)
        (List.cons_ne_nil (name, k) more) (fun e member => scalar e (List.mem_cons_of_mem _ member))
        (fun e member => each e (List.mem_cons_of_mem _ member)) (show _ < fuel by omega)
      have place (p : Nat) : (⟨p, tail⟩ : Spot).skipBlanks = ⟨p, tail⟩ := by
        rw [← isTail, start]
        exact Spot.skipBlanks_start rfl
      have position : p + (writeString ascii key).length + 1 + (write ascii j).length + 1 +
          (writeMembers ascii ((name, k) :: more)).length + 1 = p + ((writeString ascii key).length +
            ((write ascii j).length + ((writeMembers ascii ((name, k) :: more)).length + 1) + 1)) + 1 := by
        omega
      have room : 2 * ((writeString ascii key).length + (write ascii j).length) ≤ fuel := by omega
      rw [isTail] at later
      rw [readMembers_member ownName own ends rfl room]
      change (do
        let (others, last) ← readMembers fuel (Spot.skipBlanks ⟨_, tail⟩)
        return ((key, j) :: others, last)) = _
      rw [place, later, ← position]
      rfl

theorem reads_obj {members : Mapping Json} (distinct : members.keys.Nodup)
    (scalar : ∀ entry ∈ members, entry.1.Scalar) (each : ∀ entry ∈ members, Reads ascii entry.2) :
    Reads ascii (.obj members) := by
  intro fuel p rest _ enough
  have split : write ascii (.obj members) ++ rest =
      CodePoint.ofChar '\x7b' :: (writeMembers ascii members ++ CodePoint.ofChar '\x7d' :: rest) := by
    rw [write, List.append_assoc, List.append_assoc]
    rfl
  have total : (write ascii (.obj members)).length = (writeMembers ascii members).length + 2 := by
    rw [write, List.length_append, List.length_append]
    exact Nat.add_right_comm 1 _ 1 |>.trans (Nat.add_comm _ _)
  rw [total] at enough ⊢
  obtain ⟨fuel, rfl⟩ : ∃ k, fuel = k + 1 := ⟨fuel - 1, by omega⟩
  rw [split, readValue]
  cases members with
  | nil => rfl
  | cons entry more =>
    obtain ⟨key, j⟩ := entry
    obtain ⟨others, start⟩ := writeMembers_start ascii key j more
    have read : readMembers fuel
        ⟨p + 1, writeMembers ascii ((key, j) :: more) ++ CodePoint.ofChar '\x7d' :: rest⟩ =
          .ok ((key, j) :: more, ⟨p + 1 + (writeMembers ascii ((key, j) :: more)).length + 1, rest⟩) :=
      readMembers_writeMembers (List.cons_ne_nil (key, j) more) scalar each (by omega)
    generalize isTail : writeMembers ascii ((key, j) :: more) ++ CodePoint.ofChar '\x7d' :: rest = tail at read
    have place : (⟨p + 1, tail⟩ : Spot).skipBlanks = ⟨p + 1, tail⟩ := by
      rw [← isTail, start]
      exact Spot.skipBlanks_start rfl
    have goesOn : ¬ (⟨p + 1, tail⟩ : Spot).peek? = some 0x7D := by
      rw [← isTail, start]
      exact fun same => absurd (Option.some.inj same) (by decide)
    change (do
      let inside := (⟨p + 1, tail⟩ : Spot).skipBlanks
      if inside.peek? = some 0x7D then return (Json.obj [], inside.skip 1)
      let (members, after) ← readMembers fuel inside
      return (Json.obj (Mapping.ofPairs members), after)) = _
    -- No key is there twice, so setting one after the other gives the members back.
    have kept := Mapping.ofPairs_eq distinct
    simp only [place, if_neg goesOn, read]
    change Except.ok (Json.obj (Mapping.ofPairs ((key, j) :: more)), _) = _
    rw [kept, Nat.add_right_comm p 1]
    rfl

theorem reads_portable {j : Json} (portable : j.Portable) : Reads ascii j := by
  induction portable with
  | null =>
    refine reads_scalar ?_ fun p rest _ => ?_
    · rw [write]
      exact ⟨_, _, rfl, .inr (by decide)⟩
    · rw [write]
      rfl
  | bool b =>
    refine reads_scalar ?_ fun p rest _ => ?_
    · cases b <;> rw [write] <;> exact ⟨_, _, rfl, .inr (by decide)⟩
    · cases b <;> rw [write] <;> rfl
  | @int n few =>
    refine reads_scalar ?_ fun p rest ends => ?_
    · rw [write]
      exact int_start n
    · rw [write]
      exact readScalar_int few ends
  | @float x written =>
    refine reads_scalar ?_ fun p rest ends => ?_
    · rw [write]
      exact float_start x
    · rw [write]
      exact readScalar_float written ends
  | str scalar => exact reads_string scalar
  | arr _ ih => exact reads_arr ih
  | obj distinct scalar _ ih => exact reads_obj distinct scalar ih

theorem endsNumber_blank {ending : Text} (blank : ∀ c ∈ ending, c.isJsonBlank = true) : EndsNumber ending := by
  intro c isHead
  have isBlank := blank c (List.mem_of_mem_head? isHead)
  simp only [CodePoint.isJsonBlank, Bool.or_eq_true, beq_iff_eq] at isBlank
  refine ⟨?_, by omega, by omega, by omega⟩
  simp only [CodePoint.isDigit, Bool.and_eq_false_iff, decide_eq_false_iff_not]
  omega

end Reader

/-- A value is read from its text, with or without blanks after it. -/
theorem read_write (ascii : Bool) {j : Json} (portable : j.Portable) {ending : Text}
    (blank : ∀ c ∈ ending, c.isJsonBlank = true) : read (write ascii j ++ ending) = .ok j := by
  obtain ⟨c, others, start, notBlank, -⟩ := Reader.write_start ascii j
  have place : (⟨0, write ascii j ++ ending⟩ : Reader.Spot).skipBlanks = ⟨0, write ascii j ++ ending⟩ := by
    rw [start]
    exact Reader.Spot.skipBlanks_start notBlank
  have enough : 2 * (write ascii j).length ≤ 2 * (write ascii j ++ ending).length + 2 := by
    rw [List.length_append]
    omega
  have value := Reader.reads_portable portable _ 0 ending (Reader.endsNumber_blank blank) enough
  have atEnd (p : Nat) : (⟨p, ending⟩ : Reader.Spot).skipBlanks.rest = [] := by
    have all : ending.takeWhile (·.isJsonBlank) = ending := List.takeWhile_eq_self_iff.mpr blank
    rw [Reader.Spot.skipBlanks, all]
    exact List.drop_length
  rw [read]
  simp only [place, value, bind, Except.bind, atEnd]
  rfl

theorem readText_write (ascii : Bool) {j : Json} (portable : j.Portable) {ending : Text}
    (blank : ∀ c ∈ ending, c.isJsonBlank = true) : readText (write ascii j ++ ending) = .ok j := by
  obtain ⟨c, others, start, -, -, -, small⟩ := Reader.write_start ascii j
  have first : ¬ (write ascii j ++ ending).head?.map (·.val) = some 0xFEFF := by
    rw [start]
    intro mark
    have isMark : c.val = 0xFEFF := Option.some.inj mark
    omega
  rw [readText, if_neg first, read_write ascii portable blank]

end Json

end DocTree
