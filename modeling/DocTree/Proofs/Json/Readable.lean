import DocTree.Codec.Input
import DocTree.Proofs.Codec.Written
import DocTree.Proofs.Number.Digits
/-!
What holds of every value that is read from a text, because it holds of what the reader makes: words, numbers,
texts, and arrays and objects of what it has read before.
-/

namespace DocTree

namespace Json

/-- A property that the reader cannot but keep to. No number that is read has too many digits. -/
structure Readable (Q : Json → Prop) : Prop where
  str (t : Text) : Q (.str t)
  arr {js : List Json} (items : ∀ j ∈ js, Q j) : Q (.arr js)
  obj {ms : List (Text × Json)} (members : ∀ pair ∈ ms, Q pair.2) : Q (.obj (Mapping.ofPairs ms))
  word : ∀ word ∈ Reader.words, Q word.2
  int {n : Int} (short : Number.isShort n = true) : Q (.int n)
  float (x : Binary64) : Q (.float x)

variable {Q : Json → Prop} {j : Json}

namespace Reader

theorem digits_digits (t : Text) : ∀ c ∈ digits t, c.isDigit = true := by
  intro c member
  exact List.mem_takeWhile_imp member

theorem wholeDigits_digits (t : Text) : ∀ c ∈ wholeDigits t, c.isDigit = true := by
  intro c member
  cases t with
  | nil => cases member
  | cons first rest =>
    rw [wholeDigits] at member
    split at member
    · next isZero =>
      obtain rfl := List.mem_singleton.mp member
      simp [CodePoint.isDigit, isZero]
    · exact digits_digits _ c member

theorem isShort_digits {t : Text} (digits : ∀ c ∈ t, c.isDigit = true) (few : t.length ≤ Number.digitLimit)
    (negative : Bool) :
    Number.isShort (if negative then -(Number.value t : Int) else Number.value t) = true := by
  have less := Number.value_lt digits
  have enough := Nat.pow_le_pow_right (by decide : 0 < 10) few
  rw [Number.isShort_iff]
  cases negative with
  | true =>
    rw [if_pos rfl, Int.natAbs_neg, Int.natAbs_natCast]
    exact less.trans_le enough
  | false =>
    rw [if_neg Bool.false_ne_true, Int.natAbs_natCast]
    exact less.trans_le enough

end Reader

namespace Readable

open Reader

/-- The property holds of whatever is read with so much fuel. -/
structure Held (Q : Json → Prop) (fuel : Nat) : Prop where
  value : ∀ s j after, readValue fuel s = .ok (j, after) → Q j
  items : ∀ s js after, readItems fuel s = .ok (js, after) → ∀ j ∈ js, Q j
  members : ∀ s ms after, readMembers fuel s = .ok (ms, after) → ∀ pair ∈ ms, Q pair.2

section

variable {fuel : Nat} {s after : Spot} (known : Held Q fuel)
include known

theorem Held.moreItems {js : List Json} (read : readItems (fuel + 1) s = .ok (js, after)) : ∀ j ∈ js, Q j := by
  rw [readItems] at read
  obtain ⟨⟨j, next⟩, inner, read⟩ := of_bind_ok read
  have first := known.value _ _ _ inner
  dsimp only at read
  split at read
  · cases read
    exact List.forall_mem_singleton.mpr first
  · obtain ⟨⟨rest, last⟩, later, read⟩ := of_bind_ok read
    cases read
    exact List.forall_mem_cons.mpr ⟨first, known.items _ _ _ later⟩
  · cases read

theorem Held.moreMembers {ms : List (Text × Json)} (read : readMembers (fuel + 1) s = .ok (ms, after)) :
    ∀ pair ∈ ms, Q pair.2 := by
  rw [readMembers] at read
  split at read
  · obtain ⟨_, failed, _⟩ := of_bind_ok read
    cases failed
  obtain ⟨⟨name, afterName⟩, _, read⟩ := of_bind_ok read
  dsimp only at read
  split at read
  · obtain ⟨_, failed, _⟩ := of_bind_ok read
    cases failed
  obtain ⟨⟨j, next⟩, inner, read⟩ := of_bind_ok read
  have first := known.value _ _ _ inner
  dsimp only at read
  split at read
  · cases read
    exact List.forall_mem_singleton.mpr first
  · obtain ⟨⟨rest, last⟩, later, read⟩ := of_bind_ok read
    cases read
    exact List.forall_mem_cons.mpr ⟨first, known.members _ _ _ later⟩
  · cases read

end

variable (law : Readable Q)
include law

theorem number {s after : Spot} (read : readNumber s = .ok (j, after)) : Q j := by
  unfold readNumber at read
  dsimp only at read
  generalize (if (s.peek? == some 0x2D) = true then s.skip 1 else s) = body at read
  split at read
  · cases read
  split at read
  · split at read
    · cases read
    · next few =>
      cases read
      exact law.int (isShort_digits (wholeDigits_digits _) (Nat.not_lt.mp few) _)
  · cases read
    exact law.float _

theorem scalar {s after : Spot} (read : readScalar s = .ok (j, after)) : Q j := by
  unfold readScalar at read
  split at read
  · next word value found =>
    cases read
    exact law.word _ (List.mem_of_find?_eq_some found)
  · exact law.number read

theorem value {fuel : Nat} (known : Held Q fuel) {s after : Spot}
    (read : readValue (fuel + 1) s = .ok (j, after)) : Q j := by
  rw [readValue] at read
  split at read
  · obtain ⟨_, _, read⟩ := of_bind_ok read
    cases read
    exact law.str _
  · dsimp only at read
    split at read
    · cases read
      exact law.arr nofun
    · obtain ⟨⟨js, last⟩, inner, read⟩ := of_bind_ok read
      cases read
      exact law.arr (known.items _ _ _ inner)
  · dsimp only at read
    split at read
    · cases read
      have none : ∀ pair ∈ ([] : List (Text × Json)), Q pair.2 := nofun
      exact law.obj none
    · obtain ⟨⟨ms, last⟩, inner, read⟩ := of_bind_ok read
      cases read
      exact law.obj (known.members _ _ _ inner)
  · exact law.scalar read

theorem held (fuel : Nat) : Held Q fuel := by
  induction fuel with
  | zero => exact ⟨nofun, nofun, nofun⟩
  | succ fuel ih => exact ⟨fun _ _ _ => law.value ih, fun _ _ _ => ih.moreItems, fun _ _ _ => ih.moreMembers⟩

theorem read {t : Text} (read : Json.read t = .ok j) : Q j := by
  rw [Json.read] at read
  obtain ⟨⟨value, after⟩, isRead, read⟩ := of_bind_ok read
  dsimp only at read
  split at read
  · cases read
    exact (law.held _).value _ _ _ isRead
  · cases read

theorem input {input : Input} (read : input.json? = .ok j) : Q j := by
  cases input with
  | text t =>
    have read : Json.readText t = .ok j := of_mapError_ok read
    rw [Json.readText] at read
    split at read
    · cases read
    · exact law.read read
  | bytes bs =>
    obtain ⟨t, _, read⟩ := of_bind_ok read
    exact law.read (of_mapError_ok read)

end Readable

end Json

end DocTree
