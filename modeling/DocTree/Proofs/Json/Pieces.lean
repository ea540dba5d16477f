import DocTree.Proofs.Json.RoundTrip
import DocTree.Proofs.Text.Bare
/-!
JSON text is made of pieces: words, numbers and punctuation, which have visible ASCII characters only, and
strings. What holds of each piece, and of two texts in a row whenever it holds of both, holds of all that is
written.
-/

namespace DocTree

open Text

namespace NumberLayout

theorem bare_exponentText (e : Int) : (json.exponentText e).Bare := by
  have sign : Bare (ofString (if e < 0 then "-" else "+")) := by split <;> decide
  have mark : Bare "e" := by decide
  have zeros := bare_copies (2 - (ofNat e.natAbs).length) (by decide : Bare "0")
  simp only [exponentText, bare_append]
  exact ⟨⟨⟨mark, sign⟩, zeros⟩, bare_ofNat _⟩

theorem bare_decimalText (d : Decimal) : (json.decimalText d).Bare := by
  have digits := bare_ofNat d.digits
  have zeros (count : Nat) := bare_copies count (by decide : Bare "0")
  have point : Bare "." := by decide
  rw [decimalText]
  split
  · split
    · exact bare_append.mpr ⟨bare_append.mpr ⟨digits, zeros _⟩, by decide⟩
    · have before (k : Nat) : Bare ((ofNat d.digits).take k) :=
        fun c member => digits c (List.mem_of_mem_take member)
      have after (k : Nat) : Bare ((ofNat d.digits).drop k) :=
        fun c member => digits c (List.mem_of_mem_drop member)
      exact bare_append.mpr ⟨bare_append.mpr ⟨before _, point⟩, after _⟩
    · exact bare_append.mpr ⟨bare_append.mpr ⟨by decide, zeros _⟩, digits⟩
  · refine bare_append.mpr ⟨?_, bare_exponentText _⟩
    generalize ofNat d.digits = spelled at digits
    rcases spelled with _ | ⟨first, _ | ⟨second, others⟩⟩
    · exact bare_nil
    · exact digits
    · obtain ⟨first, others⟩ := bare_cons.mp digits
      exact bare_cons.mpr ⟨first, bare_append.mpr ⟨point, others⟩⟩

theorem bare_text (x : Binary64) : (json.text x).Bare := by
  have sign (negative : Bool) : Bare (ofString (if negative then "-" else "")) := by cases negative <;> decide
  cases x with
  | nan literal => exact (by decide : Bare "NaN")
  | infinite negative => exact bare_append.mpr ⟨sign negative, by decide⟩
  | finite negative exponent fraction =>
    refine bare_append.mpr ⟨sign negative, ?_⟩
    split
    · exact (by decide : Bare ("0" ++ ".0"))
    · exact bare_decimalText _

end NumberLayout

namespace Json

open Reader

theorem bare_unicodeEscape (c : CodePoint) : (unicodeEscape c).Bare := by
  have unit (n : Nat) : (unitEscape n).Bare := bare_append.mpr ⟨by decide, bare_hex 4 n⟩
  rw [unicodeEscape]
  split
  · exact unit _
  · exact bare_append.mpr ⟨unit _, unit _⟩

/-- A text is one of the strings of a value, or one of its keys. -/
inductive HasText (t : Text) : Json → Prop
  | str : HasText t (.str t)
  | item {j : Json} {items : List Json} (member : j ∈ items) (inside : HasText t j) : HasText t (.arr items)
  | key {entry : Text × Json} {members : Mapping Json} (member : entry ∈ members) (isKey : entry.1 = t) :
    HasText t (.obj members)
  | value {entry : Text × Json} {members : Mapping Json} (member : entry ∈ members) (inside : HasText t entry.2) :
    HasText t (.obj members)

/-- A property that the pieces outside of strings have, and that two texts in a row have if both have it. -/
structure Composed (good : Text → Prop) : Prop where
  bare : ∀ t : Text, t.Bare → good t
  append : ∀ {t u : Text}, good t → good u → good (t ++ u)

namespace Composed

variable {good : Text → Prop} (composed : Composed good) (ascii : Bool)
include composed

theorem cons {c : CodePoint} {t : Text} (bare : Bare [c]) (rest : good t) : good (c :: t) :=
  composed.append (composed.bare [c] bare) rest

mutual

theorem write (j : Json) (strings : ∀ t, HasText t j → good (writeString ascii t)) : good (write ascii j) := by
  cases j with
  | null =>
    rw [Json.write]
    exact composed.bare _ (by decide)
  | bool b => cases b <;> rw [Json.write] <;> exact composed.bare _ (by decide)
  | int n =>
    rw [Json.write]
    exact composed.bare _ (bare_ofInt n)
  | float x =>
    rw [Json.write]
    exact composed.bare _ (NumberLayout.bare_text x)
  | str t =>
    rw [Json.write]
    exact strings t .str
  | arr items =>
    have members := writeItems items fun j member t inside => strings t (.item member inside)
    rw [Json.write]
    exact composed.append (composed.append (composed.bare _ (by decide)) members) (composed.bare _ (by decide))
  | obj members =>
    have entries := writeMembers members (fun entry member => strings entry.1 (.key member rfl))
      fun entry member t inside => strings t (.value member inside)
    rw [Json.write]
    exact composed.append (composed.append (composed.bare _ (by decide)) entries) (composed.bare _ (by decide))

theorem writeItems (items : List Json)
    (strings : ∀ j ∈ items, ∀ t, HasText t j → good (writeString ascii t)) : good (writeItems ascii items) := by
  match items with
  | [] => exact composed.bare [] bare_nil
  | [j] =>
    rw [Json.writeItems]
    exact write j (strings j List.mem_cons_self)
  | j :: k :: more =>
    have own := write j (strings j List.mem_cons_self)
    have later := writeItems (k :: more) fun i member => strings i (List.mem_cons_of_mem j member)
    rw [writeItems_next]
    exact composed.append own (composed.cons (by decide) later)

theorem writeMembers (members : List (Text × Json)) (keys : ∀ entry ∈ members, good (writeString ascii entry.1))
    (strings : ∀ entry ∈ members, ∀ t, HasText t entry.2 → good (writeString ascii t)) :
    good (writeMembers ascii members) := by
  match members with
  | [] => exact composed.bare [] bare_nil
  | [(key, j)] =>
    have name := keys (key, j) List.mem_cons_self
    have own := write j (strings (key, j) List.mem_cons_self)
    rw [writeMembers_last]
    exact composed.append name (composed.cons (by decide) own)
  | (key, j) :: (key', k) :: more =>
    have name := keys (key, j) List.mem_cons_self
    have own := write j (strings (key, j) List.mem_cons_self)
    have later := writeMembers ((key', k) :: more) (fun e member => keys e (List.mem_cons_of_mem _ member))
      fun e member => strings e (List.mem_cons_of_mem _ member)
    rw [writeMembers_next]
    exact composed.append name (composed.cons (by decide) (composed.append own (composed.cons (by decide) later)))

end

end Composed

end Json

end DocTree
