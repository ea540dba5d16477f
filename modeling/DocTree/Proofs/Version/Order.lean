import DocTree.Codec.Decode
import Mathlib
/-!
The order of releases. Two lists of numbers go on with zeros, and the first place where they differ decides.
A library of versions that reads and compares releases in this way lets those from 1.21 on and before 1.24
into the usual range.
-/

namespace DocTree.Version

/-- Numbers that make a version: there are some, and none is negative. -/
def Released (v : List Int) : Prop := v ≠ [] ∧ ∀ n ∈ v, 0 ≤ n

/-- One list of numbers comes before another, where both go on with zeros. -/
def Precedes (v w : List Int) : Prop :=
  ∃ i, v.getD i 0 < w.getD i 0 ∧ ∀ j < i, v.getD j 0 = w.getD j 0

section

variable {v w : List Int}

theorem precedes_iff : Precedes v w ↔
    v.getD 0 0 < w.getD 0 0 ∨ v.getD 0 0 = w.getD 0 0 ∧ Precedes v.tail w.tail := by
  have later (u : List Int) (i : Nat) : u.getD (i + 1) 0 = u.tail.getD i 0 := by
    cases u <;> rfl
  constructor
  · rintro ⟨i, less, same⟩
    cases i with
    | zero => exact .inl less
    | succ i =>
      rw [later, later] at less
      refine .inr ⟨same 0 (Nat.zero_lt_succ i), i, less, fun j before => ?_⟩
      rw [← later, ← later]
      exact same (j + 1) (Nat.succ_lt_succ before)
  · rintro (less | ⟨first, i, less, same⟩)
    · exact ⟨0, less, nofun⟩
    · refine ⟨i + 1, by rwa [later, later], fun j before => ?_⟩
      cases j with
      | zero => exact first
      | succ j =>
        rw [later, later]
        exact same j (Nat.lt_of_succ_lt_succ before)

theorem not_precedes_nil (positive : ∀ n ∈ v, 0 ≤ n) : ¬ Precedes v [] := by
  rintro ⟨i, less, _⟩
  by_cases inside : i < v.length
  · rw [List.getD_eq_getElem v 0 inside, List.getD_nil] at less
    exact absurd (positive _ (List.getElem_mem inside)) (Int.not_le.mpr less)
  · rw [List.getD_eq_default v 0 (Nat.le_of_not_lt inside)] at less
    exact absurd less (Int.lt_irrefl 0)

/-- A list is between two numbers of two parts, just as its own first two parts are. -/
theorem in_series_iff (positive : ∀ n ∈ v, 0 ≤ n) (a b c : Int) :
    ¬ Precedes v [a, b] ∧ Precedes v [a, c] ↔ v.getD 0 0 = a ∧ b ≤ v.getD 1 0 ∧ v.getD 1 0 < c := by
  have second : v.tail.getD 0 0 = v.getD 1 0 := by
    cases v <;> rfl
  have rest : ¬ Precedes v.tail.tail [] :=
    not_precedes_nil fun n member => positive n (List.mem_of_mem_tail (List.mem_of_mem_tail member))
  simp only [precedes_iff (v := v), precedes_iff (v := v.tail), second, rest, List.tail_cons,
    List.getD_cons_zero, and_false, or_false]
  omega

end

end DocTree.Version

namespace DocTree.Versioning

open Version (Released Precedes)
open Codec (versionText)

variable [Versioning]

/-- A version is in a range just if something holds of it. -/
def Decides (range : Versioning.Range) (w : Versioning.Version) (p : Prop) : Prop :=
  ∃ inside, contains range w = .ok inside ∧ (inside = true ↔ p)

/-- What PEP 440 says of releases that are written with points between their numbers: they are versions,
and nothing else that is written so is one; a sign before a release makes a range of those that are not, or
that are, before it; and a comma between two ranges makes the range of what is in both. -/
structure FollowsPep440 : Prop where
  released : ∀ v, Released v → v.all Number.isShort → ∃ w, version? (versionText v) = some w
  unreleased : ∀ v, ¬ Released v → version? (versionText v) = none
  atLeast : ∀ bound, Released bound → bound.all Number.isShort →
    ∃ range, range? (">=" ++ versionText bound) = some range ∧ ∀ v w, Released v →
      version? (versionText v) = some w → Decides range w (¬ Precedes v bound)
  less : ∀ bound, Released bound → bound.all Number.isShort →
    ∃ range, range? ("<" ++ versionText bound) = some range ∧ ∀ v w, Released v →
      version? (versionText v) = some w → Decides range w (Precedes v bound)
  comma : ∀ s t a b, range? s = some a → range? t = some b →
    ∃ range, range? (s ++ "," ++ t) = some range ∧
      ∀ w p q, Decides a w p → Decides b w q → Decides range w (p ∧ q)

theorem FollowsPep440.usual_decides (pep : FollowsPep440) {v : List Int} (released : Released v)
    {w : Versioning.Version} (isRead : version? (versionText v) = some w) :
    Decides usual w (¬ Precedes v [1, 21] ∧ Precedes v [1, 24]) := by
  obtain ⟨a, readA, decidesA⟩ := pep.atLeast [1, 21] ⟨nofun, by decide⟩ rfl
  obtain ⟨b, readB, decidesB⟩ := pep.less [1, 24] ⟨nofun, by decide⟩ rfl
  obtain ⟨range, readBoth, both⟩ := pep.comma _ _ a b readA readB
  have same : some usual = some range := reads_usual.symm.trans readBoth
  rw [Option.some.inj same]
  exact both w _ _ (decidesA v w released isRead) (decidesB v w released isRead)

end DocTree.Versioning
