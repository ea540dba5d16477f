import DocTree.Proofs.Filter.Key
import DocTree.Proofs.Number.Digits
import DocTree.Proofs.Version.Order
import DocTree.Version.Range
/-!
Versions that are written part by part, with points between the parts, and read again. What is read is the
release that was written, if there are parts and none of them is negative; every other list of numbers gives
a text that is no version. With the ranges that are written as clauses this is a library of versions that
reads and compares releases as PEP 440 has it.
-/

namespace DocTree

namespace Version

open Clause

def parts (release : List Nat) : List Int := release.map Int.ofNat

/-- The release that a list of numbers is, if there are numbers and none is negative. -/
def release? (v : List Int) : Option (List Nat) :=
  if v.isEmpty then none
  else v.mapM fun n => if n < 0 then none else some n.toNat

theorem compareRelease_eq_lt_iff (a b : List Nat) :
    compareRelease a b = .lt ↔ Precedes (parts a) (parts b) := by
  induction a, b using compareRelease.induct with
  | case1 => exact iff_of_false (by simp [compareRelease]) (not_precedes_nil nofun)
  | case2 b bs ih =>
    rw [compareRelease, Ordering.then_eq_lt, ih, precedes_iff (w := parts (b :: bs))]
    have zero : 0 = b ↔ (0 : Int) = b := by omega
    simp [parts, Nat.compare_eq_lt, zero]
  | case3 a as ih =>
    rw [compareRelease, Ordering.then_eq_lt, ih, precedes_iff (v := parts (a :: as))]
    simp [parts, Nat.compare_eq_lt]
  | case4 a as b bs ih =>
    rw [compareRelease, Ordering.then_eq_lt, ih, precedes_iff (v := parts (a :: as))]
    simp [parts, Nat.compare_eq_lt]

theorem compare_final (a b : List Nat) : (final a).compare (final b) = compareRelease a b := by
  have same : compareRelease (final a).rank (final b).rank = .eq := by
    simp [final, rank, compareRelease]
  rw [Version.compare, same]
  simp [final]

theorem parts_or_negative (v : List Int) :
    (∃ release, v = parts release) ∨ ∃ release n more, v = parts release ++ .negSucc n :: more := by
  induction v with
  | nil => exact .inl ⟨[], rfl⟩
  | cons n v ih =>
    cases n with
    | negSucc n => exact .inr ⟨[], n, v, rfl⟩
    | ofNat n =>
      rcases ih with ⟨release, rfl⟩ | ⟨release, m, more, rfl⟩
      · exact .inl ⟨n :: release, rfl⟩
      · exact .inr ⟨n :: release, m, more, rfl⟩

theorem parts_nonneg (release : List Nat) : ∀ n ∈ parts release, 0 ≤ n := by
  intro n member
  obtain ⟨m, _, rfl⟩ := List.mem_map.mp member
  exact Int.natCast_nonneg m

theorem release?_parts {release : List Nat} (some_part : release ≠ []) :
    Version.release? (parts release) = some release := by
  have each : (parts release).mapM (fun n => if n < 0 then none else some n.toNat) = some release := by
    clear some_part
    induction release with
    | nil => rfl
    | cons n release ih =>
      rw [parts, List.map_cons, List.mapM_cons, ← parts, ih]
      rfl
  rw [Version.release?, if_neg (by simpa [parts] using some_part), each]

theorem release?_negative (release : List Nat) (n : Nat) (more : List Int) :
    Version.release? (parts release ++ .negSucc n :: more) = none := by
  have fails : (parts release ++ .negSucc n :: more).mapM
      (fun n => if n < 0 then none else some n.toNat) = none := by
    induction release with
    | nil =>
      rw [parts, List.map_nil, List.nil_append, List.mapM_cons, if_pos (Int.negSucc_lt_zero n)]
      rfl
    | cons m release ih =>
      rw [parts, List.map_cons, List.cons_append, List.mapM_cons, ← parts, ih]
      rfl
  rw [Version.release?, if_neg (by simp), fails]

def further (n : Int) : Text := "." ++ Text.ofInt n

theorem versionText_cons (n : Int) (v : List Int) :
    Codec.versionText (n :: v) = Text.ofInt n ++ v.flatMap further := by
  induction v generalizing n with
  | nil => exact (List.append_nil _).symm
  | cons m v ih =>
    have later := ih m
    rw [Codec.versionText] at later ⊢
    rw [List.map_cons, List.map_cons, Text.joinWith, ← List.map_cons, later, List.flatMap_cons, further]
    simp only [List.append_assoc]

def EndsPart (rest : Text) : Prop := ∀ c ∈ rest.head?, c.isDigit = false

theorem endsPart_nil : EndsPart [] := fun _ isHead => nomatch isHead

theorem further_endsPart (v : List Int) {rest : Text} (ends : EndsPart rest) :
    EndsPart (v.flatMap further ++ rest) := by
  cases v with
  | nil => exact ends
  | cons n v =>
    rintro c ⟨⟩
    rfl

theorem number?_ofNat (n : Nat) {rest : Text} (ends : EndsPart rest) :
    number? (Text.ofNat n ++ rest) = some (n, rest) := by
  have all := Text.isDigit_ofNat n
  have begins : (Text.ofNat n ++ rest).head?.any CodePoint.isDigit = true := by
    obtain ⟨c, more, eq⟩ := List.exists_cons_of_ne_nil (Text.ofNat_ne_nil n)
    rw [eq] at all ⊢
    exact all c List.mem_cons_self
  have stops : rest.takeWhile CodePoint.isDigit = [] ∧ rest.dropWhile CodePoint.isDigit = rest := by
    cases rest with
    | nil => exact ⟨rfl, rfl⟩
    | cons d rest => simp [ends d rfl]
  have value : (Text.ofNat n).foldl (fun n c => 10 * n + (c.val - 0x30)) 0 = n := Number.value_ofNat n
  rw [number?, if_pos begins, digits, List.takeWhile_append_of_pos all, List.dropWhile_append_of_pos all,
    stops.1, stops.2, List.append_nil, value]

theorem moreParts_parts (release : List Nat) {rest : Text} (ends : EndsPart rest)
    (last : (after? "." rest).bind number? = none) {fuel : Nat} (enough : release.length ≤ fuel) :
    moreParts fuel ((parts release).flatMap further ++ rest) = (release, rest) := by
  induction release generalizing fuel with
  | nil =>
    cases fuel with
    | zero => rfl
    | succ fuel => simp [parts, moreParts, last]
  | cons n release ih =>
    cases fuel with
    | zero => cases enough
    | succ fuel =>
      have point : after? "." ((parts (n :: release)).flatMap further ++ rest) =
          some (Text.ofNat n ++ ((parts release).flatMap further ++ rest)) := by
        simp [parts, further, after?, Text.ofInt, Text.ofString]
      simp only [moreParts, point, Option.bind_some, number?_ofNat n (further_endsPart _ ends),
        ih (Nat.le_of_succ_le_succ enough)]

theorem length_le_further (release : List Nat) (rest : Text) :
    release.length ≤ ((parts release).flatMap further ++ rest).length := by
  induction release with
  | nil => exact Nat.zero_le _
  | cons n release ih =>
    have point : (further (Int.ofNat n)).length = (Text.ofNat n).length + 1 := rfl
    simp only [parts, List.map_cons, List.flatMap_cons, List.length_append, List.length_cons] at ih ⊢
    omega

theorem release?_parts_text (n : Nat) (release : List Nat) {rest : Text} (ends : EndsPart rest)
    (last : (after? "." rest).bind number? = none) (noEpoch : after? "!" rest = none) :
    Clause.release? (Text.ofNat n ++ ((parts release).flatMap further ++ rest)) =
      some (0, n :: release, rest) := by
  obtain ⟨c, more, eq⟩ := List.exists_cons_of_ne_nil (Text.ofNat_ne_nil n)
  have digit : c.isDigit = true := Text.isDigit_ofNat n c (eq ▸ List.mem_cons_self)
  have noLetter : after? "v" (Text.ofNat n ++ ((parts release).flatMap further ++ rest)) = none := by
    have other : c ≠ CodePoint.ofChar 'v' := by
      rintro rfl
      cases digit
    simp [eq, after?, Text.ofString, Ne.symm other]
  have noMark : after? "!" ((parts release).flatMap further ++ rest) = none := by
    cases release with
    | nil => exact noEpoch
    | cons m release => rfl
  have others := moreParts_parts release ends last (length_le_further release rest)
  simp only [Clause.release?, noLetter, Option.getD_none, number?_ofNat n (further_endsPart _ ends),
    Option.bind_eq_bind, Option.bind_some, noMark, others, Option.pure_def]

/-- The text of a list of numbers is read as the release that it is, and as nothing else. -/
theorem version?_versionText (v : List Int) :
    version? (Codec.versionText v) = (Version.release? v).map final := by
  rcases parts_or_negative v with ⟨release, rfl⟩ | ⟨release, n, more, rfl⟩
  · cases release with
    | nil => rfl
    | cons n release =>
      have text : Codec.versionText (parts (n :: release)) =
          Text.ofNat n ++ ((parts release).flatMap further ++ []) := by
        rw [List.append_nil]
        exact versionText_cons n (parts release)
      rw [text, release?_parts (List.cons_ne_nil _ _), version?,
        release?_parts_text n release endsPart_nil rfl rfl]
      rfl
  · rw [release?_negative]
    cases release with
    | nil =>
      have text : Codec.versionText (parts [] ++ .negSucc n :: more) =
          CodePoint.ofChar '-' :: (Text.ofNat (n + 1) ++ more.flatMap further) :=
        versionText_cons (.negSucc n) more
      rw [text]
      rfl
    | cons m release =>
      have text : Codec.versionText (parts (m :: release) ++ .negSucc n :: more) =
          Text.ofNat m ++ ((parts release).flatMap further ++ CodePoint.ofChar '.' :: CodePoint.ofChar '-' ::
            (Text.ofNat (n + 1) ++ more.flatMap further)) := by
        refine (versionText_cons m (parts release ++ .negSucc n :: more)).trans ?_
        rw [List.flatMap_append]
        rfl
      -- The sign after the point belongs to no part and to no mark.
      rw [text, version?, release?_parts_text m release (by rintro c ⟨⟩; rfl) rfl rfl]
      rfl

end Version

namespace Clause

open Version (parts final release? further versionText_cons)
open Codec (versionText)

def IsDotted (c : CodePoint) : Prop := c.isDigit = true ∨ c = CodePoint.ofChar '.'

theorem dotted_versionText (release : List Nat) : ∀ c ∈ versionText (parts release), IsDotted c := by
  have later (release : List Nat) : ∀ c ∈ (parts release).flatMap further, IsDotted c := by
    intro c member
    obtain ⟨n, part, inside⟩ := List.mem_flatMap.mp member
    obtain ⟨m, _, rfl⟩ := List.mem_map.mp part
    rcases List.mem_cons.mp inside with rfl | digit
    · exact .inr rfl
    · exact .inl (Text.isDigit_ofNat m c digit)
  cases release with
  | nil => exact nofun
  | cons n release =>
    intro c member
    rw [parts, List.map_cons, versionText_cons] at member
    rcases List.mem_append.mp member with digit | other
    · exact .inl (Text.isDigit_ofNat n c digit)
    · exact later release c other

theorem runsFrom_digits {digits : Text} (all : ∀ c ∈ digits, c.isDigit = true) (count : Nat) (rest : Text) :
    runsFrom count (digits ++ rest) = runsFrom (count + digits.length) rest := by
  induction digits generalizing count with
  | nil => rfl
  | cons c digits ih =>
    obtain ⟨first, later⟩ := List.forall_mem_cons.mp all
    rw [List.cons_append, runsFrom, if_pos first, ih later, List.length_cons]
    congr 1
    omega

theorem runsFrom_further {release : List Nat} (short : (parts release).all Number.isShort = true)
    {count : Nat} (few : count ≤ Number.digitLimit) :
    ∀ run ∈ runsFrom count ((parts release).flatMap further), run ≤ Number.digitLimit := by
  induction release generalizing count with
  | nil => simpa [parts, runsFrom] using few
  | cons n release ih =>
    rw [parts, List.map_cons, List.all_cons, Bool.and_eq_true, Number.isShort, decide_eq_true_iff] at short
    have point : (parts (n :: release)).flatMap further =
        CodePoint.ofChar '.' :: (Text.ofNat n ++ (parts release).flatMap further) := rfl
    rw [point, runsFrom, if_neg (by decide), runsFrom_digits (Text.isDigit_ofNat n), Nat.zero_add]
    exact List.forall_mem_cons.mpr ⟨few, ih short.2 short.1⟩

/-- Numbers that are not too long are no obstacle to the use of a clause. -/
theorem withinLimit_versionText {sign : Text} {release : List Nat} (n : Nat) (noDigit : ∀ c ∈ sign, c.isDigit = false)
    (short : (parts (n :: release)).all Number.isShort = true) (clause : Clause) :
    withinLimit (sign ++ versionText (parts (n :: release))) clause = clause := by
  have runs : ∀ run ∈ digitRuns (sign ++ versionText (parts (n :: release))), run ≤ Number.digitLimit := by
    rw [digitRuns]
    induction sign with
    | nil =>
      rw [parts, List.map_cons, List.all_cons, Bool.and_eq_true, Number.isShort, decide_eq_true_iff] at short
      rw [List.nil_append, parts, List.map_cons, versionText_cons]
      refine (runsFrom_digits (Text.isDigit_ofNat n) 0 _).symm ▸ ?_
      rw [Nat.zero_add]
      exact runsFrom_further short.2 short.1
    | cons c sign ih =>
      obtain ⟨first, later⟩ := List.forall_mem_cons.mp noDigit
      rw [List.cons_append, runsFrom, if_neg (by simp [first])]
      exact List.forall_mem_cons.mpr ⟨Nat.zero_le _, ih later⟩
  have fits : (digitRuns (sign ++ versionText (parts (n :: release)))).find? (Number.digitLimit < ·) = none :=
    List.find?_eq_none.mpr fun run member => by simpa using runs run member
  unfold withinLimit
  rw [fits]

/-- A character that a sign may have: no digit, no blank, no comma and no capital letter. -/
def isSignCharacter (c : CodePoint) : Bool :=
  !c.isDigit && !c.isBlank && c != CodePoint.ofChar ',' && c.toLowerAscii == c

theorem lower_dotted {t : Text} (dotted : ∀ c ∈ t, IsDotted c) : t.toLowerAscii = t := by
  refine (List.map_congr_left fun c member => ?_).trans (List.map_id t)
  rcases dotted c member with digit | rfl
  · simp only [CodePoint.isDigit, Bool.and_eq_true, decide_eq_true_eq] at digit
    exact if_neg (by simp only [Bool.and_eq_true, decide_eq_true_eq]; omega)
  · rfl

theorem not_blank {c : CodePoint} (dotted : IsDotted c) : c.isBlank = false := by
  rcases dotted with digit | rfl
  · simp only [CodePoint.isDigit, Bool.and_eq_true, decide_eq_true_eq] at digit
    simp only [CodePoint.isBlank, CodePoint.isAsciiBlank, Bool.or_eq_false_iff, Bool.and_eq_false_imp,
      decide_eq_true_eq, decide_eq_false_iff_not, beq_eq_false_iff_ne]
    omega
  · rfl

theorem versionText_ne_nil (n : Nat) (release : List Nat) : versionText (parts (n :: release)) ≠ [] := by
  rw [parts, List.map_cons, versionText_cons]
  exact List.append_ne_nil_of_left_ne_nil (Text.ofNat_ne_nil n) _

theorem dropWhile_blank (n : Nat) (release : List Nat) :
    (versionText (parts (n :: release))).dropWhile (·.isBlank) = versionText (parts (n :: release)) := by
  have dotted := dotted_versionText (n :: release)
  obtain ⟨c, rest, eq⟩ := List.exists_cons_of_ne_nil (versionText_ne_nil n release)
  rw [eq] at dotted ⊢
  exact List.dropWhile_cons_of_neg (by simp [not_blank (dotted c List.mem_cons_self)])

theorem readLower?_atLeast (n : Nat) (release : List Nat) :
    readLower? (">=" ++ versionText (parts (n :: release))) =
      (version? (versionText (parts (n :: release)))).map .atLeast := by
  have read (t : Text) : readLower? (">=" ++ t) = (version? (t.dropWhile (·.isBlank))).map .atLeast := rfl
  rw [read, dropWhile_blank]

theorem readLower?_less (n : Nat) (release : List Nat) :
    readLower? ("<" ++ versionText (parts (n :: release))) =
      (version? (versionText (parts (n :: release)))).map .less := by
  have read {t : Text} (other : after? "=" t = none) :
      readLower? ("<" ++ t) = (version? (t.dropWhile (·.isBlank))).map .less := by
    have noEqual : after? "<=" ("<" ++ t) = none := by simpa [after?, Text.ofString] using other
    have others : after? "===" ("<" ++ t) = none ∧ after? "==" ("<" ++ t) = none ∧ after? "!=" ("<" ++ t) = none ∧
        after? "~=" ("<" ++ t) = none ∧ after? ">=" ("<" ++ t) = none ∧ after? "<" ("<" ++ t) = some t :=
      ⟨rfl, rfl, rfl, rfl, rfl, rfl⟩
    simp only [readLower?, others, noEqual]
  have dotted := dotted_versionText (n :: release)
  have other : after? "=" (versionText (parts (n :: release))) = none := by
    obtain ⟨c, rest, eq⟩ := List.exists_cons_of_ne_nil (versionText_ne_nil n release)
    rw [eq] at dotted ⊢
    have noSign : CodePoint.ofChar '=' ≠ c := by
      rintro rfl
      rcases dotted _ List.mem_cons_self with digit | point <;> cases ‹_›
    simp [after?, Text.ofString, noSign]
  rw [read other, dropWhile_blank]

end Clause

namespace Range

open Version (parts final Released Precedes)
open Codec (versionText)
open Clause (versionText_ne_nil dropWhile_blank dotted_versionText not_blank)

theorem trim_free {t : Text} (free : ∀ c ∈ t, c.isBlank = false) : t.trim (·.isBlank) = t := by
  have kept {u : Text} (free : ∀ c ∈ u, c.isBlank = false) : u.dropWhile (·.isBlank) = u := by
    cases u with
    | nil => rfl
    | cons c u => exact List.dropWhile_cons_of_neg (by simp [free c List.mem_cons_self])
  rw [Text.trim, kept free, kept fun c member => free c (List.mem_reverse.mp member), List.reverse_reverse]

/-- A sign and a release make a range of one clause. -/
theorem read?_release {sign : Text} {n : Nat} {release : List Nat} {clause : Version → Clause}
    (short : (parts (n :: release)).all Number.isShort = true)
    (plain : sign.all Clause.isSignCharacter = true)
    (signed : Clause.readLower? (sign ++ versionText (parts (n :: release))) =
      (Clause.version? (versionText (parts (n :: release)))).map clause) :
    read? (sign ++ versionText (parts (n :: release))) = some [clause (final (n :: release))] := by
  have dotted := dotted_versionText (n :: release)
  replace plain : ∀ c ∈ sign, ((c.isDigit = false ∧ c.isBlank = false) ∧ c ≠ CodePoint.ofChar ',') ∧
      c.toLowerAscii = c := by
    simpa [Clause.isSignCharacter] using plain
  have apart : CodePoint.ofChar ',' ∉ sign ++ versionText (parts (n :: release)) := by
    intro member
    rcases List.mem_append.mp member with inSign | inText
    · exact (plain _ inSign).1.2 rfl
    · rcases dotted _ inText with digit | point <;> cases ‹_›
  have noBlank : ∀ c ∈ sign ++ versionText (parts (n :: release)), c.isBlank = false :=
    List.forall_mem_append.mpr ⟨fun c member => (plain c member).1.1.2, fun c member => not_blank (dotted c member)⟩
  have small : (sign ++ versionText (parts (n :: release))).toLowerAscii =
      sign ++ versionText (parts (n :: release)) := by
    have ofSign : sign.toLowerAscii = sign :=
      (List.map_congr_left fun c member => (plain c member).2).trans (List.map_id sign)
    rw [Text.toLowerAscii, List.map_append]
    exact congrArg₂ _ ofSign (Clause.lower_dotted dotted)
  have one : Clause.read? (sign ++ versionText (parts (n :: release))) = some (clause (final (n :: release))) := by
    rw [Clause.read?, small, signed, Version.version?_versionText, Version.release?_parts (List.cons_ne_nil _ _)]
    exact congrArg some (Clause.withinLimit_versionText n (fun c member => (plain c member).1.1.1) short _)
  have some : (sign ++ versionText (parts (n :: release))).isEmpty = false := by
    rw [List.isEmpty_eq_false_iff]
    exact List.append_ne_nil_of_right_ne_nil _ (versionText_ne_nil n release)
  simp only [read?, Text.splitOn_free apart, List.map_cons, List.map_nil, trim_free noBlank, List.filter_cons, some,
    Bool.not_false, if_true, List.filter_nil, List.mapM_cons, List.mapM_nil, one]
  rfl

/-- A comma makes one range of the clauses of two. -/
theorem read?_comma {s t : Text} {a b : Range} (readA : read? s = some a) (readB : read? t = some b) :
    read? (s ++ "," ++ t) = some (a ++ b) := by
  have pieces : (s ++ "," ++ t).splitOn (CodePoint.ofChar ',') =
      s.splitOn (CodePoint.ofChar ',') ++ t.splitOn (CodePoint.ofChar ',') := by
    rw [List.append_assoc]
    exact Text.splitOn_append s t
  unfold read? at readA readB ⊢
  dsimp only at readA readB ⊢
  rw [pieces, List.map_append, List.filter_append, List.mapM_append, readA, readB]
  rfl

theorem fault?_append {a b : Range} (usableA : a.fault? = none) (usableB : b.fault? = none) :
    Range.fault? (a ++ b) = none := by
  have faultless {r : Range} (usable : r.fault? = none) : r.filterMap Clause.fault? = [] := by
    cases faults : r.filterMap Clause.fault? with
    | nil => rfl
    | cons f fs =>
      rw [fault?, faults] at usable
      exact absurd usable (by simp)
  rw [fault?, List.filterMap_append, faultless usableA, faultless usableB]
  rfl

theorem contains_ok {r : Range} {v : Version} {inside : Bool} (ok : r.contains v = .ok inside) :
    r.fault? = none ∧ r.accepts v = inside := by
  rw [contains] at ok
  split at ok
  · cases ok
  · next usable => exact ⟨usable, Except.ok.inj ok⟩

end Range

section

attribute [local instance] Versioning.ofClauses

open Version (parts final Released Precedes release?_parts version?_versionText)
open Codec (versionText)

theorem Version.Released.exists_parts {v : List Int} (released : Released v) :
    ∃ n release, v = parts (n :: release) := by
  rcases parts_or_negative v with ⟨release, rfl⟩ | ⟨release, n, more, rfl⟩
  · cases release with
    | nil => exact absurd rfl released.1
    | cons n release => exact ⟨n, release, rfl⟩
  · have negative : .negSucc n ∈ parts release ++ .negSucc n :: more :=
      List.mem_append_right _ List.mem_cons_self
    exact absurd (released.2 _ negative) (Int.not_le.mpr (Int.negSucc_lt_zero n))

theorem Versioning.ofClauses_read {n : Nat} {release : List Nat} {w : Version}
    (isRead : Versioning.version? (versionText (parts (n :: release))) = some w) : w = final (n :: release) := by
  have known := version?_versionText (parts (n :: release))
  rw [release?_parts (List.cons_ne_nil _ _)] at known
  exact Option.some.inj (isRead.symm.trans known)

/-- A range of one clause that compares with a release. -/
theorem Versioning.decides_clause {n : Nat} {bound : List Nat} {clause : Version → Clause} {P : Ordering → Prop}
    (usable : Range.fault? [clause (final (n :: bound))] = none)
    (compares : ∀ v, (clause (final (n :: bound))).accepts v = true ↔ P (v.compare (final (n :: bound))))
    {v : List Int} {w : Version} (released : Released v) (isRead : Versioning.version? (versionText v) = some w)
    {p : Prop} (means : ∀ m release, v = parts (m :: release) →
      (P (Version.compareRelease (m :: release) (n :: bound)) ↔ p)) :
    Versioning.Decides [clause (final (n :: bound))] w p := by
  obtain ⟨m, release, rfl⟩ := released.exists_parts
  obtain rfl := Versioning.ofClauses_read isRead
  refine ⟨Range.accepts [clause (final (n :: bound))] (final (m :: release)), ?_, ?_⟩
  · change Range.contains _ _ = _
    rw [Range.contains, usable]
  · rw [← means m release rfl, ← Version.compare_final, ← compares]
    simp [Range.accepts]

/-- The library of versions with clauses reads and compares releases as PEP 440 has it. -/
theorem Versioning.ofClauses_follows : Versioning.FollowsPep440 where
  released v released _ := by
    obtain ⟨n, release, rfl⟩ := released.exists_parts
    have known := version?_versionText (parts (n :: release))
    rw [release?_parts (List.cons_ne_nil _ _)] at known
    exact ⟨_, known⟩
  unreleased v unreleased := by
    refine (version?_versionText v).trans ?_
    rcases Version.parts_or_negative v with ⟨release, rfl⟩ | ⟨release, n, more, rfl⟩
    · cases release with
      | nil => rfl
      | cons n release => exact absurd ⟨List.cons_ne_nil _ _, Version.parts_nonneg _⟩ unreleased
    · rw [Version.release?_negative]
      rfl
  atLeast bound released short := by
    obtain ⟨n, bound, rfl⟩ := released.exists_parts
    refine ⟨_, Range.read?_release short rfl (Clause.readLower?_atLeast n bound), fun v w released isRead => ?_⟩
    · refine Versioning.decides_clause (P := (·.isGE)) rfl (fun _ => Iff.rfl) released isRead ?_
      rintro m release rfl
      rw [← Version.compareRelease_eq_lt_iff]
      cases Version.compareRelease (m :: release) (n :: bound) <;> simp [Ordering.isGE]
  less bound released short := by
    obtain ⟨n, bound, rfl⟩ := released.exists_parts
    refine ⟨_, Range.read?_release short rfl (Clause.readLower?_less n bound), fun v w released isRead => ?_⟩
    · refine Versioning.decides_clause (P := (·.isLT)) rfl (fun _ => Iff.rfl) released isRead ?_
      rintro m release rfl
      rw [← Version.compareRelease_eq_lt_iff]
      cases Version.compareRelease (m :: release) (n :: bound) <;> simp [Ordering.isLT]
  comma s t a b readA readB := by
    refine ⟨List.append a b, Range.read?_comma readA readB, fun w p q decidesA decidesB => ?_⟩
    obtain ⟨inA, containsA, meansA⟩ := decidesA
    obtain ⟨inB, containsB, meansB⟩ := decidesB
    obtain ⟨usableA, rfl⟩ := Range.contains_ok containsA
    obtain ⟨usableB, rfl⟩ := Range.contains_ok containsB
    refine ⟨Range.accepts (List.append a b) w, ?_, ?_⟩
    · change Range.contains _ _ = _
      rw [Range.contains]
      rw [show Range.fault? (List.append a b) = none from Range.fault?_append usableA usableB]
    · rw [← meansA, ← meansB]
      simp [Range.accepts, List.all_append]

end

end DocTree
