import DocTree.Foreign
import DocTree.Number.Literal
import DocTree.Version.Basic
/-!
A library of versions. Ranges are written as clauses with commas between them, such as `>=1.21,<1.24`. A
version is in the range if every clause accepts it. A few clauses read well and yet fail as soon as a
version is held against them; the range says so before it is asked about any version.
-/

namespace DocTree

/-- Why no version can be held against a clause. -/
inductive ClauseFault
  /-- A number with more digits than a number may have. -/
  | tooLong (digits : Nat)
  /-- A letter that is only taken for an ASCII letter. -/
  | borrowedLetter
  /-- A value that is no clause. -/
  | noClause (typeName : Text)
  deriving DecidableEq, Repr

def ClauseFault.toForeign : ClauseFault → Foreign
  | tooLong digits => ⟨"ValueError", Number.tooLongMessage digits⟩
  | borrowedLetter => ⟨"AssertionError", []⟩
  | noClause typeName => ⟨"AttributeError", "'" ++ typeName ++ "' object has no attribute 'prereleases'"⟩

inductive Clause
  /-- At least the bound and in the series of its release without the last part. -/
  | compatible (bound : Version)
  /-- Equal to the bound; a bound with a local label is equal to no release. -/
  | equal (bound : Version) (hasLabel : Bool)
  /-- In the series of all releases that start with the given parts. -/
  | series (epoch : Nat) (release : List Nat)
  | differs (clause : Clause)
  | atMost (bound : Version)
  | atLeast (bound : Version)
  | less (bound : Version)
  | greater (bound : Version)
  /-- Written exactly like this. -/
  | identical (text : Text)
  | faulty (fault : ClauseFault)
  deriving DecidableEq, Repr

abbrev Range := List Clause

namespace Clause

/-- Whether a release goes on from `parts`; missing parts count as zero. -/
def inSeries : List Nat → List Nat → Bool
  | _, [] => true
  | [], p :: parts => p == 0 && inSeries [] parts
  | r :: release, p :: parts => r == p && inSeries release parts

def accepts (v : Version) : Clause → Bool
  | compatible bound =>
    (v.compare bound).isGE && v.epoch == bound.epoch && inSeries v.release bound.release.dropLast
  | equal bound hasLabel => !hasLabel && (v.compare bound).isEq
  | series epoch release => v.epoch == epoch && inSeries v.release release
  | differs clause => !clause.accepts v
  | atMost bound => (v.compare bound).isLE
  | atLeast bound => (v.compare bound).isGE
  | less bound => (v.compare bound).isLT
  | greater bound => (v.compare bound).isGT
  | identical text => Version.releaseText v.release == text
  | faulty _ => false

def after? (word t : Text) : Option Text := if word.isPrefixOf t then some (t.drop word.length) else none

def isSeparator (c : CodePoint) : Bool := c.val == 0x2D || c.val == 0x5F || c.val == 0x2E

def dropSeparator : Text → Text
  | [] => []
  | c :: rest => if isSeparator c then rest else c :: rest

/-- The digits at the start as a number, and what follows; no digits are zero. -/
def digits (t : Text) : Nat × Text :=
  ((t.takeWhile CodePoint.isDigit).foldl (fun n c => 10 * n + (c.val - 0x30)) 0,
    t.dropWhile CodePoint.isDigit)

def number? (t : Text) : Option (Nat × Text) :=
  if t.head?.any CodePoint.isDigit then some (digits t) else none

def moreParts : Nat → Text → List Nat × Text
  | 0, t => ([], t)
  | fuel + 1, t =>
    match (after? "." t).bind number? with
    | some (n, rest) =>
      let (parts, last) := moreParts fuel rest
      (n :: parts, last)
    | none => ([], t)

def release? (t : Text) : Option (Nat × List Nat × Text) := do
  let (first, rest) ← number? ((after? "v" t).getD t)
  let (epoch, head, tail) ← match after? "!" rest with
    | some rest => do
      let (head, tail) ← number? rest
      pure (first, head, tail)
    | none => pure (0, first, rest)
  let (parts, last) := moreParts tail.length tail
  return (epoch, head :: parts, last)

def firstWord? {α : Type} (words : List (Text × α)) (t : Text) : Option (α × Text) :=
  words.findSome? fun (word, a) => (after? word t).map fun rest => (a, rest)

def stageWords : List (Text × Stage) := [
  ("alpha", .alpha), ("beta", .beta), ("preview", .candidate), ("pre", .candidate),
  ("a", .alpha), ("b", .beta), ("c", .candidate), ("rc", .candidate)]

def postWords : List (Text × Unit) := [("post", ()), ("rev", ()), ("r", ())]

def devWords : List (Text × Unit) := [("dev", ())]

/-- A word with an optional separator before it and after it, and an optional number. -/
def mark? {α : Type} (words : List (Text × α)) (t : Text) : Option (α × Nat × Text) := do
  let (a, rest) ← firstWord? words (dropSeparator t)
  return (a, digits (dropSeparator rest))

/-- The post-release mark, which may also be a hyphen and a number. -/
def postMark? (t : Text) : Option (Nat × Text) :=
  ((after? "-" t).bind number?).or ((mark? postWords t).map fun (_, n, rest) => (n, rest))

def marks (epoch : Nat) (release : List Nat) (t : Text) : Version × Text :=
  let (pre, t) := match mark? stageWords t with
    | some (stage, n, rest) => (some (stage, n), rest)
    | none => (none, t)
  let (post, t) := match postMark? t with
    | some (n, rest) => (some n, rest)
    | none => (none, t)
  let (dev, t) := match mark? devWords t with
    | some (_, n, rest) => (some n, rest)
    | none => (none, t)
  (⟨epoch, release, pre, post, dev⟩, t)

def isLabelCharacter (c : CodePoint) : Bool := c.isDigit || (0x61 ≤ c.val && c.val ≤ 0x7A)

/-- Whether a text is a local label after its plus sign: words with single separators. -/
def isLabel (t : Text) : Bool :=
  (t.splitBy fun a b => isSeparator a == isSeparator b).all
      (fun piece => piece.all isLabelCharacter || (piece.length == 1 && piece.all isSeparator)) &&
    t.head?.any isLabelCharacter && t.getLast?.any isLabelCharacter

def version? (t : Text) : Option Version := do
  let (epoch, release, rest) ← release? t
  match marks epoch release rest with
  | (v, []) => return v
  | _ => none

/-- What may stand after a sign of equality: a version, a series or a version with a label. -/
def equality? (t : Text) : Option Clause := do
  let (epoch, release, rest) ← release? t
  if rest = ".*" then return series epoch release
  match marks epoch release rest with
  | (v, []) => return equal v false
  | (v, tail) =>
    let label ← after? "+" tail
    if isLabel label then return equal v true else none

def endsExact (c : CodePoint) : Bool := c.isBlank || c.val == 0x3B || c.val == 0x29

/-- The ASCII letter that a letter of another script is taken for when capitals do not matter: the
long s for s, and the i without a dot and the capital i with one for i. -/
def borrowed (c : CodePoint) : CodePoint :=
  if c.val = 0x17F then CodePoint.ofChar 's'
  else if c.val = 0x131 ∨ c.val = 0x130 then CodePoint.ofChar 'i'
  else c

/-- A version that marks the start of a series, which takes two parts at least. Here, and here only,
letters may be borrowed. -/
def compatible? (t : Text) : Option Clause := do
  let letters := t.map borrowed
  let v ← version? letters
  if v.release.length < 2 then none
  else return if letters = t then compatible v else faulty .borrowedLetter

/-- The lengths of the runs of digits, empty ones included; `count` digits stand before the text. -/
def runsFrom (count : Nat) : Text → List Nat
  | [] => [count]
  | c :: rest => if c.isDigit then runsFrom (count + 1) rest else count :: runsFrom 0 rest

def digitRuns (t : Text) : List Nat := runsFrom 0 t

/-- A clause whose text has a number that is too long cannot be used. -/
def withinLimit (t : Text) (clause : Clause) : Clause :=
  match clause, (digitRuns t).find? (Number.digitLimit < ·) with
  | clause, none => clause
  | faulty fault, _ => faulty fault
  | identical exact, some digits =>
    if (version? exact).isSome then faulty (.tooLong digits) else identical exact
  | _, some digits => faulty (.tooLong digits)

def readLower? (t : Text) : Option Clause :=
  let body (rest : Text) : Text := rest.dropWhile (·.isBlank)
  if let some rest := after? "===" t then
    if (body rest).any endsExact then none else some (identical (body rest))
  else if let some rest := after? "==" t then equality? (body rest)
  else if let some rest := after? "!=" t then (equality? (body rest)).map differs
  else if let some rest := after? "~=" t then compatible? (body rest)
  else if let some rest := after? "<=" t then (version? (body rest)).map atMost
  else if let some rest := after? ">=" t then (version? (body rest)).map atLeast
  else if let some rest := after? "<" t then (version? (body rest)).map less
  else if let some rest := after? ">" t then (version? (body rest)).map greater
  else none

/-- One clause. Capitals count as small letters. -/
def read? (t : Text) : Option Clause :=
  (readLower? t.toLowerAscii).map (withinLimit t)

def fault? : Clause → Option ClauseFault
  | faulty fault => some fault
  | _ => none

end Clause

namespace Range

/-- The clauses between the commas; empty ones are left out. -/
def read? (t : Text) : Option Range :=
  let pieces := (t.splitOn (CodePoint.ofChar ',')).map (·.trim (·.isBlank))
  (pieces.filter (!·.isEmpty)).mapM Clause.read?

/-- The range of a value that is no text. The members of a list or an object, if there are any, are taken
for clauses that they are not. -/
def ofJson : Json → Except Foreign Range
  | .arr items => .ok (items.map fun j => .faulty (.noClause j.typeName))
  | .obj members => .ok (members.map fun (key, _) => .faulty (.noClause (Json.str key).typeName))
  | j => .error ⟨"TypeError", "'" ++ j.typeName ++ "' object is not iterable"⟩

/-- Why no version can be held against a range. A number that is too long is noticed first. -/
def fault? (range : Range) : Option ClauseFault :=
  let faults := range.filterMap Clause.fault?
  (faults.find? fun
    | .tooLong _ => true
    | _ => false).or faults.head?

def accepts (range : Range) (v : Version) : Bool := range.all (·.accepts v)

/-- Holds a version against a range. -/
def contains (range : Range) (v : Version) : Except Foreign Bool :=
  match range.fault? with
  | some fault => .error fault.toForeign
  | none => .ok (range.accepts v)

end Range

/-- Versions with ranges of clauses. -/
@[reducible] def Versioning.ofClauses : Versioning where
  Range := DocTree.Range
  Version := DocTree.Version
  range? := Range.read?
  rangeOf := Range.ofJson
  version? := Clause.version?
  contains := Range.contains
  usual := [.atLeast (.final [1, 21]), .less (.final [1, 24])]
  reads_usual := by decide

end DocTree
