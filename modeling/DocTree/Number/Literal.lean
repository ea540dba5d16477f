import DocTree.Number.Binary64
import DocTree.Text.Quoted
/-!
Numbers written as text in a document. Digits of every script count, white space around the number
is ignored, and a single underscore may stand between two digits.
-/

namespace DocTree.Number

def digitLimit : Nat := 4300

inductive Fault
  | notWhole (text : Text)
  | notNumber (text : Text)
  | tooLong (digits : Nat)
  deriving DecidableEq, Repr

/-- The most characters that are quoted of a text that is not a whole number. -/
def quotedLimit : Nat := 200

/-- Whether a whole number has few enough digits to be printed. -/
def isShort (n : Int) : Bool := (Text.ofNat n.natAbs).length ≤ digitLimit

def limitMessage (detail : Text) : Text :=
  "Exceeds the limit (" ++ Text.ofNat digitLimit ++ " digits) for integer string conversion" ++
    detail ++ "; use sys.set_int_max_str_digits() to increase the limit"

def tooLongMessage (digits : Nat) : Text :=
  limitMessage (": value has " ++ Text.ofNat digits ++ " digits")

def unprintableMessage : Text := limitMessage []

def Fault.message : Fault → Text
  | .notWhole text =>
    "invalid literal for int() with base 10: " ++ text.quoted.take quotedLimit
  | .notNumber text => "could not convert string to float: " ++ text.quoted
  | .tooLong digits => tooLongMessage digits

/-- The ASCII form of a text: blanks become spaces and digits of any script ASCII digits. At the
first character without one the rest is cut off and a question mark stands for it. -/
def toAscii : Text → Text
  | [] => []
  | c :: rest =>
    if c.val < 0x80 then c :: toAscii rest
    else if c.isBlank then CodePoint.ofChar ' ' :: toAscii rest
    else match c.decimalValue? with
      | some value => CodePoint.ofNat (0x30 + value) :: toAscii rest
      | none => "?"

def bare (t : Text) : Text := (toAscii t).trim (·.isAsciiBlank)

def signed : Text → Bool × Text
  | [] => (false, [])
  | c :: rest =>
    if c = CodePoint.ofChar '-' then (true, rest)
    else if c = CodePoint.ofChar '+' then (false, rest)
    else (false, c :: rest)

def value (digits : Text) : Nat := digits.foldl (fun n c => 10 * n + (c.val - 0x30)) 0

def run (t : Text) : Text := t.takeWhile fun c => c.isDigit || c = CodePoint.ofChar '_'

def wellSpaced (run : Text) : Bool :=
  (run.splitOn (CodePoint.ofChar '_')).all (!·.isEmpty)

def digitsOf (run : Text) : Text := run.filter CodePoint.isDigit

/-- A whole number. A number that is too long is reported before anything that stands after it. -/
def readInt (t : Text) : Except Fault Int :=
  let (negative, body) := signed (bare t)
  let digits := run body
  if !wellSpaced digits then .error (.notWhole t)
  else
    let plain := digitsOf digits
    if digitLimit < plain.length then .error (.tooLong plain.length)
    else if digits.length ≠ body.length then .error (.notWhole t)
    else .ok (if negative then -(value plain : Int) else value plain)

def spacedByDigits : Text → Bool
  | [] => true
  | c :: rest => (c ≠ CodePoint.ofChar '_') && go c rest
where
  go (previous : CodePoint) : Text → Bool
  | [] => previous ≠ CodePoint.ofChar '_'
  | c :: rest =>
    (if c = CodePoint.ofChar '_' then previous.isDigit
      else previous ≠ CodePoint.ofChar '_' || c.isDigit) && go c rest

def exponent? : Text → Option Int
  | [] => some 0
  | c :: rest =>
    if c = CodePoint.ofChar 'e' ∨ c = CodePoint.ofChar 'E' then
      let (negative, digits) := signed rest
      if digits ≠ [] ∧ digits.all CodePoint.isDigit then
        some (if negative then -(value digits : Int) else value digits)
      else none
    else none

def decimal? (negative : Bool) (t : Text) : Option Binary64 :=
  let whole := t.takeWhile CodePoint.isDigit
  let rest := t.dropWhile CodePoint.isDigit
  let (fraction, tail) := match rest with
    | c :: more =>
      if c = CodePoint.ofChar '.' then
        (more.takeWhile CodePoint.isDigit, more.dropWhile CodePoint.isDigit)
      else ([], rest)
    | [] => ([], rest)
  if whole = [] ∧ fraction = [] then none
  else (exponent? tail).map fun e =>
    .ofDecimal negative (value (whole ++ fraction)) (e - fraction.length)

def plain? (t : Text) : Option Binary64 :=
  let (negative, body) := signed t
  let word := body.toLowerAscii
  if word = "inf" ∨ word = "infinity" then some (.infinite negative)
  else if word = "nan" then some (.nan false)
  else decimal? negative body

def readFloat (t : Text) : Except Fault Binary64 :=
  let body := bare t
  if spacedByDigits body then
    match plain? (body.filter (· ≠ CodePoint.ofChar '_')) with
    | some x => .ok x
    | none => .error (.notNumber t)
  else .error (.notNumber t)

end DocTree.Number
