import DocTree.Json.Basic
import DocTree.Number.Literal
/-!
Reading JSON text. A fault names the rule that is broken and the position of the break. Besides
plain JSON, the words for infinity and not-a-number are numbers, and an escape may stand for half
of a surrogate pair.
-/

namespace DocTree.Json

inductive Complaint
  | expectingValue
  | extraData
  | expectingComma
  | expectingColon
  | expectingName
  | unterminatedString
  | controlCharacter
  | invalidEscape
  | invalidUnicodeEscape
  | byteOrderMark
  deriving DecidableEq, Repr

def Complaint.message : Complaint → Text
  | .expectingValue => "Expecting value"
  | .extraData => "Extra data"
  | .expectingComma => "Expecting ',' delimiter"
  | .expectingColon => "Expecting ':' delimiter"
  | .expectingName => "Expecting property name enclosed in double quotes"
  | .unterminatedString => "Unterminated string starting at"
  | .controlCharacter => "Invalid control character at"
  | .invalidEscape => "Invalid \\escape"
  | .invalidUnicodeEscape => "Invalid \\uXXXX escape"
  | .byteOrderMark => "Unexpected UTF-8 BOM (decode using utf-8-sig)"

/-- Why a text is refused: it breaks a rule at a position, or a number is too long. -/
inductive ReadFault
  | syntaxAt (complaint : Complaint) (position : Nat)
  | tooLong (digits : Nat)
  deriving DecidableEq, Repr

/-- The line and the column of a position, both counted from one. -/
def lineAndColumn (t : Text) (position : Nat) : Nat × Nat :=
  let before := t.take position
  let column := (before.reverse.takeWhile (·.val ≠ 0x0A)).length
  ((before.filter (·.val = 0x0A)).length + 1, column + 1)

def ReadFault.message (t : Text) : ReadFault → Text
  | .syntaxAt complaint position =>
    let (line, column) := lineAndColumn t position
    complaint.message ++ ": line " ++ Text.ofNat line ++ " column " ++ Text.ofNat column ++
      " (char " ++ Text.ofNat position ++ ")"
  | .tooLong digits => Number.tooLongMessage digits

namespace Reader

/-- A place in the text: what is left of it, and how much came before. -/
structure Spot where
  position : Nat
  rest : Text

def Spot.skip (s : Spot) (count : Nat) : Spot := ⟨s.position + count, s.rest.drop count⟩

def Spot.skipBlanks (s : Spot) : Spot := s.skip (s.rest.takeWhile (·.isJsonBlank)).length

def Spot.peek? (s : Spot) : Option Nat := s.rest.head?.map (·.val)

def Spot.startsWith (s : Spot) (word : Text) : Bool := word.isPrefixOf s.rest

def Spot.fail {α : Type} (s : Spot) (complaint : Complaint) : Except ReadFault α :=
  .error (.syntaxAt complaint s.position)

def hex4? : Text → Option Nat
  | a :: b :: c :: d :: _ => do
    let a ← a.hexValue?
    let b ← b.hexValue?
    let c ← c.hexValue?
    let d ← d.hexValue?
    return ((a * 16 + b) * 16 + c) * 16 + d
  | _ => none

def letterEscape? (c : CodePoint) : Option CodePoint :=
  match c.val with
  | 0x22 => some (CodePoint.ofNat 0x22)
  | 0x5C => some (CodePoint.ofNat 0x5C)
  | 0x2F => some (CodePoint.ofNat 0x2F)
  | 0x62 => some (CodePoint.ofNat 0x08)
  | 0x66 => some (CodePoint.ofNat 0x0C)
  | 0x6E => some (CodePoint.ofNat 0x0A)
  | 0x72 => some (CodePoint.ofNat 0x0D)
  | 0x74 => some (CodePoint.ofNat 0x09)
  | _ => none

/-- Whether a second numeric escape follows that could complete a pair. -/
def secondUnitFollows (rest : Text) : Bool :=
  match rest with
  | a :: b :: more => a.val == 0x5C && b.val == 0x75 && !(more.drop 4).isEmpty
  | _ => false

/-- A numeric escape, from its first digit: the character, and how much of the text it takes. The
closing quote has to come after it, so the digits may not end the text. -/
def readUnits (s : Spot) : Except ReadFault (CodePoint × Nat) :=
  let fault : ReadFault := .syntaxAt .invalidUnicodeEscape (s.position - 1)
  if (s.rest.drop 4).isEmpty then .error fault
  else match hex4? s.rest with
    | none => .error fault
    | some first =>
      let high := CodePoint.ofNat first
      if high.isHighSurrogate && secondUnitFollows (s.rest.drop 4) then
        match hex4? (s.rest.drop 6) with
        | none => .error (.syntaxAt .invalidUnicodeEscape (s.position + 5))
        | some second =>
          let low := CodePoint.ofNat second
          if low.isLowSurrogate then .ok (CodePoint.joinSurrogates high low, 10)
          else .ok (high, 4)
      else .ok (high, 4)

def readEscape (start : Nat) (s : Spot) : Except ReadFault (CodePoint × Nat) :=
  match (s.skip 1).rest with
  | [] => .error (.syntaxAt .unterminatedString start)
  | c :: _ =>
    if c.val = 0x75 then do
      let (d, count) ← readUnits (s.skip 2)
      return (d, count + 2)
    else match letterEscape? c with
      | some d => .ok (d, 2)
      | none => s.fail .invalidEscape

/-- The characters of a string after its opening quote at `start`, and the place after the closing
one. Every step takes a character. -/
def readChars (start : Nat) : Nat → Spot → Except ReadFault (Text × Spot)
  | 0, _ => .error (.syntaxAt .unterminatedString start)
  | fuel + 1, s =>
    match s.rest with
    | [] => .error (.syntaxAt .unterminatedString start)
    | c :: _ =>
      if c.val = 0x22 then .ok ([], s.skip 1)
      else if c.val = 0x5C then do
        let (d, count) ← readEscape start s
        let (t, after) ← readChars start fuel (s.skip count)
        return (d :: t, after)
      else if c.val < 0x20 then s.fail .controlCharacter
      else do
        let (t, after) ← readChars start fuel (s.skip 1)
        return (c :: t, after)

def readString (fuel : Nat) (s : Spot) : Except ReadFault (Text × Spot) :=
  readChars s.position fuel (s.skip 1)

def digits (t : Text) : Text := t.takeWhile CodePoint.isDigit

def wholeDigits (t : Text) : Text :=
  match t with
  | [] => []
  | c :: _ => if c.val = 0x30 then [c] else digits t

/-- The digits after a point, and how much of the text they take with it. A point without a digit
is not part of the number. -/
def fraction (t : Text) : Text × Nat :=
  match t with
  | c :: rest =>
    if c.val = 0x2E ∧ digits rest ≠ [] then (digits rest, (digits rest).length + 1) else ([], 0)
  | [] => ([], 0)

/-- An exponent, and how much of the text it takes. A mark without a digit is not part of the
number. -/
def exponent (t : Text) : Option (Int × Nat) :=
  match t with
  | c :: rest =>
    if c.val = 0x65 ∨ c.val = 0x45 then
      let (negative, body) := Number.signed rest
      let spelled := digits body
      if spelled = [] then none
      else
        let size := Number.value spelled
        let sign := if rest.head? = body.head? then 0 else 1
        some (if negative then -(size : Int) else size, 1 + sign + spelled.length)
    else none
  | [] => none

def readNumber (s : Spot) : Except ReadFault (Json × Spot) :=
  let negative := s.peek? == some 0x2D
  let body := if negative then s.skip 1 else s
  let whole := wholeDigits body.rest
  if whole = [] then s.fail .expectingValue
  else
    let afterWhole := body.skip whole.length
    let (decimals, size) := fraction afterWhole.rest
    let afterPoint := afterWhole.skip size
    match decimals, exponent afterPoint.rest with
    | [], none =>
      if Number.digitLimit < whole.length then .error (.tooLong whole.length)
      else
        let n := Number.value whole
        .ok (.int (if negative then -(n : Int) else n), afterPoint)
    | _, power =>
      let (e, count) := power.getD (0, 0)
      .ok (.float (.ofDecimal negative (Number.value (whole ++ decimals)) (e - decimals.length)),
        afterPoint.skip count)

def words : List (Text × Json) := [
  ("null", .null),
  ("true", .bool true),
  ("false", .bool false),
  ("NaN", .float (.nan true)),
  ("Infinity", .float (.infinite false)),
  ("-Infinity", .float (.infinite true))]

def readScalar (s : Spot) : Except ReadFault (Json × Spot) :=
  match words.find? fun (word, _) => s.startsWith word with
  | some (word, j) => .ok (j, s.skip word.length)
  | none => readNumber s

mutual

/-- A value that starts here. Each opening bracket costs two of the fuel and each further member
one, so twice the length of the text is enough, also for the strings. -/
def readValue : Nat → Spot → Except ReadFault (Json × Spot)
  | 0, s => s.fail .expectingValue
  | fuel + 1, s =>
    match s.peek? with
    | some 0x22 => do
      let (t, after) ← readString fuel s
      return (.str t, after)
    | some 0x5B => do
      let inside := (s.skip 1).skipBlanks
      if inside.peek? = some 0x5D then return (.arr [], inside.skip 1)
      let (items, after) ← readItems fuel inside
      return (.arr items, after)
    | some 0x7B => do
      let inside := (s.skip 1).skipBlanks
      if inside.peek? = some 0x7D then return (.obj [], inside.skip 1)
      let (members, after) ← readMembers fuel inside
      return (.obj (Mapping.ofPairs members), after)
    | _ => readScalar s

def readItems : Nat → Spot → Except ReadFault (List Json × Spot)
  | 0, s => s.fail .expectingValue
  | fuel + 1, s => do
    let (j, after) ← readValue fuel s
    let next := after.skipBlanks
    match next.peek? with
    | some 0x5D => return ([j], next.skip 1)
    | some 0x2C =>
      let (rest, last) ← readItems fuel (next.skip 1).skipBlanks
      return (j :: rest, last)
    | _ => next.fail .expectingComma

def readMembers : Nat → Spot → Except ReadFault (List (Text × Json) × Spot)
  | 0, s => s.fail .expectingName
  | fuel + 1, s => do
    if s.peek? ≠ some 0x22 then s.fail .expectingName
    let (name, afterName) ← readString fuel s
    let colon := afterName.skipBlanks
    if colon.peek? ≠ some 0x3A then colon.fail .expectingColon
    let (j, after) ← readValue fuel (colon.skip 1).skipBlanks
    let next := after.skipBlanks
    match next.peek? with
    | some 0x7D => return ([(name, j)], next.skip 1)
    | some 0x2C =>
      let (rest, last) ← readMembers fuel (next.skip 1).skipBlanks
      return ((name, j) :: rest, last)
    | _ => next.fail .expectingComma

end

end Reader

def read (t : Text) : Except ReadFault Json := do
  let start : Reader.Spot := ⟨0, t⟩
  let (j, after) ← Reader.readValue (2 * t.length + 2) start.skipBlanks
  let last := after.skipBlanks
  if last.rest.isEmpty then return j else last.fail .extraData

/-- The value of a text that was never bytes: it may not start with a byte order mark. -/
def readText (t : Text) : Except ReadFault Json :=
  if t.head?.map (·.val) = some 0xFEFF then .error (.syntaxAt .byteOrderMark 0) else read t

end DocTree.Json
