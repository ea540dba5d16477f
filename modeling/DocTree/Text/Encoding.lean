import DocTree.Text.Basic
/-!
Bytes to text and back. Input may be in UTF-8, UTF-16 or UTF-32; which one is read off its first
bytes. Surrogates are let through when reading. Output is UTF-8, which has no form for them.
-/

namespace DocTree

abbrev Bytes := List UInt8

/-- An encoding form; the wider two come in both byte orders. -/
inductive Charset
  | utf8
  | utf16 (bigEndian : Bool)
  | utf32 (bigEndian : Bool)
  deriving DecidableEq, Repr

def Charset.name : Charset → Text
  | .utf8 => "utf-8"
  | .utf16 true => "utf-16-be"
  | .utf16 false => "utf-16-le"
  | .utf32 true => "utf-32-be"
  | .utf32 false => "utf-32-le"

namespace Encoding

inductive Reason
  | invalidStart
  | invalidContinuation
  | unexpectedEnd
  | truncated
  | outOfRange
  deriving DecidableEq, Repr

def Reason.message : Reason → Text
  | .invalidStart => "invalid start byte"
  | .invalidContinuation => "invalid continuation byte"
  | .unexpectedEnd => "unexpected end of data"
  | .truncated => "truncated data"
  | .outOfRange => "code point not in range(0x110000)"

/-- The bytes from `start` to before `start + length` have no reading; `first` is the first. -/
structure DecodeFault where
  charset : Charset
  first : UInt8
  start : Nat
  length : Nat
  reason : Reason
  deriving DecidableEq, Repr

/-- Where a fault lies: one position, or the first and the last of several. -/
def span (start length : Nat) : Text :=
  if length = 1 then "position " ++ Text.ofNat start
  else "position " ++ Text.ofNat start ++ "-" ++ Text.ofNat (start + length - 1)

def DecodeFault.message (f : DecodeFault) : Text :=
  "'" ++ f.charset.name ++ "' codec can't decode " ++
    (if f.length = 1 then "byte 0x" ++ Text.hex 2 f.first.toNat ++ " in " else "bytes in ") ++
    span f.start f.length ++ ": " ++ f.reason.message

/-- The code points from `start` to before `start + length` are surrogates. -/
structure EncodeFault where
  first : CodePoint
  start : Nat
  length : Nat
  deriving DecidableEq, Repr

def EncodeFault.message (f : EncodeFault) : Text :=
  "'utf-8' codec can't encode " ++
    (if f.length = 1 then "character '\\u" ++ Text.hex 4 f.first.val ++ "' in "
      else "characters in ") ++
    span f.start f.length ++ ": surrogates not allowed"

def isContinuation (b : UInt8) : Bool := 0x80 ≤ b && b ≤ 0xBF

/-- What a first byte asks for: the number of continuation bytes and the range of the first of
them. The ranges keep out overlong forms and numbers above the last code point. -/
def utf8Lead? (b : UInt8) : Option (Nat × UInt8 × UInt8) :=
  if b < 0x80 then some (0, 0x80, 0xBF)
  else if b < 0xC2 then none
  else if b < 0xE0 then some (1, 0x80, 0xBF)
  else if b = 0xE0 then some (2, 0xA0, 0xBF)
  else if b < 0xF0 then some (2, 0x80, 0xBF)
  else if b = 0xF0 then some (3, 0x90, 0xBF)
  else if b < 0xF4 then some (3, 0x80, 0xBF)
  else if b = 0xF4 then some (3, 0x80, 0x8F)
  else none

def utf8Join (b : UInt8) (tail : Bytes) : CodePoint :=
  let payload := match tail.length with
    | 0 => b.toNat
    | 1 => b.toNat % 0x20
    | 2 => b.toNat % 0x10
    | _ => b.toNat % 0x08
  CodePoint.ofNat (tail.foldl (fun n c => n * 0x40 + c.toNat % 0x40) payload)

/-- Reads the character that starts with `b`: the code point and how many further bytes it takes,
or how many bytes are at fault and why. Half a surrogate is not a start of anything: the three
bytes stand or fall together. -/
def utf8Next (b : UInt8) (rest : Bytes) : Except (Nat × Reason) (CodePoint × Nat) :=
  match utf8Lead? b with
  | none => .error (1, .invalidStart)
  | some (0, _, _) => .ok (CodePoint.ofNat b.toNat, 0)
  | some (count, low, high) =>
    match rest with
    | [] => .error (1, .unexpectedEnd)
    | c :: more =>
      if c < low || high < c then .error (1, .invalidContinuation)
      else if b == 0xED && 0xA0 ≤ c && !(more.head?.any isContinuation) then
        .error (1, .invalidContinuation)
      else
        let tail := rest.take count
        let good := tail.takeWhile isContinuation
        if good.length = count then .ok (utf8Join b good, count)
        else if good.length = tail.length then .error (1 + good.length, .unexpectedEnd)
        else .error (1 + good.length, .invalidContinuation)

def decodeUtf8From (start : Nat) : Nat → Bytes → Except DecodeFault Text
  | _, [] => .ok []
  | 0, _ :: _ => .ok []
  | fuel + 1, b :: rest =>
    match utf8Next b rest with
    | .error (length, reason) => .error ⟨.utf8, b, start, length, reason⟩
    | .ok (c, count) => do
      let text ← decodeUtf8From (start + 1 + count) fuel (rest.drop count)
      return c :: text

/-- Every character takes a byte at least, so the length bounds the number of steps. -/
def decodeUtf8 (bytes : Bytes) : Except DecodeFault Text :=
  decodeUtf8From 0 bytes.length bytes

def utf8Bytes (c : CodePoint) : Bytes :=
  let n := c.val
  let tail (shift : Nat) : UInt8 := UInt8.ofNat (0x80 + n / shift % 0x40)
  if n < 0x80 then [UInt8.ofNat n]
  else if n < 0x800 then [UInt8.ofNat (0xC0 + n / 0x40), tail 1]
  else if n < 0x10000 then [UInt8.ofNat (0xE0 + n / 0x1000), tail 0x40, tail 1]
  else [UInt8.ofNat (0xF0 + n / 0x40000), tail 0x1000, tail 0x40, tail 1]

/-- UTF-8, unless the text holds a surrogate: then the first run of them is at fault. -/
def encodeUtf8 (t : Text) : Except EncodeFault Bytes :=
  match t.dropWhile (!·.isSurrogate) with
  | [] => .ok (t.flatMap utf8Bytes)
  | c :: rest =>
    .error ⟨c, (t.takeWhile (!·.isSurrogate)).length, 1 + (rest.takeWhile (·.isSurrogate)).length⟩

def encodable : List Text → Text × Option EncodeFault
  | [] => ([], none)
  | t :: rest =>
    match encodeUtf8 t with
    | .error fault => ([], some fault)
    | .ok _ =>
      let (more, fault) := encodable rest
      (t ++ more, fault)

def unit16 (bigEndian : Bool) (a b : UInt8) : CodePoint :=
  CodePoint.ofNat (if bigEndian then a.toNat * 0x100 + b.toNat else b.toNat * 0x100 + a.toNat)

def decodeUnits16 (bigEndian : Bool) (start : Nat) : Bytes → Except DecodeFault Text
  | [] => .ok []
  | [a] => .error ⟨.utf16 bigEndian, a, start, 1, .truncated⟩
  | a :: b :: rest => do
    let units ← decodeUnits16 bigEndian (start + 2) rest
    return unit16 bigEndian a b :: units

/-- A high unit and a low unit after it are one character; any other unit is one by itself. -/
def joinUnits : Text → Text
  | [] => []
  | [c] => [c]
  | c :: d :: rest =>
    if c.isHighSurrogate && d.isLowSurrogate then CodePoint.joinSurrogates c d :: joinUnits rest
    else c :: joinUnits (d :: rest)

def unit32 (bigEndian : Bool) (a b c d : UInt8) : Nat :=
  let join (p q r s : UInt8) : Nat := ((p.toNat * 0x100 + q.toNat) * 0x100 + r.toNat) * 0x100 + s.toNat
  if bigEndian then join a b c d else join d c b a

def decodeUnits32 (bigEndian : Bool) (start : Nat) : Bytes → Except DecodeFault Text
  | [] => .ok []
  | a :: b :: c :: d :: rest =>
    if h : unit32 bigEndian a b c d < 0x110000 then do
      let units ← decodeUnits32 bigEndian (start + 4) rest
      return ⟨unit32 bigEndian a b c d, h⟩ :: units
    else .error ⟨.utf32 bigEndian, a, start, 4, .outOfRange⟩
  | a :: rest => .error ⟨.utf32 bigEndian, a, start, 1 + rest.length, .truncated⟩

/-- The byte order marks; the long ones stand first, since a short one is the start of one of them. -/
def marks : List (Bytes × Charset) := [
  ([0x00, 0x00, 0xFE, 0xFF], .utf32 true), ([0xFF, 0xFE, 0x00, 0x00], .utf32 false),
  ([0xFE, 0xFF], .utf16 true), ([0xFF, 0xFE], .utf16 false), ([0xEF, 0xBB, 0xBF], .utf8)]

/-- The encoding of a JSON text without a mark. The zero bytes tell, since such a text starts with an
ASCII character. -/
def unmarked : Bytes → Charset
  | [a, b] => if a = 0 then .utf16 true else if b = 0 then .utf16 false else .utf8
  | a :: b :: c :: d :: _ =>
    if a = 0 then if b = 0 then .utf32 true else .utf16 true
    else if b = 0 then if c = 0 && d = 0 then .utf32 false else .utf16 false
    else .utf8
  | _ => .utf8

def detect (bytes : Bytes) : Charset × Nat :=
  match marks.find? fun (mark, _) => mark.isPrefixOf bytes with
  | some (mark, charset) => (charset, mark.length)
  | none => (unmarked bytes, 0)

/-- The text of JSON input. Positions count the byte order mark in the wide encodings only. -/
def decode (bytes : Bytes) : Except DecodeFault Text :=
  let (charset, mark) := detect bytes
  let body := bytes.drop mark
  match charset with
  | .utf8 => decodeUtf8 body
  | .utf16 bigEndian => joinUnits <$> decodeUnits16 bigEndian mark body
  | .utf32 bigEndian => decodeUnits32 bigEndian mark body

end Encoding

end DocTree
