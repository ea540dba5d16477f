import DocTree.Number.Binary64
import DocTree.Text.Basic
/-!
The text of a floating point number: the fewest digits that read back to it, and of those the
nearest to it. Where the point stands and how an exponent looks is data.
-/

namespace DocTree

/-- A positive decimal: the digits, read as a whole number, times a power of ten. -/
structure Decimal where
  digits : Nat
  exponent : Int
  deriving DecidableEq, Repr

namespace Decimal

def read (d : Decimal) : Binary64 := .ofDecimal false d.digits d.exponent

/-- The same value without zeros at the end of the digits; `fuel` is the most that are dropped. -/
def dropZeros : Nat → Decimal → Decimal
  | 0, d => d
  | fuel + 1, d =>
    if d.digits ≠ 0 ∧ d.digits % 10 = 0 then dropZeros fuel ⟨d.digits / 10, d.exponent + 1⟩ else d

/-- The power of ten that the leading digit of a number of units of 2^-1074 counts. -/
def leadingPower (units : Nat) : Int :=
  let whole := units / Binary64.unity
  if whole ≠ 0 then (Nat.toDigits 10 whole).length - 1
  else
    -- 2^-1074 is above 10^-324
    (Nat.toDigits 10 (units * Nat.pow 10 324 / Binary64.unity)).length - 1 - 324

def scaled (units : Nat) : Int → Nat × Nat
  | .ofNat e => (units, Binary64.unity * Nat.pow 10 e)
  | .negSucc e => (units * Nat.pow 10 (e + 1), Binary64.unity)

/-- The nearest of the two neighbours on the grid of `10 ^ exponent` that reads back, if one does;
of two equally near the even one. -/
def candidate? (value : Binary64) (units : Nat) (exponent : Int) : Option Decimal :=
  let (num, den) := scaled units exponent
  let near := Binary64.roundEven num den
  let far := if near * den ≤ num then near + 1 else near - 1
  ([⟨near, exponent⟩, ⟨far, exponent⟩] : List Decimal).find? fun d => d.read = value

def exact (units : Nat) : Decimal := ⟨units * Nat.pow 5 1074, -1074⟩

/-- The shortest decimal that reads back to a finite positive value of the given units. Seventeen
digits always suffice; the exact value stands after them so that the answer never depends on it. -/
def shortest (value : Binary64) (units : Nat) : Decimal :=
  let lead := leadingPower units
  let tries := (List.range 17).findSome? fun k => candidate? value units (lead - (k : Nat))
  (tries.getD (exact units)).dropZeros 1100

end Decimal

structure NumberLayout where
  /-- The least power of the leading digit that is written without an exponent. -/
  least : Int
  /-- The least power above those that are written without an exponent. -/
  bound : Int
  wholeMark : Text
  exponentMark : Text
  exponentWidth : Nat
  infinity : Text
  notANumber : Text

namespace NumberLayout

def exponentText (layout : NumberLayout) (e : Int) : Text :=
  let digits := Text.ofNat e.natAbs
  layout.exponentMark ++ (if e < 0 then "-" else "+") ++
    Text.copies (layout.exponentWidth - digits.length) "0" ++ digits

def decimalText (layout : NumberLayout) (d : Decimal) : Text :=
  let digits := Text.ofNat d.digits
  let lead := d.exponent + digits.length - 1
  if layout.least ≤ lead ∧ lead < layout.bound then
    match d.exponent, lead with
    | .ofNat zeros, _ => digits ++ Text.copies zeros "0" ++ layout.wholeMark
    | _, .ofNat k => digits.take (k + 1) ++ "." ++ digits.drop (k + 1)
    | _, .negSucc k => "0." ++ Text.copies k "0" ++ digits
  else
    (match digits with
      | [] => []
      | [first] => [first]
      | first :: rest => first :: ("." ++ rest)) ++ layout.exponentText lead

def text (layout : NumberLayout) : Binary64 → Text
  | .nan _ => layout.notANumber
  | .infinite negative => (if negative then "-" else "") ++ layout.infinity
  | .finite negative exponent fraction =>
    let units := Binary64.unitsOf exponent fraction
    (if negative then "-" else "") ++
      if units = 0 then "0" ++ layout.wholeMark
      else layout.decimalText (Decimal.shortest (.finite false exponent fraction) units)

/-- Numbers in messages: positional from 0.0001 to below 10^16, a whole number ends in `.0`. -/
def display : NumberLayout := ⟨-4, 16, ".0", "e", 2, "inf", "nan"⟩

/-- Numbers in JSON text, which spells out the values that JSON itself lacks. -/
def json : NumberLayout := { display with infinity := "Infinity", notANumber := "NaN" }

end NumberLayout

end DocTree
