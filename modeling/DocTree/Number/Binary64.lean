/-!
Binary floating point of 64 bits, as exact numbers. A finite value is a whole number of the least
positive one, 2^-1074. Everything here is integer arithmetic, so nothing is rounded by accident.
-/

namespace DocTree

/-- A floating point number. There are two kinds of not-a-number: the one that a document writes as
a literal is a single value, while one that comes out of a conversion differs from everything. -/
inductive Binary64
  | finite (negative : Bool) (exponent : Fin 2047) (fraction : Fin 0x10000000000000)
  | infinite (negative : Bool)
  | nan (literal : Bool)
  deriving DecidableEq, Repr

namespace Binary64

def unity : Nat := Nat.pow 2 1074

/-- The magnitude in units of 2^-1074. The lowest exponent has no hidden bit. -/
def unitsOf (exponent fraction : Nat) : Nat :=
  if exponent = 0 then fraction else (0x10000000000000 + fraction) * Nat.pow 2 (exponent - 1)

/-- The value whose significand is `m` units of `2 ^ shift`, where `m` has at most 53 bits and, but
for the lowest shift, exactly 53. -/
def pack (negative : Bool) (m shift : Nat) : Binary64 :=
  let exponent := if m < 0x10000000000000 then shift else shift + 1
  if h : exponent < 2047 then
    finite negative ⟨exponent, h⟩
      ⟨m % 0x10000000000000, Nat.mod_lt _ (by decide)⟩
  else infinite negative

/-- `num / den` to the nearest whole number, a half to the even one. -/
def roundEven (num den : Nat) : Nat :=
  let quotient := num / den
  let twice := 2 * (num % den)
  if den < twice then quotient + 1
  else if twice = den then quotient + quotient % 2
  else quotient

/-- The value nearest to `num / den`. A carry into a 54th bit moves to the next exponent. -/
def ofRatio (negative : Bool) (num den : Nat) : Binary64 :=
  let shift := Nat.log2 (num * unity / den) - 52
  let m := roundEven (num * unity) (den * Nat.pow 2 shift)
  if m = 0x20000000000000 then pack negative 0x10000000000000 (shift + 1)
  else pack negative m shift

/-- The value nearest to `digits * 10 ^ exponent`. Far outside the range the answer is known without
the power of ten. -/
def ofDecimal (negative : Bool) (digits : Nat) (exponent : Int) : Binary64 :=
  if digits = 0 then finite negative 0 0
  else
    let magnitude := ((Nat.toDigits 10 digits).length : Int) + exponent
    if 310 < magnitude then infinite negative
    else if magnitude < -330 then finite negative 0 0
    else match exponent with
      | .ofNat e => ofRatio negative (digits * Nat.pow 10 e) 1
      | .negSucc e => ofRatio negative digits (Nat.pow 10 (e + 1))

def inRange? : Binary64 → Option Binary64
  | infinite _ => none
  | value => some value

def ofInt? : Int → Option Binary64
  | .ofNat n => inRange? (ofRatio false n 1)
  | .negSucc n => inRange? (ofRatio true (n + 1) 1)

def ofBool (b : Bool) : Binary64 := finite false (if b then 1023 else 0) 0

def units? : Binary64 → Option Int
  | finite false exponent fraction => some (unitsOf exponent fraction)
  | finite true exponent fraction => some (-(unitsOf exponent fraction : Int))
  | _ => none

/-- The whole number next to a finite value on the side of zero. -/
def truncate? (x : Binary64) : Option Int := x.units?.map (Int.tdiv · unity)

def compareInt? (x : Binary64) (n : Int) : Option Ordering :=
  match x with
  | infinite negative => some (if negative then .lt else .gt)
  | _ => x.units?.map (compare · (n * unity))

/-- Equality of values: the two zeros are equal, and of the two kinds of not-a-number only the
literal equals itself. -/
def same : Binary64 → Binary64 → Bool
  | nan a, nan b => a && b
  | infinite a, infinite b => a == b
  | x, y => x.units?.isSome && x.units? == y.units?

/-- A floating point number and a whole number are the same only if they are exactly equal. -/
def sameInt (x : Binary64) (n : Int) : Bool := x.units? == some (n * unity)

end Binary64

end DocTree
