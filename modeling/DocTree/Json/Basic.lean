import DocTree.Number.Shortest
import DocTree.Text.Mapping
import DocTree.Text.Quoted
/-!
JSON values. Whole numbers and floating point numbers are told apart, and the members of an object
have an order.
-/

namespace DocTree

inductive Json
  | null
  | bool (b : Bool)
  | int (n : Int)
  | float (x : Binary64)
  | str (t : Text)
  | arr (items : List Json)
  | obj (members : List (Text × Json))
  deriving Inhabited

namespace Json

def typeName : Json → Text
  | null => "NoneType"
  | bool _ => "bool"
  | int _ => "int"
  | float _ => "float"
  | str _ => "str"
  | arr _ => "list"
  | obj _ => "dict"

def boolWord (b : Bool) : Text := if b then "True" else "False"

mutual

def display : Json → Text
  | null => "None"
  | bool b => boolWord b
  | int n => Text.ofInt n
  | float x => NumberLayout.display.text x
  | str t => t.quoted
  | arr items => "[" ++ displayItems items ++ "]"
  | obj members => "\x7b" ++ displayMembers members ++ "\x7d"

def displayItems : List Json → Text
  | [] => []
  | [j] => j.display
  | j :: rest => j.display ++ ", " ++ displayItems rest

def displayMembers : List (Text × Json) → Text
  | [] => []
  | [(k, j)] => k.quoted ++ ": " ++ j.display
  | (k, j) :: rest => k.quoted ++ ": " ++ j.display ++ ", " ++ displayMembers rest

end

/-- A value as text: a string is its own text, anything else is shown. -/
def asText : Json → Text
  | str t => t
  | j => j.display

/-- Whether a value counts as true where a truth value is needed: zero, nothing, and what is empty do
not. -/
def isTrue : Json → Bool
  | null => false
  | bool b => b
  | int n => n != 0
  | float x => !x.sameInt 0
  | str t => !t.isEmpty
  | arr items => !items.isEmpty
  | obj members => !members.isEmpty

/-- A truth value counts as the number one or zero. -/
def number? : Json → Option (Int ⊕ Binary64)
  | bool b => some (.inl (if b then 1 else 0))
  | int n => some (.inl n)
  | float x => some (.inr x)
  | _ => none

def compareInt? (j : Json) (n : Int) : Option (Option Ordering) :=
  j.number?.map fun
    | .inl m => some (compare m n)
    | .inr x => x.compareInt? n

def sameNumber : Int ⊕ Binary64 → Int ⊕ Binary64 → Bool
  | .inl m, .inl n => m == n
  | .inl m, .inr y => y.sameInt m
  | .inr x, .inl n => x.sameInt n
  | .inr x, .inr y => x.same y

mutual

/-- Equality of values: numbers by value whatever their type, objects whatever their order. -/
def same : Json → Json → Bool
  | null, null => true
  | str t, str u => t == u
  | arr xs, arr ys => sameItems xs ys
  | obj ms, obj ns => ms.length == ns.length && sameMembers ms ns
  | bool b, j => j.number?.any (sameNumber (.inl (if b then 1 else 0)))
  | int n, j => j.number?.any (sameNumber (.inl n))
  | float x, j => j.number?.any (sameNumber (.inr x))
  | _, _ => false

def sameItems : List Json → List Json → Bool
  | [], [] => true
  | x :: xs, y :: ys => x.same y && sameItems xs ys
  | _, _ => false

def sameMembers : List (Text × Json) → List (Text × Json) → Bool
  | [], _ => true
  | (k, x) :: rest, ns => (Mapping.get? k ns).any (x.same ·) && sameMembers rest ns

end

mutual

/-- The levels of arrays and objects; a value without members has one. -/
def height : Json → Nat
  | arr items => heightItems items + 1
  | obj members => heightMembers members + 1
  | _ => 1

def heightItems : List Json → Nat
  | [] => 0
  | j :: rest => max j.height (heightItems rest)

def heightMembers : List (Text × Json) → Nat
  | [] => 0
  | (_, j) :: rest => max j.height (heightMembers rest)

end

end Json

end DocTree
