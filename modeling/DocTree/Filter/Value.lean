import DocTree.Element.Kind
import DocTree.Json.Basic
import DocTree.Number.Literal
/-!
The values that filters are made from: actions, lists, mappings and plain data. `β` is what an action
does; here only its name matters.
-/

namespace DocTree

/-- Something that can be called, with the text that stands for it and the name of its type. -/
structure Callable (β : Type) where
  shown : Text
  typeName : Text
  act : β

/-- What a filter does in one pass: an action for every node, or one that is bound to kinds. The kinds
are written in a key, with bars between them. -/
inductive Handler (β : Type)
  | plain (c : Callable β)
  | bound (key : Text) (function : Handler β)

structure Filter (β : Type) where
  handlers : List (Handler β)

inductive Value (β : Type)
  | none
  | bool (b : Bool)
  | int (n : Int)
  | float (x : Binary64)
  | text (t : Text)
  | list (items : List (Value β))
  | tuple (items : List (Value β))
  | map (entries : List (Value β × Value β))
  | handler (h : Handler β)
  | filter (f : Filter β)
  /-- Anything else: the text that stands for it, the name of its type, the words for it as the owner
  of its members, what it does if it can be called, and its members. -/
  | object (shown typeName owner : Text) (act : Option β) (members : List (Text × Value β))

section

variable {β : Type}

def kindsOf (key : Text) : List Text := key.splitOn (CodePoint.ofChar '|')

def Handler.shown : Handler β → Text
  | plain c => c.shown
  | bound key function => "NamedAction(" ++ key.quoted ++ ", " ++ function.shown ++ ")"

def Handler.typeName : Handler β → Text
  | plain c => c.typeName
  | bound _ _ => "NamedAction"

def Handler.key? : Handler β → Option Text
  | plain _ => none
  | bound key _ => some key

def Filter.shown (f : Filter β) : Text :=
  "Filter([" ++ Text.joinWith ", " (f.handlers.map Handler.shown) ++ "])"

namespace Value

def typeName : Value β → Text
  | none => "NoneType"
  | bool _ => "bool"
  | int _ => "int"
  | float _ => "float"
  | text _ => "str"
  | list _ => "list"
  | tuple _ => "tuple"
  | map _ => "dict"
  | handler h => h.typeName
  | filter _ => "Filter"
  | object _ typeName _ _ _ => typeName

mutual

def display : Value β → Text
  | none => "None"
  | bool b => Json.boolWord b
  | int n => Text.ofInt n
  | float x => NumberLayout.display.text x
  | text t => t.quoted
  | list items => "[" ++ displayItems items ++ "]"
  | tuple [v] => "(" ++ v.display ++ ",)"
  | tuple items => "(" ++ displayItems items ++ ")"
  | map entries => "\x7b" ++ displayEntries entries ++ "\x7d"
  | handler h => h.shown
  | filter f => f.shown
  | object shown _ _ _ _ => shown

def displayItems : List (Value β) → Text
  | [] => []
  | [v] => v.display
  | v :: rest => v.display ++ ", " ++ displayItems rest

def displayEntries : List (Value β × Value β) → Text
  | [] => []
  | [(k, v)] => k.display ++ ": " ++ v.display
  | (k, v) :: rest => k.display ++ ": " ++ v.display ++ ", " ++ displayEntries rest

/-- Whether there is a text for every number in a value. -/
def isPrintable : Value β → Bool
  | int n => Number.isShort n
  | list items | tuple items => arePrintable items
  | map entries => havePrintable entries
  | _ => true

def arePrintable : List (Value β) → Bool
  | [] => true
  | v :: rest => v.isPrintable && arePrintable rest

def havePrintable : List (Value β × Value β) → Bool
  | [] => true
  | (k, v) :: rest => k.isPrintable && v.isPrintable && havePrintable rest

end

def callable? : Value β → Option (Handler β)
  | handler h => some h
  | object shown typeName _ act _ => act.map fun act => .plain ⟨shown, typeName, act⟩
  | _ => Option.none

/-- The members of a value that can be gone through: the characters of a text, the keys of a mapping. -/
def items? : Value β → Option (List (Value β))
  | text t => some (t.map fun c => text [c])
  | list items | tuple items => some items
  | map entries => some (entries.map (·.1))
  | _ => Option.none

end Value

end

end DocTree
