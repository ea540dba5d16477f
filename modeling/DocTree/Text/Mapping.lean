import DocTree.Text.Basic
/-!
Mappings from text, in the order in which their keys came in. A key that is set again keeps its
place.
-/

namespace DocTree

abbrev Mapping (α : Type) := List (Text × α)

namespace Mapping

variable {α : Type}

def get? (key : Text) : Mapping α → Option α
  | [] => none
  | (k, v) :: rest => if k = key then some v else get? key rest

def contains (key : Text) (m : Mapping α) : Bool := (m.get? key).isSome

def keys (m : Mapping α) : List Text := m.map (·.1)

/-- Sets a key: in its place if it is there, else at the end. -/
def put (key : Text) (value : α) : Mapping α → Mapping α
  | [] => [(key, value)]
  | (k, v) :: rest => if k = key then (k, value) :: rest else (k, v) :: put key value rest

def erase (key : Text) : Mapping α → Mapping α
  | [] => []
  | (k, v) :: rest => if k = key then rest else (k, v) :: erase key rest

def ofPairs (pairs : List (Text × α)) : Mapping α :=
  pairs.foldl (fun m (key, value) => m.put key value) []

end Mapping

end DocTree
