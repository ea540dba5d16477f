import DocTree.Walk.Basic
/-!
The outline of a tree: one line for each node, with its kind and a short detail, indented by its
depth.
-/

namespace DocTree.Outline

def textLimit : Nat := 40

def shortened (t : Text) : Text :=
  if textLimit < t.length then Text.quoted (t.take (textLimit - 3) ++ "...") else t.quoted

def detail {S M : Type} : Element S M → Text
  | .text _ t | .verbatim _ _ t | .math _ t => " " ++ shortened t
  | .raw _ format t => " (" ++ format ++ ") " ++ shortened t
  | .header level _ _ => " level=" ++ Text.ofInt level
  | .target _ _ _ url _ => " " ++ url
  | .metaBool value => " " ++ Json.boolWord value
  | _ => []

def label {S M : Type} (e : Element S M) : Text := e.name ++ detail e

/-- What keeps a node out of an outline: it is a list, it is a heading whose level has more digits than are
printed, or it stands too deep for the nodes before it. -/
inductive Fault
  | nameless
  | unprintable
  | outOfRange
  deriving DecidableEq, Repr

def Fault.message : Fault → Text
  | nameless => "'list' object has no attribute 'name'"
  | unprintable => Number.unprintableMessage
  | outOfRange => "list index out of range"

/-- The label of an element that can be labelled. -/
def labelled {S M : Type} (e : Element S M) : Except Fault Text :=
  if e.kind = .list then .error .nameless
  else if e.level?.all Number.isShort then .ok (label e)
  else .error .unprintable

def rootLabel (s : Store) : Root → Text
  | .node id => (s.element id).name
  | .list _ => "[list]"

def entries (fuel : Nat) (s : Store) (root : Root) : List (Nat × Text) :=
  (Walk.listing fuel s root).map fun (n, depth) => (depth, label (s.element n))

def line (depth : Nat) (t : Text) : Text := Text.copies depth "  " ++ t ++ "\n"

def lines (fuel : Nat) (s : Store) (root : Root) : List Text :=
  line 0 (rootLabel s root) :: (entries fuel s root).map fun (depth, t) => line depth t

/-- The lines of some nodes up to the first that has none, and what keeps it from having one. -/
def linesOf (s : Store) : List (NodeId × Nat) → List Text × Option Fault
  | [] => ([], none)
  | (n, depth) :: rest =>
    match labelled (s.element n) with
    | .error fault => ([], some fault)
    | .ok t =>
      let (ts, fault) := linesOf s rest
      (line depth t :: ts, fault)

def text (fuel : Nat) (s : Store) (root : Root) : Text := (lines fuel s root).flatten

end DocTree.Outline
