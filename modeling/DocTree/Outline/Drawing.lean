import DocTree.Foreign
import DocTree.Outline.Basic
/-!
The outline as a drawing. A library draws trees; the drawing is built from the nodes and their depths
alone: the branches from the root to the latest node are kept, and a new node is hung below the one among
them that stands one level higher.
-/

namespace DocTree

/-- A library that draws trees. Its canvas is all that it knows of the trees that have been begun, and a
branch is a place in one of them. -/
class Drawing where
  Canvas : Type
  Branch : Type
  blank : Canvas
  start (label : Text) : StateM Canvas Branch
  add (branch : Branch) (label : Text) : StateM Canvas Branch
  /-- What is written of a tree, and what breaks the drawing off. -/
  print : Canvas → Branch → List Text × Option Foreign
  /-- What the library has to say on text that has no bytes. -/
  hint : Text

namespace Outline

variable [Drawing]

abbrev Sketching := ExceptT Fault (StateM Drawing.Canvas)

/-- The item at an index; a negative one counts from the end. -/
def at? {α : Type} (items : List α) (index : Int) : Option α :=
  if 0 ≤ index then items[index.toNat]?
  else if 0 ≤ items.length + index then items[(items.length + index).toNat]?
  else none

/-- Hangs a node below the branch one level above its depth. -/
def hang (s : Store) (branches : List Drawing.Branch) : NodeId × Nat → Sketching (List Drawing.Branch)
  | (n, depth) =>
    match at? branches (depth - 1) with
    | none => throw .outOfRange
    | some above => do
      let label ← labelled (s.element n)
      let branch ← Drawing.add above label
      return branches.take depth ++ [branch]

def hangAll (s : Store) (branches : List Drawing.Branch) (nodes : List (NodeId × Nat)) :
    Sketching (List Drawing.Branch) := nodes.foldlM (hang s) branches

/-- The branch of the root, with those of the nodes below it, and the branches to the last node. -/
def sketch (s : Store) (label : Text) (nodes : List (NodeId × Nat)) :
    Sketching (Drawing.Branch × List Drawing.Branch) := do
  let root ← Drawing.start label
  return (root, ← hangAll s [root] nodes)

end Outline

end DocTree
