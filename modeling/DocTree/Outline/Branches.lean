import DocTree.Outline.Drawing
import DocTree.Text.Columns
/-!
A library that draws trees with lines between the branches. It keeps the labels by number, and the width
of a line has no limit.
-/

namespace DocTree.Branches

/-- Labels by number, each with the numbers of those below it, the latest first. -/
abbrev Table := Array (Text × List Nat)

def Table.start (label : Text) : StateM Table Nat := fun labels => (labels.size, labels.push (label, []))

def Table.add (parent : Nat) (label : Text) : StateM Table Nat := fun labels =>
  (labels.size, (labels.modify parent fun (t, below) => (t, labels.size :: below)).push (label, []))

/-- Control characters that a drawing leaves out: bell, backspace, vertical tab, form feed and
carriage return. -/
def isDropped (c : CodePoint) : Bool :=
  c.val == 7 || c.val == 8 || c.val == 11 || c.val == 12 || c.val == 13

def tabStop : Nat := 8

/-- A piece that a tab follows: the tab is one space and as many more as reach the next stop. -/
def tabbed (piece : Text) : Text :=
  let spaced := piece ++ " "
  spaced ++ Text.copies ((tabStop - spaced.columns % tabStop) % tabStop) " "

/-- The pieces of a line with the tabs between them. Each but the last ends at a stop, so none needs
to know where it begins. -/
def joinTabbed : List Text → Text
  | [] => []
  | [last] => last
  | piece :: rest => tabbed piece ++ joinTabbed rest

def expandTabs (t : Text) : Text := joinTabbed (t.splitOn (CodePoint.ofChar '\t'))

def labelLines (t : Text) : List Text :=
  ((t.filter (!isDropped ·)).splitOn (CodePoint.ofChar '\n')).map expandTabs

def block (first others : Text) (t : Text) : Text :=
  match labelLines t with
  | [] => []
  | l :: rest => first ++ l ++ "\n" ++ (rest.map fun l => others ++ l ++ ("\n" : Text)).flatten

def fork (last : Bool) : Text := if last then "└── " else "├── "

def past (last : Bool) : Text := if last then "    " else "│   "

def drawBelow (labels : Table) : Nat → Text → List Nat → Text
  | 0, _, _ => []
  | _, _, [] => []
  | fuel + 1, indent, number :: rest =>
    let (t, below) := labels.getD number ([], [])
    let last := rest.isEmpty
    let deeper := indent ++ past last
    block (indent ++ fork last) deeper t ++ drawBelow labels fuel deeper below.reverse ++
      drawBelow labels fuel indent rest

/-- The text of a drawing. Each label is drawn once, so their number bounds the depth. -/
def Table.text (labels : Table) (root : Nat) : Text :=
  let (t, below) := labels.getD root ([], [])
  block [] [] t ++ drawBelow labels labels.size [] below.reverse

def hint : Text := "\n*** You may need to add PYTHONIOENCODING=utf-8 to your environment ***"

@[reducible] def drawing : Drawing where
  Canvas := Table
  Branch := Nat
  blank := #[]
  start := Table.start
  add := Table.add
  print labels root := ([labels.text root], none)
  hint := hint

end DocTree.Branches
