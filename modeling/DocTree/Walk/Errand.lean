import DocTree.Store.Basic
/-!
What a walk has still to open below a node. Nothing is looked up before its turn comes, and then as it is
at that time. A list that has been begun is gone through by number to its end, whatever the node it came from
has in its place by then.
-/

namespace DocTree.Walk

abbrev Container := Slot SequenceId MappingId

inductive Errand
  /-- A node of which nothing has been looked up. -/
  | node (n : NodeId)
  | containers (containers : List Container)
  | blocks (n : NodeId)
  | content (n : NodeId)
  | short (caption : FittingId)
  | long (caption : FittingId)
  | trail (citation : FittingId)
  | sequences (list : FittingId) (index : Nat)
  | definitions (list : FittingId) (index : Nat)
  | citations (list : FittingId) (index : Nat)
  | cells (list : FittingId) (index : Nat)
  | rows (list : FittingId) (index : Nat)
  | sections (list : FittingId) (index : Nat)
  /-- The rows of a section that are not its head. -/
  | body (tableSection : FittingId)
  | head (table : NodeId)
  | allSections (table : NodeId)
  | foot (table : NodeId)
  deriving DecidableEq, Repr

namespace Errand

variable (s : Store)

/-- The errands below a node. A record that lacks a fitting is no element and has none. -/
def below (n : NodeId) : List Errand :=
  match s.record n, s.element n with
  | .simple (.document _ metadata _), _ => [containers [.mapping metadata], blocks n]
  | .simple (.figure _ caption _), _ => [containers (caption.sequences.map .sequence), content n]
  | .simple (.cite list _), _ => [containers ((list.flatMap (·.sequences)).map .sequence), content n]
  | .simple e, _ => [containers e.slots]
  | .items _ items, _ | .orderedList _ items, _ => [sequences items 0]
  | .definitionList items, _ => [definitions items 0]
  | .table _ caption .., .table _ => [short caption, long caption, head n, allSections n, foot n]
  | .figure _ caption _, .figure .. => [short caption, long caption, content n]
  | .cite list _, _ => [citations list 0, content n]
  | _, _ => []

def blocksOf (n : NodeId) : Option SequenceId :=
  match s.record n with
  | .simple (.document _ _ q) => some q
  | _ => none

def contentOf (n : NodeId) : Option SequenceId :=
  match s.record n with
  | .simple e => e.content?
  | .figure _ _ q | .cite _ q => some q
  | _ => none

/-- A container that is come to, and what is to do after it. -/
abbrev Opening := Option (Container × List Errand)

def just : Option SequenceId → Opening
  | some q => some (.sequence q, [])
  | none => none

/-- What comes first, with some errands after it, or else another opening. -/
def orElse (last : List Errand) (otherwise : Opening) : Opening → Opening
  | some (container, more) => some (container, more ++ last)
  | none => otherwise

/-- The first container that the items of a list lead to, from an index on. -/
def firstItem (item : FittingId → Opening) (onward : Nat → Errand) : Nat → List FittingId → Opening
  | _, [] => none
  | index, p :: ps => orElse [onward (index + 1)] (firstItem item onward (index + 1) ps) (item p)

def fromIndex (item : FittingId → Opening) (onward : FittingId → Nat → Errand) (list : FittingId) (index : Nat) :
    Opening :=
  firstItem item (onward list) index ((s.listAt list).drop index)

def openDefinition (p : FittingId) : Opening :=
  match s.fitting? p with
  | some (.definition term meanings) => some (.sequence term, [sequences meanings 0])
  | _ => none

def openCitation (p : FittingId) : Opening :=
  (s.citation? p).map fun c => (.sequence c.lead, [trail p])

def openCell (p : FittingId) : Opening := just ((s.cell? p).map (·.content))

def openRow (p : FittingId) : Opening :=
  match s.fitting? p with
  | some (.row _ list) => fromIndex s (openCell s) cells list 0
  | _ => none

def openRows (list : FittingId) (index : Nat) : Opening := fromIndex s (openRow s) rows list index

def openBody (p : FittingId) : Opening :=
  match s.fitting? p with
  | some (.tableSection _ _ _ list) => openRows s list 0
  | _ => none

/-- The head rows of a section come first. -/
def openSection (p : FittingId) : Opening :=
  match s.fitting? p with
  | some (.tableSection _ _ list _) => orElse [body p] (openBody s p) (openRows s list 0)
  | _ => none

def openGroup (p : FittingId) : Opening :=
  match s.fitting? p with
  | some (.rowGroup _ list) => openRows s list 0
  | _ => none

/-- The first container of an errand, if it has one. What is below a node is for others. -/
def opening : Errand → Opening
  | node _ => none
  | containers [] => none
  | containers (container :: more) => some (container, [containers more])
  | blocks n => just (blocksOf s n)
  | content n => just (contentOf s n)
  | short p => just ((s.caption? p).bind (·.short))
  | long p => just ((s.caption? p).map (·.long))
  | trail p => just ((s.citation? p).map (·.trail))
  | sequences p index => ((s.sequencesAt p)[index]?).map fun q => (.sequence q, [sequences p (index + 1)])
  | definitions p index => fromIndex s (openDefinition s) definitions p index
  | citations p index => fromIndex s (openCitation s) citations p index
  | cells p index => fromIndex s (openCell s) cells p index
  | rows p index => openRows s p index
  | sections p index => fromIndex s (openSection s) sections p index
  | body p => openBody s p
  | head n => (s.record n).rows?.bind fun (group, _, _) => openGroup s group
  | allSections n => (s.record n).rows?.bind fun (_, list, _) => fromIndex s (openSection s) sections list 0
  | foot n => (s.record n).rows?.bind fun (_, _, group) => openGroup s group

def first : List Errand → Opening
  | [] => none
  | errand :: rest => orElse rest (first rest) (opening s errand)

def unfolded : Errand → List Errand
  | node n => below s n
  | errand => [errand]

/-- Goes on with some errands up to the next container. -/
def resume (errands : List Errand) : Opening := first s (errands.flatMap (unfolded s))

end Errand

end DocTree.Walk
