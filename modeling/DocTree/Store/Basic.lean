import DocTree.Node.Basic
/-!
A tree that can be edited in place. Elements, sequences and mappings live in a store and refer to one
another by number, so that one of them may be reached in several ways, and an edit shows in all of
them. The lists and records between an element and the sequences of its children, its fittings, can be
edited and shared too. A number that the store does not know stands for something empty, and edits of it
have no effect; what is added gets a number that was not in use.
-/

namespace DocTree

structure NodeId where
  index : Nat
  deriving DecidableEq, Repr

structure SequenceId where
  index : Nat
  deriving DecidableEq, Repr

structure MappingId where
  index : Nat
  deriving DecidableEq, Repr

structure FittingId where
  index : Nat
  deriving DecidableEq, Repr

abbrev StoredElement := Element SequenceId MappingId

/-- A list or a record inside an element. The items of a list are sequences or fittings. -/
inductive Fitting
  | sequences (items : List SequenceId)
  | list (items : List FittingId)
  | definition (term : SequenceId) (meanings : FittingId)
  | caption (caption : Caption SequenceId)
  | citation (citation : Citation SequenceId)
  | cell (cell : Cell SequenceId)
  | row (attr : Attr) (cells : FittingId)
  | rowGroup (attr : Attr) (rows : FittingId)
  | tableSection (attr : Attr) (headColumns : Int) (head body : FittingId)

def Fitting.inner : Fitting → List FittingId
  | list items => items
  | definition _ meanings => [meanings]
  | row _ cells => [cells]
  | rowGroup _ rows => [rows]
  | tableSection _ _ head body => [head, body]
  | _ => []

/-- What a store has of an element: the element itself, with lists that nobody can edit if it has any,
or its fittings. -/
inductive Record
  | simple (element : StoredElement)
  | items (kind : ItemsKind) (items : FittingId)
  | orderedList (numbering : Numbering) (items : FittingId)
  | definitionList (items : FittingId)
  | table (attr : Attr) (caption : FittingId) (columns : List Column) (head sections foot : FittingId)
  | figure (attr : Attr) (caption : FittingId) (content : SequenceId)
  | cite (citations : FittingId) (content : SequenceId)

def Record.fittings : Record → List FittingId
  | simple _ => []
  | items _ parts | orderedList _ parts | definitionList parts => [parts]
  | table _ caption _ head sections foot => [caption, head, sections, foot]
  | figure _ caption _ => [caption]
  | cite citations _ => [citations]

/-- The head, the sections and the foot of a table. -/
def Record.rows? : Record → Option (FittingId × FittingId × FittingId)
  | table _ _ _ head sections foot => some (head, sections, foot)
  | _ => none

/-- What a tree hangs on: a node, or a sequence of nodes. -/
inductive Root
  | node (id : NodeId)
  | list (id : SequenceId)
  deriving DecidableEq, Repr

structure Store where
  records : Array Record
  fittings : Array Fitting
  sequences : Array (List NodeId)
  mappings : Array (Mapping NodeId)

namespace Store

def empty : Store := ⟨#[], #[], #[], #[]⟩

/-- A store with elements whose lists nobody can edit. -/
def ofElements (elements : List StoredElement) (sequences : List (List NodeId))
    (mappings : List (Mapping NodeId)) : Store :=
  ⟨(elements.map .simple).toArray, #[], sequences.toArray, mappings.toArray⟩

def record (s : Store) (id : NodeId) : Record := s.records.getD id.index (.simple (.mark .null))

def fitting? (s : Store) (id : FittingId) : Option Fitting := s.fittings[id.index]?

def sequence (s : Store) (id : SequenceId) : List NodeId := s.sequences.getD id.index []

def mapping (s : Store) (id : MappingId) : Mapping NodeId := s.mappings.getD id.index []

section

variable (s : Store) (id : FittingId)

def sequencesAt : List SequenceId :=
  match s.fitting? id with
  | some (.sequences items) => items
  | _ => []

def listAt : List FittingId :=
  match s.fitting? id with
  | some (.list items) => items
  | _ => []

def definition? : Option (Definition SequenceId) :=
  match s.fitting? id with
  | some (.definition term meanings) => some ⟨term, s.sequencesAt meanings⟩
  | _ => none

def caption? : Option (Caption SequenceId) :=
  match s.fitting? id with
  | some (.caption caption) => some caption
  | _ => none

def citation? : Option (Citation SequenceId) :=
  match s.fitting? id with
  | some (.citation citation) => some citation
  | _ => none

def cell? : Option (Cell SequenceId) :=
  match s.fitting? id with
  | some (.cell cell) => some cell
  | _ => none

def row? : Option (Row SequenceId) :=
  match s.fitting? id with
  | some (.row attr cells) => some ⟨attr, (s.listAt cells).filterMap s.cell?⟩
  | _ => none

def rowsAt : List (Row SequenceId) := (s.listAt id).filterMap s.row?

def rowGroup? : Option (RowGroup SequenceId) :=
  match s.fitting? id with
  | some (.rowGroup attr rows) => some ⟨attr, s.rowsAt rows⟩
  | _ => none

def tableSection? : Option (Section SequenceId) :=
  match s.fitting? id with
  | some (.tableSection attr headColumns head body) =>
    some ⟨attr, headColumns, s.rowsAt head, s.rowsAt body⟩
  | _ => none

end

/-- The element of a record, with its fittings looked up. A record that lacks one is no element. -/
def elementOf (s : Store) : Record → StoredElement
  | .simple e => e
  | .items kind items => .items kind (s.sequencesAt items)
  | .orderedList numbering items => .orderedList numbering (s.sequencesAt items)
  | .definitionList items => .definitionList ((s.listAt items).filterMap s.definition?)
  | .table attr caption columns head sections foot =>
    match s.caption? caption, s.rowGroup? head, s.rowGroup? foot with
    | some caption, some head, some foot =>
      .table ⟨attr, caption, columns, head, (s.listAt sections).filterMap s.tableSection?, foot⟩
    | _, _, _ => .mark .null
  | .figure attr caption content =>
    match s.caption? caption with
    | some caption => .figure attr caption content
    | none => .mark .null
  | .cite citations content => .cite ((s.listAt citations).filterMap s.citation?) content

def element (s : Store) (id : NodeId) : StoredElement := s.elementOf (s.record id)

def setRecord (s : Store) (id : NodeId) (r : Record) : Store :=
  { s with records := s.records.setIfInBounds id.index r }

def setFitting (s : Store) (id : FittingId) (f : Fitting) : Store :=
  { s with fittings := s.fittings.setIfInBounds id.index f }

def setSequence (s : Store) (id : SequenceId) (ns : List NodeId) : Store :=
  { s with sequences := s.sequences.setIfInBounds id.index ns }

def setMapping (s : Store) (id : MappingId) (m : Mapping NodeId) : Store :=
  { s with mappings := s.mappings.setIfInBounds id.index m }

/-- Puts nodes in the place of the one at an index; past the end they are appended. -/
def splice (s : Store) (id : SequenceId) (index : Nat) (ns : List NodeId) : Store :=
  let old := s.sequence id
  s.setSequence id (old.take index ++ ns ++ old.drop (index + 1))

abbrev Adding := StateM Store

def newRecord (r : Record) : Adding NodeId := fun s =>
  (⟨s.records.size⟩, { s with records := s.records.push r })

def newFitting (f : Fitting) : Adding FittingId := fun s =>
  (⟨s.fittings.size⟩, { s with fittings := s.fittings.push f })

def newSequence (ns : List NodeId) : Adding SequenceId := fun s =>
  (⟨s.sequences.size⟩, { s with sequences := s.sequences.push ns })

def newMapping (m : Mapping NodeId) : Adding MappingId := fun s =>
  (⟨s.mappings.size⟩, { s with mappings := s.mappings.push m })

def newList {α : Type} (item : α → Adding FittingId) (items : List α) : Adding FittingId := do
  newFitting (.list (← items.mapM item))

def newDefinition (d : Definition SequenceId) : Adding FittingId := do
  newFitting (.definition d.term (← newFitting (.sequences d.meanings)))

def newRow (r : Row SequenceId) : Adding FittingId := do
  newFitting (.row r.attr (← newList (fun c => newFitting (.cell c)) r.cells))

def newRowGroup (g : RowGroup SequenceId) : Adding FittingId := do
  newFitting (.rowGroup g.attr (← newList newRow g.rows))

def newTableSection (t : Section SequenceId) : Adding FittingId := do
  newFitting (.tableSection t.attr t.headColumns (← newList newRow t.head) (← newList newRow t.body))

/-- A record with new fittings. -/
def fit : StoredElement → Adding Record
  | .items kind items => .items kind <$> newFitting (.sequences items)
  | .orderedList numbering items => .orderedList numbering <$> newFitting (.sequences items)
  | .definitionList items => .definitionList <$> newList newDefinition items
  | .table t => do
    let caption ← newFitting (.caption t.caption)
    let head ← newRowGroup t.head
    let sections ← newList newTableSection t.sections
    return .table t.attr caption t.columns head sections (← newRowGroup t.foot)
  | .figure attr caption content => do return .figure attr (← newFitting (.caption caption)) content
  | .cite citations content => do
    return .cite (← newList (fun c => newFitting (.citation c)) citations) content
  | e => pure (.simple e)

def newElement (e : StoredElement) : Adding NodeId := do newRecord (← fit e)

/-- Puts an element in the place of another. What that one had of fittings is left as it is. -/
def setElement (s : Store) (id : NodeId) (e : StoredElement) : Store :=
  let (r, s) := fit e s
  s.setRecord id r

end Store

end DocTree
