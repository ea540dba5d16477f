import DocTree.Element.Basic
import DocTree.Text.Mapping
/-!
Trees of elements as values. `Node.fold` is the one recursion over them: it replaces every element,
from the leaves up, by what a function makes of the element with its children replaced.
-/

namespace DocTree

inductive Node
  | mk (element : Element (List Node) (List (Text × Node)))

/-- What can be read, walked and written: a single node, which is then the root, or a list of nodes. -/
inductive Tree
  | node (root : Node)
  | list (nodes : List Node)

namespace Node

def element : Node → Element (List Node) (Mapping Node)
  | mk e => e

section

variable {β : Type} (f : Element (List β) (Mapping β) → β)

mutual

def fold : Node → β
  | mk e => f (foldElement e)

def foldElement : Element (List Node) (List (Text × Node)) → Element (List β) (Mapping β)
  | .document version metadata blocks => .document version (foldEntries metadata) (foldList blocks)
  | .metaMap entries => .metaMap (foldEntries entries)
  | .metaBool value => .metaBool value
  | .text kind t => .text kind t
  | .mark kind => .mark kind
  | .wrap kind content => .wrap kind (foldList content)
  | .items kind parts => .items kind (foldLists parts)
  | .orderedList numbering parts => .orderedList numbering (foldLists parts)
  | .definitionList parts => .definitionList (foldDefinitions parts)
  | .header level attr content => .header level attr (foldList content)
  | .table t => .table (foldTable t)
  | .figure attr caption content => .figure attr (foldCaption caption) (foldList content)
  | .box kind attr content => .box kind attr (foldList content)
  | .verbatim kind attr t => .verbatim kind attr t
  | .raw kind format t => .raw kind format t
  | .quoted style content => .quoted style (foldList content)
  | .cite citations content => .cite (foldCitations citations) (foldList content)
  | .math style t => .math style t
  | .target kind attr content url title => .target kind attr (foldList content) url title
  | .list nodes => .list (foldList nodes)

def foldList : List Node → List β
  | [] => []
  | n :: rest => fold n :: foldList rest

def foldEntries : List (Text × Node) → Mapping β
  | [] => []
  | (key, n) :: rest => (key, fold n) :: foldEntries rest

def foldLists : List (List Node) → List (List β)
  | [] => []
  | ns :: rest => foldList ns :: foldLists rest

def foldDefinition : Definition (List Node) → Definition (List β)
  | ⟨term, meanings⟩ => ⟨foldList term, foldLists meanings⟩

def foldDefinitions : List (Definition (List Node)) → List (Definition (List β))
  | [] => []
  | d :: rest => foldDefinition d :: foldDefinitions rest

def foldCitation : Citation (List Node) → Citation (List β)
  | ⟨id, lead, trail, mode, noteNum, hash⟩ => ⟨id, foldList lead, foldList trail, mode, noteNum, hash⟩

def foldCitations : List (Citation (List Node)) → List (Citation (List β))
  | [] => []
  | c :: rest => foldCitation c :: foldCitations rest

def foldOption : Option (List Node) → Option (List β)
  | none => none
  | some ns => some (foldList ns)

def foldCaption : Caption (List Node) → Caption (List β)
  | ⟨long, short⟩ => ⟨foldList long, foldOption short⟩

def foldCell : Cell (List Node) → Cell (List β)
  | ⟨attr, alignment, rowSpan, colSpan, content⟩ => ⟨attr, alignment, rowSpan, colSpan, foldList content⟩

def foldCells : List (Cell (List Node)) → List (Cell (List β))
  | [] => []
  | c :: rest => foldCell c :: foldCells rest

def foldRow : Row (List Node) → Row (List β)
  | ⟨attr, cells⟩ => ⟨attr, foldCells cells⟩

def foldRows : List (Row (List Node)) → List (Row (List β))
  | [] => []
  | r :: rest => foldRow r :: foldRows rest

def foldGroup : RowGroup (List Node) → RowGroup (List β)
  | ⟨attr, rows⟩ => ⟨attr, foldRows rows⟩

def foldSection : Section (List Node) → Section (List β)
  | ⟨attr, headColumns, head, body⟩ => ⟨attr, headColumns, foldRows head, foldRows body⟩

def foldSections : List (Section (List Node)) → List (Section (List β))
  | [] => []
  | s :: rest => foldSection s :: foldSections rest

def foldTable : Table (List Node) → Table (List β)
  | ⟨attr, caption, columns, head, sections, foot⟩ =>
    ⟨attr, foldCaption caption, columns, foldGroup head, foldSections sections, foldGroup foot⟩

end

/-! The recursion keeps the shape of every container, so it is `Element.map` at each element. -/

theorem foldList_eq (ns : List Node) : foldList f ns = ns.map (fold f) := by
  induction ns with
  | nil => simp [foldList]
  | cons n rest ih => simp [foldList, ih]

theorem foldEntries_eq (entries : List (Text × Node)) :
    foldEntries f entries = entries.map fun (key, n) => (key, fold f n) := by
  induction entries with
  | nil => simp [foldEntries]
  | cons entry rest ih =>
    obtain ⟨key, n⟩ := entry
    simp [foldEntries, ih]

theorem foldLists_eq (lists : List (List Node)) : foldLists f lists = lists.map (foldList f) := by
  induction lists with
  | nil => simp [foldLists]
  | cons ns rest ih => simp [foldLists, ih]

theorem foldDefinition_eq (d : Definition (List Node)) : foldDefinition f d = d.map (foldList f) := by
  obtain ⟨term, meanings⟩ := d
  simp [foldDefinition, foldLists_eq, Definition.map]

theorem foldDefinitions_eq (ds : List (Definition (List Node))) :
    foldDefinitions f ds = ds.map (·.map (foldList f)) := by
  induction ds with
  | nil => simp [foldDefinitions]
  | cons d rest ih => simp [foldDefinitions, ih, foldDefinition_eq]

theorem foldCitation_eq (c : Citation (List Node)) : foldCitation f c = c.map (foldList f) := by
  obtain ⟨id, lead, trail, mode, noteNum, hash⟩ := c
  simp [foldCitation, Citation.map]

theorem foldCitations_eq (cs : List (Citation (List Node))) :
    foldCitations f cs = cs.map (·.map (foldList f)) := by
  induction cs with
  | nil => simp [foldCitations]
  | cons c rest ih => simp [foldCitations, ih, foldCitation_eq]

theorem foldCaption_eq (c : Caption (List Node)) : foldCaption f c = c.map (foldList f) := by
  obtain ⟨long, short⟩ := c
  cases short <;> simp [foldCaption, foldOption, Caption.map]

theorem foldCell_eq (c : Cell (List Node)) : foldCell f c = c.map (foldList f) := by
  obtain ⟨attr, alignment, rowSpan, colSpan, content⟩ := c
  simp [foldCell, Cell.map]

theorem foldCells_eq (cs : List (Cell (List Node))) :
    foldCells f cs = cs.map (·.map (foldList f)) := by
  induction cs with
  | nil => simp [foldCells]
  | cons c rest ih => simp [foldCells, ih, foldCell_eq]

theorem foldRow_eq (r : Row (List Node)) : foldRow f r = r.map (foldList f) := by
  obtain ⟨attr, cells⟩ := r
  simp [foldRow, foldCells_eq, Row.map]

theorem foldRows_eq (rs : List (Row (List Node))) :
    foldRows f rs = rs.map (·.map (foldList f)) := by
  induction rs with
  | nil => simp [foldRows]
  | cons r rest ih => simp [foldRows, ih, foldRow_eq]

theorem foldGroup_eq (g : RowGroup (List Node)) : foldGroup f g = g.map (foldList f) := by
  obtain ⟨attr, rows⟩ := g
  simp [foldGroup, foldRows_eq, RowGroup.map]

theorem foldSection_eq (s : Section (List Node)) : foldSection f s = s.map (foldList f) := by
  obtain ⟨attr, headColumns, head, body⟩ := s
  simp [foldSection, foldRows_eq, Section.map]

theorem foldSections_eq (ss : List (Section (List Node))) :
    foldSections f ss = ss.map (·.map (foldList f)) := by
  induction ss with
  | nil => simp [foldSections]
  | cons s rest ih => simp [foldSections, ih, foldSection_eq]

theorem foldTable_eq (t : Table (List Node)) : foldTable f t = t.map (foldList f) := by
  obtain ⟨attr, caption, columns, head, sections, foot⟩ := t
  simp [foldTable, foldCaption_eq, foldGroup_eq, foldSections_eq, Table.map]

theorem foldElement_eq (e : Element (List Node) (Mapping Node)) :
    foldElement f e = e.map (·.map (fold f)) (·.map fun (key, n) => (key, fold f n)) := by
  cases e <;>
    simp [foldElement, Element.map, foldEntries_eq, foldLists_eq, foldDefinitions_eq,
      foldCitations_eq, foldCaption_eq, foldTable_eq, funext (foldList_eq f)]

theorem fold_mk (e : Element (List Node) (Mapping Node)) :
    fold f (mk e) = f (e.map (·.map (fold f)) (·.map fun (key, n) => (key, fold f n))) := by
  rw [fold, foldElement_eq]

end

def members {β : Type} : Slot (List β) (Mapping β) → List β
  | .sequence ns => ns
  | .mapping entries => entries.map (·.2)

end Node

def Tree.toNode : Tree → Node
  | node n => n
  | list ns => .mk (.list ns)

end DocTree
