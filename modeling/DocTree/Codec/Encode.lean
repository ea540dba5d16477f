import DocTree.Foreign
import DocTree.Number.Literal
/-!
From trees to JSON. A document is only possible at the root: an element has a tag, and there is none
for a document, nor for a list in the place of an element.
-/

namespace DocTree.Codec

/-- What keeps a tree from being written: a document below the root, a list in the place of an element, a
tree that is too deep, or a number with more digits than are printed. -/
inductive EncodeFault
  | innerDocument
  | innerList
  | recursion
  | unprintable
  deriving DecidableEq, Repr

def EncodeFault.message : EncodeFault → Text
  | innerDocument => "Unknown node type for serialization: Document"
  | innerList => "Unknown node type for serialization: list"
  | recursion => Stack.message
  | unprintable => Number.unprintableMessage

abbrev Encoded := Except EncodeFault

def enumerationJson (name : Text) : Json := .obj [("t", .str name)]

def textsJson (ts : List Text) : Json := .arr (ts.map .str)

def attrJson (a : Attr) : Json :=
  .arr [.str a.identifier, textsJson a.classes,
    .arr (a.pairs.map fun (key, value) => textsJson [key, value])]

def citationJson (c : Citation (List Json)) : Json :=
  .obj [("citationId", c.id), ("citationPrefix", .arr c.lead), ("citationSuffix", .arr c.trail),
    ("citationMode", enumerationJson c.mode), ("citationNoteNum", .int c.noteNum),
    ("citationHash", .int c.hash)]

def captionJson (c : Caption (List Json)) : Json :=
  .arr [(c.short.map Json.arr).getD .null, .arr c.long]

def columnJson (c : Column) : Json :=
  .arr [enumerationJson c.alignment,
    match c.width with
    | none => enumerationJson "ColWidthDefault"
    | some width => .obj [("t", .str "ColWidth"), ("c", .float width)]]

def cellJson (c : Cell (List Json)) : Json :=
  .arr [attrJson c.attr, enumerationJson c.alignment, .int c.rowSpan, .int c.colSpan, .arr c.content]

def rowJson (r : Row (List Json)) : Json := .arr [attrJson r.attr, .arr (r.cells.map cellJson)]

def rowGroupJson (g : RowGroup (List Json)) : Json :=
  .arr [attrJson g.attr, .arr (g.rows.map rowJson)]

def sectionJson (s : Section (List Json)) : Json :=
  .arr [attrJson s.attr, .int s.headColumns, .arr (s.head.map rowJson), .arr (s.body.map rowJson)]

def tableJson (t : Table (List Json)) : Json :=
  .arr [attrJson t.attr, captionJson t.caption, .arr (t.columns.map columnJson),
    rowGroupJson t.head, .arr (t.sections.map sectionJson), rowGroupJson t.foot]

def definitionJson (d : Definition (List Json)) : Json :=
  .arr [.arr d.term, .arr (d.meanings.map .arr)]

def numberingJson (n : Numbering) : Json :=
  .arr [.int n.start, enumerationJson n.style, enumerationJson n.delimiter]

def contentsJson? : Element (List Json) (Mapping Json) → Option Json
  | .document .. => none
  | .metaMap entries => some (.obj entries)
  | .metaBool value => some (.bool value)
  | .text _ t => some (.str t)
  | .mark _ => none
  | .wrap _ content => some (.arr content)
  | .items _ parts => some (.arr (parts.map .arr))
  | .orderedList numbering parts => some (.arr [numberingJson numbering, .arr (parts.map .arr)])
  | .definitionList parts => some (.arr (parts.map definitionJson))
  | .header level a content => some (.arr [.int level, attrJson a, .arr content])
  | .table t => some (tableJson t)
  | .figure a caption content => some (.arr [attrJson a, captionJson caption, .arr content])
  | .box _ a content => some (.arr [attrJson a, .arr content])
  | .verbatim _ a t => some (.arr [attrJson a, .str t])
  | .raw _ format t => some (textsJson [format, t])
  | .quoted style content => some (.arr [enumerationJson style, .arr content])
  | .cite citations content => some (.arr [.arr (citations.map citationJson), .arr content])
  | .math style t => some (.arr [enumerationJson style, .str t])
  | .target _ a content url title => some (.arr [attrJson a, .arr content, textsJson [url, title]])
  | .list _ => none

def shapeJson (e : Element (List Json) (Mapping Json)) : Json :=
  .obj (("t", .str e.name) :: match contentsJson? e with
    | some c => [("c", c)]
    | none => [])

def listOfEncoded (items : List (Encoded Json)) : Encoded (List Json) := items.mapM id

def entryOfEncoded (e : Text × Encoded Json) : Encoded (Text × Json) := do
  return (e.1, ← e.2)

def entriesOfEncoded (entries : Mapping (Encoded Json)) : Encoded (Mapping Json) :=
  entries.mapM entryOfEncoded

def encodeShape : Element (List (Encoded Json)) (Mapping (Encoded Json)) → Encoded Json
  | .document .. => .error .innerDocument
  | .list _ => .error .innerList
  | e => shapeJson <$> e.traverse .written listOfEncoded entriesOfEncoded

def encodeElement (n : Node) : Encoded Json := n.fold encodeShape

def documentJson (version : List Int) (metadata : Mapping Json) (blocks : List Json) : Json :=
  .obj [("pandoc-api-version", .arr (version.map .int)), ("meta", .obj metadata),
    ("blocks", .arr blocks)]

def encode : Tree → Encoded Json
  | .node (.mk (.document version metadata blocks)) => do
    let metadata ← entriesOfEncoded (metadata.map fun (key, n) => (key, encodeElement n))
    let blocks ← blocks.mapM encodeElement
    return documentJson version metadata blocks
  | .node n => encodeElement n
  | .list ns => .arr <$> ns.mapM encodeElement

end DocTree.Codec
