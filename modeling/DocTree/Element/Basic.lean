import DocTree.Element.Kind
import DocTree.Json.Basic
/-!
One element of a document, without saying what its children are. An element holds children in two
sorts of containers: sequences and, in metadata, mappings from keys to single children. `S` and `M`
stand for these, so the same type serves a tree, a mutable store, and JSON on its way in or out.
-/

namespace DocTree

/-- Identifier, classes, and further pairs of key and value. -/
structure Attr where
  identifier : Text
  classes : List Text
  pairs : List (Text × Text)
  deriving DecidableEq, Repr

def Attr.none : Attr := ⟨[], [], []⟩

structure Numbering where
  start : Int
  style : Text
  delimiter : Text
  deriving DecidableEq, Repr

/-- One of the citations of a cite element: what is cited, and what stands before and after it. -/
structure Citation (S : Type) where
  id : Json
  lead : S
  trail : S
  mode : Text
  noteNum : Int
  hash : Int

/-- A caption and, for lists of tables and figures, its short form. -/
structure Caption (S : Type) where
  long : S
  short : Option S

structure Column where
  alignment : Text
  width : Option Binary64

structure Cell (S : Type) where
  attr : Attr
  alignment : Text
  rowSpan : Int
  colSpan : Int
  content : S

structure Row (S : Type) where
  attr : Attr
  cells : List (Cell S)

structure RowGroup (S : Type) where
  attr : Attr
  rows : List (Row S)

/-- A section of a table, with head rows of its own. -/
structure Section (S : Type) where
  attr : Attr
  headColumns : Int
  head : List (Row S)
  body : List (Row S)

structure Table (S : Type) where
  attr : Attr
  caption : Caption S
  columns : List Column
  head : RowGroup S
  sections : List (Section S)
  foot : RowGroup S

structure Definition (S : Type) where
  term : S
  meanings : List S

inductive Slot (S M : Type)
  | sequence (s : S)
  | mapping (m : M)
  deriving DecidableEq, Repr

inductive Element (S M : Type)
  | document (version : List Int) (metadata : M) (blocks : S)
  | metaMap (entries : M)
  | metaBool (value : Bool)
  | text (kind : TextKind) (text : Text)
  | mark (kind : MarkKind)
  | wrap (kind : WrapKind) (content : S)
  | items (kind : ItemsKind) (items : List S)
  | orderedList (numbering : Numbering) (items : List S)
  | definitionList (items : List (Definition S))
  | header (level : Int) (attr : Attr) (content : S)
  | table (table : Table S)
  | figure (attr : Attr) (caption : Caption S) (content : S)
  | box (kind : BoxKind) (attr : Attr) (content : S)
  | verbatim (kind : VerbatimKind) (attr : Attr) (text : Text)
  | raw (kind : RawKind) (format : Text) (text : Text)
  | quoted (style : Text) (content : S)
  | cite (citations : List (Citation S)) (content : S)
  | math (style : Text) (text : Text)
  | target (kind : TargetKind) (attr : Attr) (content : S) (url : Text) (title : Text)
  /-- Nodes in the place of one. Nothing looks into them on its way through a tree. -/
  | list (nodes : S)

section

variable {S S' M M' : Type}

def Citation.map (f : S → S') (c : Citation S) : Citation S' :=
  ⟨c.id, f c.lead, f c.trail, c.mode, c.noteNum, c.hash⟩

def Caption.map (f : S → S') (c : Caption S) : Caption S' := ⟨f c.long, c.short.map f⟩

def Cell.map (f : S → S') (c : Cell S) : Cell S' :=
  ⟨c.attr, c.alignment, c.rowSpan, c.colSpan, f c.content⟩

def Row.map (f : S → S') (r : Row S) : Row S' := ⟨r.attr, r.cells.map (·.map f)⟩

def RowGroup.map (f : S → S') (g : RowGroup S) : RowGroup S' := ⟨g.attr, g.rows.map (·.map f)⟩

def Section.map (f : S → S') (s : Section S) : Section S' :=
  ⟨s.attr, s.headColumns, s.head.map (·.map f), s.body.map (·.map f)⟩

def Table.map (f : S → S') (t : Table S) : Table S' :=
  ⟨t.attr, t.caption.map f, t.columns, t.head.map f, t.sections.map (·.map f), t.foot.map f⟩

def Definition.map (f : S → S') (d : Definition S) : Definition S' := ⟨f d.term, d.meanings.map f⟩

def Element.map (f : S → S') (g : M → M') : Element S M → Element S' M'
  | .document version metadata blocks => .document version (g metadata) (f blocks)
  | .metaMap entries => .metaMap (g entries)
  | .metaBool value => .metaBool value
  | .text kind t => .text kind t
  | .mark kind => .mark kind
  | .wrap kind content => .wrap kind (f content)
  | .items kind parts => .items kind (parts.map f)
  | .orderedList numbering parts => .orderedList numbering (parts.map f)
  | .definitionList parts => .definitionList (parts.map (·.map f))
  | .header level attr content => .header level attr (f content)
  | .table t => .table (t.map f)
  | .figure attr caption content => .figure attr (caption.map f) (f content)
  | .box kind attr content => .box kind attr (f content)
  | .verbatim kind attr t => .verbatim kind attr t
  | .raw kind format t => .raw kind format t
  | .quoted style content => .quoted style (f content)
  | .cite citations content => .cite (citations.map (·.map f)) (f content)
  | .math style t => .math style t
  | .target kind attr content url title => .target kind attr (f content) url title
  | .list nodes => .list (f nodes)

end

/-- The containers of an element as they stand in the document, or as a decoder comes to them. -/
inductive Order
  | written
  | decoded

section

variable {m : Type → Type} [Monad m] {S S' M M' : Type}

/-- A decoder comes to the second one first. -/
def Order.both {α β : Type} (x : m α) (y : m β) : Order → m (α × β)
  | written => do
    let a ← x
    return (a, ← y)
  | decoded => do
    let b ← y
    return (← x, b)

section

variable (order : Order) (f : S → m S')

def Citation.traverse (c : Citation S) : m (Citation S') := do
  let lead ← f c.lead
  let trail ← f c.trail
  return ⟨c.id, lead, trail, c.mode, c.noteNum, c.hash⟩

def Caption.traverse (c : Caption S) : m (Caption S') := do
  let shortened := match c.short with
    | some s => some <$> f s
    | none => pure none
  let (short, long) ← order.both shortened (f c.long)
  return ⟨long, short⟩

def Cell.traverse (c : Cell S) : m (Cell S') := do
  let content ← f c.content
  return ⟨c.attr, c.alignment, c.rowSpan, c.colSpan, content⟩

def Row.traverse (r : Row S) : m (Row S') := do
  let cells ← r.cells.mapM (·.traverse f)
  return ⟨r.attr, cells⟩

def RowGroup.traverse (g : RowGroup S) : m (RowGroup S') := do
  let rows ← g.rows.mapM (·.traverse f)
  return ⟨g.attr, rows⟩

def Section.traverse (s : Section S) : m (Section S') := do
  let (head, body) ← order.both (s.head.mapM (·.traverse f)) (s.body.mapM (·.traverse f))
  return ⟨s.attr, s.headColumns, head, body⟩

def Table.traverseRows (t : Table S) : m (RowGroup S' × List (Section S') × RowGroup S') := do
  let head ← t.head.traverse f
  let sections ← t.sections.mapM (·.traverse order f)
  return (head, sections, ← t.foot.traverse f)

def Table.traverse (t : Table S) : m (Table S') := do
  let (caption, head, sections, foot) ← order.both (t.caption.traverse order f) (t.traverseRows order f)
  return ⟨t.attr, caption, t.columns, head, sections, foot⟩

def Definition.traverse (d : Definition S) : m (Definition S') := do
  let term ← f d.term
  let meanings ← d.meanings.mapM f
  return ⟨term, meanings⟩

/-- Visits the containers in an order. -/
def Element.traverse (g : M → m M') : Element S M → m (Element S' M')
  | .document version metadata blocks => do
    let (metadata, blocks) ← order.both (g metadata) (f blocks)
    return .document version metadata blocks
  | .metaMap entries => .metaMap <$> g entries
  | .metaBool value => pure (.metaBool value)
  | .text kind t => pure (.text kind t)
  | .mark kind => pure (.mark kind)
  | .wrap kind content => .wrap kind <$> f content
  | .items kind parts => .items kind <$> parts.mapM f
  | .orderedList numbering parts => .orderedList numbering <$> parts.mapM f
  | .definitionList parts => .definitionList <$> parts.mapM (·.traverse f)
  | .header level attr content => .header level attr <$> f content
  | .table t => .table <$> t.traverse order f
  | .figure attr caption content => do
    let (caption, content) ← order.both (caption.traverse order f) (f content)
    return .figure attr caption content
  | .box kind attr content => .box kind attr <$> f content
  | .verbatim kind attr t => pure (.verbatim kind attr t)
  | .raw kind format t => pure (.raw kind format t)
  | .quoted style content => .quoted style <$> f content
  | .cite citations content => do
    let citations ← citations.mapM (·.traverse f)
    let content ← f content
    return .cite citations content
  | .math style t => pure (.math style t)
  | .target kind attr content url title => do
    let content ← f content
    return .target kind attr content url title
  | .list nodes => .list <$> f nodes

end

end

section

variable {S M : Type}

def Citation.sequences (c : Citation S) : List S := [c.lead, c.trail]

def Caption.sequences (c : Caption S) : List S := c.short.toList ++ [c.long]

def Row.sequences (r : Row S) : List S := r.cells.map (·.content)

def RowGroup.sequences (g : RowGroup S) : List S := g.rows.flatMap (·.sequences)

def Section.sequences (s : Section S) : List S :=
  s.head.flatMap (·.sequences) ++ s.body.flatMap (·.sequences)

def Table.sequences (t : Table S) : List S :=
  t.caption.sequences ++ t.head.sequences ++ t.sections.flatMap (·.sequences) ++ t.foot.sequences

def Definition.sequences (d : Definition S) : List S := d.term :: d.meanings

namespace Element

def kind : Element S M → Kind
  | document .. => .document
  | metaMap .. => .metaMap
  | metaBool .. => .metaBool
  | text kind _ => kind.kind
  | mark kind => kind.kind
  | wrap kind _ => kind.kind
  | items kind _ => kind.kind
  | orderedList .. => .orderedList
  | definitionList .. => .definitionList
  | header .. => .header
  | table .. => .table
  | figure .. => .figure
  | box kind .. => kind.kind
  | verbatim kind .. => kind.kind
  | raw kind .. => kind.kind
  | quoted .. => .quoted
  | cite .. => .cite
  | math .. => .math
  | target kind .. => kind.kind
  | list _ => .list

def name (e : Element S M) : Text := e.kind.name

/-- The containers of the children, in document order. -/
def slots : Element S M → List (Slot S M)
  | document _ metadata blocks => [.mapping metadata, .sequence blocks]
  | metaMap entries => [.mapping entries]
  | wrap _ content | header _ _ content | box _ _ content | quoted _ content
  | target _ _ content _ _ => [.sequence content]
  | items _ parts | orderedList _ parts => parts.map .sequence
  | definitionList parts => (parts.flatMap (·.sequences)).map .sequence
  | table t => t.sequences.map .sequence
  | figure _ caption content => (caption.sequences ++ [content]).map .sequence
  | cite citations content => (citations.flatMap (·.sequences) ++ [content]).map .sequence
  | _ => []

def text? : Element S M → Option Text
  | text _ t | verbatim _ _ t | raw _ _ t | math _ t => some t
  | _ => none

def withText (t : Text) : Element S M → Element S M
  | text kind _ => text kind t
  | verbatim kind attr _ => verbatim kind attr t
  | raw kind format _ => raw kind format t
  | math style _ => math style t
  | e => e

/-- The one sequence that is the content of an element. A list of metadata values has items, not
content. -/
def content? : Element S M → Option S
  | wrap .metaList _ => none
  | wrap _ s | header _ _ s | figure _ _ s | box _ _ s | quoted _ s | cite _ s
  | target _ _ s _ _ => some s
  | _ => none

def level? : Element S M → Option Int
  | header level _ _ => some level
  | _ => none

def url? : Element S M → Option Text
  | target _ _ _ url _ => some url
  | _ => none

/-- The text that an element adds to the plain text of the document. -/
def ownText : Element S M → Text
  | text _ t | verbatim _ _ t | math _ t => t
  | mark .space | mark .softBreak | mark .lineBreak => " "
  | _ => []

def defaultVersion : List Int := [1, 23, 1]

/-- The element of a kind with empty texts and the usual numbers. `empty` and `vacant` are its
containers. -/
def blank (empty : S) (vacant : M) : Kind → Element S M
  | .document => document defaultVersion vacant empty
  | .metaMap => metaMap vacant
  | .metaList => wrap .metaList empty
  | .metaBool => metaBool false
  | .metaString => text .metaString []
  | .metaInlines => wrap .metaInlines empty
  | .metaBlocks => wrap .metaBlocks empty
  | .plain => wrap .plain empty
  | .para => wrap .para empty
  | .lineBlock => items .lineBlock []
  | .codeBlock => verbatim .codeBlock .none []
  | .rawBlock => raw .rawBlock [] []
  | .blockQuote => wrap .blockQuote empty
  | .orderedList => orderedList ⟨1, "DefaultStyle", "DefaultDelim"⟩ []
  | .bulletList => items .bulletList []
  | .definitionList => definitionList []
  | .header => header 1 .none empty
  | .horizontalRule => mark .horizontalRule
  | .table => table ⟨.none, ⟨empty, none⟩, [], ⟨.none, []⟩, [], ⟨.none, []⟩⟩
  | .figure => figure .none ⟨empty, none⟩ empty
  | .div => box .div .none empty
  | .null => mark .null
  | .str => text .str []
  | .emph => wrap .emph empty
  | .underline => wrap .underline empty
  | .strong => wrap .strong empty
  | .strikeout => wrap .strikeout empty
  | .superscript => wrap .superscript empty
  | .subscript => wrap .subscript empty
  | .smallCaps => wrap .smallCaps empty
  | .quoted => quoted "DoubleQuote" empty
  | .cite => cite [] empty
  | .code => verbatim .code .none []
  | .space => mark .space
  | .softBreak => mark .softBreak
  | .lineBreak => mark .lineBreak
  | .math => math "InlineMath" []
  | .rawInline => raw .rawInline [] []
  | .link => target .link .none empty [] []
  | .image => target .image .none empty [] []
  | .note => wrap .note empty
  | .span => box .span .none empty
  | .list => list empty

def withContent (s : S) : Element S M → Element S M
  | wrap .metaList old => wrap .metaList old
  | wrap kind _ => wrap kind s
  | header level attr _ => header level attr s
  | figure attr caption _ => figure attr caption s
  | box kind attr _ => box kind attr s
  | quoted style _ => quoted style s
  | cite citations _ => cite citations s
  | target kind attr _ url title => target kind attr s url title
  | e => e

def fieldsOf : Kind → List Text
  | .document => ["blocks", "meta", "api_version"]
  | .metaMap => ["entries"]
  | .metaList | .bulletList | .definitionList => ["items"]
  | .metaBool => ["value"]
  | .metaString | .str => ["text"]
  | .lineBlock => ["lines"]
  | .codeBlock | .code => ["text", "attr"]
  | .rawBlock | .rawInline => ["format", "text"]
  | .orderedList => ["items", "list_attributes"]
  | .header => ["level", "content", "attr"]
  | .table => ["head", "bodies", "foot", "caption", "col_specs", "attr", "iter_rows"]
  | .figure => ["content", "caption", "attr"]
  | .div | .span => ["content", "attr"]
  | .quoted => ["quote_type", "content"]
  | .cite => ["citations", "content"]
  | .math => ["text", "math_type"]
  | .link | .image => ["url", "content", "title", "attr"]
  | .horizontalRule | .null | .space | .softBreak | .lineBreak | .list => []
  | _ => ["content"]

def commonFields : List Text := List.map Text.ofString [
  "name", "tag", "_abc_impl", "__abstractmethods__", "__annotations__", "__class__",
  "__dataclass_fields__", "__dataclass_params__", "__delattr__", "__dict__", "__dir__", "__doc__",
  "__eq__", "__format__", "__ge__", "__getattribute__", "__getstate__", "__gt__", "__hash__",
  "__init__", "__init_subclass__", "__le__", "__lt__", "__match_args__", "__module__", "__ne__",
  "__new__", "__reduce__", "__reduce_ex__", "__repr__", "__setattr__", "__sizeof__", "__slots__",
  "__str__", "__subclasshook__", "__weakref__"]

def hasField (field : Text) (e : Element S M) : Bool :=
  commonFields.contains field || (fieldsOf e.kind).contains field

end Element

end

end DocTree
