import DocTree.Text.Basic
/-!
The kinds of elements. Kinds that carry the same data form a group, and each group is a type of its
own.
-/

namespace DocTree

/-- Every kind of element, the document at the root included, and the list, which no document has in the
place of an element but an action can put there. -/
inductive Kind
  | document
  | metaMap | metaList | metaBool | metaString | metaInlines | metaBlocks
  | plain | para | lineBlock | codeBlock | rawBlock | blockQuote
  | orderedList | bulletList | definitionList | header | horizontalRule
  | table | figure | div | null
  | str | emph | underline | strong | strikeout | superscript | subscript
  | smallCaps | quoted | cite | code | space | softBreak | lineBreak
  | math | rawInline | link | image | note | span
  | list
  deriving DecidableEq, Repr

namespace Kind

/-- The name of a kind in JSON, in keys of actions and in outlines; a list goes by that of its type. -/
def name : Kind → Text
  | document => "Pandoc"
  | metaMap => "MetaMap"
  | metaList => "MetaList"
  | metaBool => "MetaBool"
  | metaString => "MetaString"
  | metaInlines => "MetaInlines"
  | metaBlocks => "MetaBlocks"
  | plain => "Plain"
  | para => "Para"
  | lineBlock => "LineBlock"
  | codeBlock => "CodeBlock"
  | rawBlock => "RawBlock"
  | blockQuote => "BlockQuote"
  | orderedList => "OrderedList"
  | bulletList => "BulletList"
  | definitionList => "DefinitionList"
  | header => "Header"
  | horizontalRule => "HorizontalRule"
  | table => "Table"
  | figure => "Figure"
  | div => "Div"
  | null => "Null"
  | str => "Str"
  | emph => "Emph"
  | underline => "Underline"
  | strong => "Strong"
  | strikeout => "Strikeout"
  | superscript => "Superscript"
  | subscript => "Subscript"
  | smallCaps => "SmallCaps"
  | quoted => "Quoted"
  | cite => "Cite"
  | code => "Code"
  | space => "Space"
  | softBreak => "SoftBreak"
  | lineBreak => "LineBreak"
  | math => "Math"
  | rawInline => "RawInline"
  | link => "Link"
  | image => "Image"
  | note => "Note"
  | span => "Span"
  | list => "list"

/-- The name of the type of an element in messages. It differs from the kind name at the root only. -/
def typeName : Kind → Text
  | document => "Document"
  | kind => kind.name

/-- The kinds that may stand below the root. -/
def elements : List Kind := [
  metaMap, metaList, metaBool, metaString, metaInlines, metaBlocks,
  plain, para, lineBlock, codeBlock, rawBlock, blockQuote,
  orderedList, bulletList, definitionList, header, horizontalRule,
  table, figure, div, null,
  str, emph, underline, strong, strikeout, superscript, subscript,
  smallCaps, quoted, cite, code, space, softBreak, lineBreak,
  math, rawInline, link, image, note, span]

def ofName? (name : Text) : Option Kind := elements.find? fun kind => kind.name == name

end Kind

/-- Leaves that hold a text. -/
inductive TextKind
  | str
  | metaString
  deriving DecidableEq, Repr

/-- Leaves that hold nothing. -/
inductive MarkKind
  | horizontalRule
  | null
  | space
  | softBreak
  | lineBreak
  deriving DecidableEq, Repr

/-- Elements that are one sequence of children. -/
inductive WrapKind
  | metaList
  | metaInlines
  | metaBlocks
  | plain
  | para
  | blockQuote
  | emph
  | underline
  | strong
  | strikeout
  | superscript
  | subscript
  | smallCaps
  | note
  deriving DecidableEq, Repr

/-- Elements that are a list of sequences. -/
inductive ItemsKind
  | lineBlock
  | bulletList
  deriving DecidableEq, Repr

/-- Containers with attributes. -/
inductive BoxKind
  | div
  | span
  deriving DecidableEq, Repr

/-- Literal text with attributes. -/
inductive VerbatimKind
  | code
  | codeBlock
  deriving DecidableEq, Repr

/-- Text for one output format. -/
inductive RawKind
  | rawInline
  | rawBlock
  deriving DecidableEq, Repr

/-- Elements that point to a place. -/
inductive TargetKind
  | link
  | image
  deriving DecidableEq, Repr

def TextKind.kind : TextKind → Kind
  | str => .str
  | metaString => .metaString

def MarkKind.kind : MarkKind → Kind
  | horizontalRule => .horizontalRule
  | null => .null
  | space => .space
  | softBreak => .softBreak
  | lineBreak => .lineBreak

def WrapKind.kind : WrapKind → Kind
  | metaList => .metaList
  | metaInlines => .metaInlines
  | metaBlocks => .metaBlocks
  | plain => .plain
  | para => .para
  | blockQuote => .blockQuote
  | emph => .emph
  | underline => .underline
  | strong => .strong
  | strikeout => .strikeout
  | superscript => .superscript
  | subscript => .subscript
  | smallCaps => .smallCaps
  | note => .note

def ItemsKind.kind : ItemsKind → Kind
  | lineBlock => .lineBlock
  | bulletList => .bulletList

def BoxKind.kind : BoxKind → Kind
  | div => .div
  | span => .span

def VerbatimKind.kind : VerbatimKind → Kind
  | code => .code
  | codeBlock => .codeBlock

def RawKind.kind : RawKind → Kind
  | rawInline => .rawInline
  | rawBlock => .rawBlock

def TargetKind.kind : TargetKind → Kind
  | link => .link
  | image => .image

end DocTree
