import DocTree.Codec.Decode
/-!
The layout of documents in JSON, without regard to how they are read: which value stands for which kind
of element, and how its parts are arranged. Objects may have their keys in any order.
-/

namespace DocTree.Codec

/-- How a value is arranged. -/
inductive Layout
  | text
  | whole
  | flag
  | enumeration
  /-- The width of a column: the default one, or a number. -/
  | width
  | nullable (l : Layout)
  | list (l : Layout)
  | tuple (parts : List Layout)
  /-- An object with exactly these keys. -/
  | record (fields : List (Text × Layout))
  /-- An object with any keys. -/
  | entries (l : Layout)
  | element

namespace Layout

def elements : Layout := list element

def attr : Layout := tuple [text, list text, list (tuple [text, text])]

def citation : Layout :=
  record [("citationId", text), ("citationPrefix", elements), ("citationSuffix", elements),
    ("citationMode", enumeration), ("citationNoteNum", whole), ("citationHash", whole)]

def caption : Layout := tuple [nullable elements, elements]

def column : Layout := tuple [enumeration, width]

def cell : Layout := tuple [attr, enumeration, whole, whole, elements]

def row : Layout := tuple [attr, list cell]

def rowGroup : Layout := tuple [attr, list row]

def tableSection : Layout := tuple [attr, whole, list row, list row]

def table : Layout := tuple [attr, caption, list column, rowGroup, list tableSection, rowGroup]

def definition : Layout := tuple [elements, list elements]

def numbering : Layout := tuple [whole, enumeration, enumeration]

def ofKind? : Kind → Option Layout
  | .metaMap => some (entries element)
  | .metaBool => some flag
  | .metaString | .str => some text
  | .metaList | .metaInlines | .metaBlocks | .plain | .para | .blockQuote | .emph | .underline
  | .strong | .strikeout | .superscript | .subscript | .smallCaps | .note => some elements
  | .lineBlock | .bulletList => some (list elements)
  | .orderedList => some (tuple [numbering, list elements])
  | .definitionList => some (list definition)
  | .header => some (tuple [whole, attr, elements])
  | .table => some table
  | .figure => some (tuple [attr, caption, elements])
  | .div | .span => some (tuple [attr, elements])
  | .codeBlock | .code => some (tuple [attr, text])
  | .rawBlock | .rawInline => some (tuple [text, text])
  | .quoted => some (tuple [enumeration, elements])
  | .cite => some (tuple [list citation, elements])
  | .math => some (tuple [enumeration, text])
  | .link | .image => some (tuple [attr, elements, tuple [text, text]])
  | .horizontalRule | .null | .space | .softBreak | .lineBreak | .document | .list => none

end Layout

theorem inner_of_layout {kind : Kind} {l : Layout} (layout : Layout.ofKind? kind = some l) :
    kind ≠ .document ∧ kind ≠ .list := by
  constructor
  · rintro rfl
    cases layout
  · rintro rfl
    cases layout

/-- A value that has a layout, given what the elements are. -/
inductive Fits (isElement : Json → Prop) : Layout → Json → Prop
  | text (t : Text) : Fits isElement .text (.str t)
  | whole (n : Int) : Fits isElement .whole (.int n)
  | flag (b : Bool) : Fits isElement .flag (.bool b)
  | enumeration (name : Text) : Fits isElement .enumeration (.obj [("t", .str name)])
  | defaultWidth : Fits isElement .width (.obj [("t", .str "ColWidthDefault")])
  | width {x : Binary64} {ms : Mapping Json} (number : ∀ negative, x ≠ .nan negative)
    (order : ms.Perm [("t", .str "ColWidth"), ("c", .float x)]) : Fits isElement .width (.obj ms)
  | absent {l : Layout} : Fits isElement (.nullable l) .null
  | present {l : Layout} {j : Json} (fits : Fits isElement l j) : Fits isElement (.nullable l) j
  | list {l : Layout} {js : List Json} (fit : ∀ j ∈ js, Fits isElement l j) :
    Fits isElement (.list l) (.arr js)
  | noPart : Fits isElement (.tuple []) (.arr [])
  | part {l : Layout} {ls : List Layout} {j : Json} {js : List Json} (fits : Fits isElement l j)
    (others : Fits isElement (.tuple ls) (.arr js)) : Fits isElement (.tuple (l :: ls)) (.arr (j :: js))
  | noField : Fits isElement (.record []) (.obj [])
  | field {key : Text} {l : Layout} {fields : List (Text × Layout)} {j : Json} {ms ms' : Mapping Json}
    (fits : Fits isElement l j) (others : Fits isElement (.record fields) (.obj ms))
    (order : ms'.Perm ((key, j) :: ms)) : Fits isElement (.record ((key, l) :: fields)) (.obj ms')
  | entries {l : Layout} {ms : Mapping Json} (fit : ∀ e ∈ ms, Fits isElement l e.2) :
    Fits isElement (.entries l) (.obj ms)
  | element {j : Json} (known : isElement j) : Fits isElement .element j

inductive IsElement : Json → Prop
  | contents {kind : Kind} {l : Layout} {c : Json} {ms : Mapping Json}
    (layout : Layout.ofKind? kind = some l) (fits : Fits IsElement l c)
    (order : ms.Perm [("t", .str kind.name), ("c", c)]) : IsElement (.obj ms)
  | mark (kind : MarkKind) : IsElement (.obj [("t", .str kind.kind.name)])

/-- A document with a version that is let through, an element, or a list of elements. -/
inductive Canonical [Versioning] (options : Options) : Json → Prop
  | document {v : List Int} {metadata content : Json} {ms : Mapping Json}
    (accepted : options.validates = true → checkVersion options v = .ok ())
    (entries : Fits IsElement (.entries .element) metadata)
    (elements : Fits IsElement .elements content)
    (order : ms.Perm [("pandoc-api-version", .arr (v.map .int)), ("meta", metadata),
      ("blocks", content)]) : Canonical options (.obj ms)
  | element {j : Json} (h : IsElement j) : Canonical options j
  | list {js : List Json} (h : ∀ j ∈ js, IsElement j) : Canonical options (.arr js)

end DocTree.Codec
