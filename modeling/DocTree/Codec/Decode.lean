import DocTree.Codec.Fault
import DocTree.Node.Basic
import DocTree.Options
/-!
From JSON to trees. The decoder of each kind is given the decoder of its children, so that only one
function recurs; the height of the value bounds its depth. Where a value has two faults, the order in
which the parts are decoded says which one is reported.
-/

namespace DocTree.Codec

abbrev Decoded := Except Fault

def fail {α : Type} (d : Defect) : Decoded α := .error (.defect d)

def refuse {α : Type} (r : Refusal) : Decoded α := .error (.refused r)

/-- The members of a sequence. A string is the sequence of its characters, an object that of its keys. -/
def sequence? : Json → Option (List Json)
  | .arr items => some items
  | .str t => some (t.map fun c => .str [c])
  | .obj members => some (members.map fun (key, _) => .str key)
  | _ => none

def unpack (count : Nat) (j : Json) : Decoded (List Json) :=
  match sequence? j with
  | none => fail (.notSequence j.typeName)
  | some items =>
    if items.length < count then fail (.tooFew count items.length)
    else if count < items.length then fail (.tooMany count)
    else .ok items

def pair (j : Json) : Decoded (Json × Json) := do
  match ← unpack 2 j with
  | [a, b] => return (a, b)
  | _ => fail (.tooMany 2)

def triple (j : Json) : Decoded (Json × Json × Json) := do
  match ← unpack 3 j with
  | [a, b, c] => return (a, b, c)
  | _ => fail (.tooMany 3)

def listOf (what : Text) : Json → Decoded (List Json)
  | .arr items => .ok items
  | j => refuse (.expectedList what j.typeName)

def member (key : Text) : Json → Decoded Json
  | .obj members => match Mapping.get? key members with
    | some j => .ok j
    | none => fail (.missing key)
  | j => fail (.notObject j)

def memberOr (key : Text) (absent : Json) : Json → Json
  | .obj members => (Mapping.get? key members).getD absent
  | _ => absent

def enumeration (j : Json) : Decoded Text := Json.asText <$> member "t" j

/-- A whole number, from any value that has one: a fraction is cut off. -/
def whole : Json → Decoded Int
  | .int n => .ok n
  | .bool b => .ok (if b then 1 else 0)
  | .str t => match Number.readInt t with
    | .ok n => .ok n
    | .error fault => fail (.badNumber fault)
  | .float (.nan _) => fail .undefinedWhole
  | .float x => match x.truncate? with
    | some n => .ok n
    | none => .error (.overflow .infinite)
  | j => fail (.notWhole j.typeName)

def real : Json → Decoded Binary64
  | .float x => .ok x
  | .bool b => .ok (.ofBool b)
  | .int n => match Binary64.ofInt? n with
    | some x => .ok x
    | none => .error (.overflow .tooLarge)
  | .str t => match Number.readFloat t with
    | .ok x => .ok x
    | .error fault => fail (.badNumber fault)
  | j => fail (.notReal j.typeName)

def textPair (j : Json) : Decoded (Text × Text) := do
  let (key, value) ← pair j
  return (key.asText, value.asText)

def attr (j : Json) : Decoded Attr := do
  let (identifier, classes, pairs) ← triple j
  let classes ← listOf "attribute classes" classes
  let pairs ← (← listOf "attribute pairs" pairs).mapM textPair
  return ⟨identifier.asText, classes.map Json.asText, pairs⟩

/-- Where a decoder puts the children it decodes: into sequences and mappings. -/
class Holding (m : Type → Type) (α : Type) (S M : outParam Type) where
  sequence : List α → m S
  mapping : Mapping α → m M

/-- What a decoder makes: nodes of elements, and trees. -/
class Making (m : Type → Type) (α ρ S M : outParam Type) where
  node : Element S M → m α
  root : α → ρ
  list : S → ρ

instance {α : Type} : Holding Decoded α (List α) (Mapping α) := ⟨pure, pure⟩

instance : Making Decoded Node Tree (List Node) (Mapping Node) := ⟨fun e => pure (.mk e), .node, .list⟩

section

variable {m : Type → Type} [Monad m] [MonadLiftT Decoded m] {α S M : Type} [Holding m α S M]
  (child : Json → m α)

def children (what : Text) (j : Json) : m S := do
  Holding.sequence (← (← listOf what j).mapM child)

def inlines (j : Json) : m S := children child "inline list" j

def blocks (j : Json) : m S := children child "block list" j

def blockLists (j : Json) : m (List S) := do
  (← listOf "list items" j).mapM (blocks child)

omit [MonadLiftT Decoded m] [Holding m α S M] in
def entry (e : Text × Json) : m (Text × α) := do
  return (e.1, ← child e.2)

def mapping : Json → m M
  | .obj members => do Holding.mapping (← members.mapM (entry child))
  | j => refuse (.expectedMapping j.typeName)

def citation (j : Json) : m (Citation S) := do
  let id ← member "citationId" j
  let lead ← inlines child (memberOr "citationPrefix" (.arr []) j)
  let trail ← inlines child (memberOr "citationSuffix" (.arr []) j)
  let mode ← enumeration (← member "citationMode" j)
  let noteNum ← whole (memberOr "citationNoteNum" (.int 0) j)
  let hash ← whole (memberOr "citationHash" (.int 0) j)
  return ⟨id, lead, trail, mode, noteNum, hash⟩

/-- A caption. Its long form is decoded first. -/
def caption (j : Json) : m (Caption S) := do
  let (short, long) ← pair j
  let long ← blocks child long
  let short ← match short with
    | .null => pure none
    | short => some <$> inlines child short
  return ⟨long, short⟩

/-- A column. Its width is decoded first. -/
def column (j : Json) : Decoded Column := do
  let (alignment, width) ← pair j
  let tag ← enumeration width
  let width ← if tag = "ColWidthDefault" then pure none
    else some <$> (real =<< member "c" width)
  return ⟨← enumeration alignment, width⟩

def columns (j : Json) : Decoded (List Column) := do
  (← listOf "column specs" j).mapM column

def cell (j : Json) : m (Cell S) := do
  match ← unpack 5 j with
  | [a, alignment, rowSpan, colSpan, content] =>
    let content ← blocks child content
    let alignment ← enumeration alignment
    let rowSpan ← whole rowSpan
    let colSpan ← whole colSpan
    return ⟨← attr a, alignment, rowSpan, colSpan, content⟩
  | _ => fail (.tooMany 5)

def row (j : Json) : m (Row S) := do
  let (a, cells) ← pair j
  let cells ← (← listOf "row cells" cells).mapM (cell child)
  return ⟨← attr a, cells⟩

def rows (j : Json) : m (List (Row S)) := do
  (← listOf "table rows" j).mapM (row child)

def rowGroup (a rowList : Json) : m (RowGroup S) := do
  let rowList ← rows child rowList
  return ⟨← attr a, rowList⟩

/-- A section of a table. Its own rows are decoded before its head rows. -/
def tableSection (j : Json) : m (Section S) := do
  match ← unpack 4 j with
  | [a, headColumns, head, body] =>
    let body ← rows child body
    let head ← rows child head
    let headColumns ← whole headColumns
    return ⟨← attr a, headColumns, head, body⟩
  | _ => fail (.tooMany 4)

def definition (j : Json) : m (Definition S) := do
  let (term, meanings) ← pair j
  let term ← inlines child term
  return ⟨term, ← blockLists child meanings⟩

/-- An element without its tag, and one level without the children's children. -/
abbrev Shape (α : Type) := Element (List α) (Mapping α)

def wrapped (kind : WrapKind) (j : Json) : m (Element S M) :=
  .wrap kind <$> match kind with
    | .metaList => children child "MetaList" j
    | .metaBlocks | .blockQuote | .note => blocks child j
    | _ => inlines child j

def orderedList (j : Json) : m (Element S M) := do
  let (numbering, parts) ← pair j
  let (start, style, delimiter) ← triple numbering
  let parts ← blockLists child parts
  let start ← whole start
  let style ← enumeration style
  let delimiter ← enumeration delimiter
  return .orderedList ⟨start, style, delimiter⟩ parts

def header (j : Json) : m (Element S M) := do
  let (level, a, content) ← triple j
  let level ← whole level
  let content ← inlines child content
  return .header level (← attr a) content

/-- A table. The columns and the caption come after the rows. -/
def table (j : Json) : m (Element S M) := do
  match ← unpack 6 j with
  | [a, c, columnList, head, sections, foot] =>
    let (headAttr, headRows) ← pair head
    let (footAttr, footRows) ← pair foot
    let head ← rowGroup child headAttr headRows
    let sections ← (← listOf "table bodies" sections).mapM (tableSection child)
    let foot ← rowGroup child footAttr footRows
    let c ← caption child c
    let columns ← columns columnList
    return .table ⟨← attr a, c, columns, head, sections, foot⟩
  | _ => fail (.tooMany 6)

def figure (j : Json) : m (Element S M) := do
  let (a, c, content) ← triple j
  let content ← blocks child content
  let c ← caption child c
  return .figure (← attr a) c content

def box (kind : BoxKind) (j : Json) : m (Element S M) := do
  let (a, content) ← pair j
  let content ← match kind with
    | .div => blocks child content
    | .span => inlines child content
  return .box kind (← attr a) content

def verbatim (kind : VerbatimKind) (j : Json) : Decoded (Element S M) := do
  let (a, t) ← pair j
  return .verbatim kind (← attr a) t.asText

def raw (kind : RawKind) (j : Json) : Decoded (Element S M) := do
  let (format, t) ← pair j
  return .raw kind format.asText t.asText

def quoted (j : Json) : m (Element S M) := do
  let (style, content) ← pair j
  let style ← enumeration style
  return .quoted style (← inlines child content)

def cite (j : Json) : m (Element S M) := do
  let (citations, content) ← pair j
  let citations ← (← listOf "citations" citations).mapM (citation child)
  return .cite citations (← inlines child content)

def math (j : Json) : Decoded (Element S M) := do
  let (style, t) ← pair j
  return .math (← enumeration style) t.asText

def target (kind : TargetKind) (j : Json) : m (Element S M) := do
  let (a, content, place) ← triple j
  let (url, title) ← pair place
  let content ← inlines child content
  return .target kind (← attr a) content url.asText title.asText

def leafText (kind : TextKind) : Json → Decoded (Element S M)
  | .str t => .ok (.text kind t)
  | j => refuse (.expectedString kind.kind.name j.typeName)

def metaBool : Json → Decoded (Element S M)
  | .bool b => .ok (.metaBool b)
  | j => refuse (.expectedBoolean j.typeName)

def contents (kind : Kind) (j : Json) : m (Element S M) :=
  match kind with
  | .document | .list => refuse (.notElement j)
  | .metaMap => .metaMap <$> mapping child j
  | .metaList => wrapped child .metaList j
  | .metaBool => metaBool j
  | .metaString => leafText .metaString j
  | .metaInlines => wrapped child .metaInlines j
  | .metaBlocks => wrapped child .metaBlocks j
  | .plain => wrapped child .plain j
  | .para => wrapped child .para j
  | .lineBlock => do return .items .lineBlock (← (← listOf "LineBlock" j).mapM (inlines child))
  | .codeBlock => verbatim .codeBlock j
  | .rawBlock => raw .rawBlock j
  | .blockQuote => wrapped child .blockQuote j
  | .orderedList => orderedList child j
  | .bulletList => .items .bulletList <$> blockLists child j
  | .definitionList => do
    return .definitionList (← (← listOf "definition list items" j).mapM (definition child))
  | .header => header child j
  | .horizontalRule => pure (.mark .horizontalRule)
  | .table => table child j
  | .figure => figure child j
  | .div => box child .div j
  | .null => pure (.mark .null)
  | .str => leafText .str j
  | .emph => wrapped child .emph j
  | .underline => wrapped child .underline j
  | .strong => wrapped child .strong j
  | .strikeout => wrapped child .strikeout j
  | .superscript => wrapped child .superscript j
  | .subscript => wrapped child .subscript j
  | .smallCaps => wrapped child .smallCaps j
  | .quoted => quoted child j
  | .cite => cite child j
  | .code => verbatim .code j
  | .space => pure (.mark .space)
  | .softBreak => pure (.mark .softBreak)
  | .lineBreak => pure (.mark .lineBreak)
  | .math => math j
  | .rawInline => raw .rawInline j
  | .link => target child .link j
  | .image => target child .image j
  | .note => wrapped child .note j
  | .span => box child .span j

def kindOf : Json → Decoded Kind
  | .arr items => fail (.compoundTag (Json.arr items).typeName)
  | .obj members => fail (.compoundTag (Json.obj members).typeName)
  | .str name => match Kind.ofName? name with
    | some kind => .ok kind
    | none => refuse (.unknownKind (.str name))
  | tag => refuse (.unknownKind tag)

section

variable [MonadExceptOf Fault m]

/-- A defect of the contents becomes a refusal that names the element. -/
def inElement (kind : Kind) (decoded : m (Element S M)) : m (Element S M) :=
  tryCatch decoded fun
    | .defect d => refuse (.badContents kind.name d)
    | fault => throw fault

def shape (j : Json) : m (Element S M) :=
  match j with
  | .obj members =>
    match Mapping.get? "t" members with
    | none => refuse (.notElement j)
    | some tag => do
      let kind ← kindOf tag
      inElement kind (contents child kind (memberOr "c" .null j))
  | _ => refuse (.notElement j)

end

end

section

variable {m : Type → Type} [Monad m] [MonadLiftT Decoded m] [MonadExceptOf Fault m] {α ρ S M : Type}
  [Holding m α S M] [Making m α ρ S M]

def makeElementWithin : Nat → Json → m α
  | 0, j => refuse (.notElement j)
  | fuel + 1, j => do Making.node (← shape (makeElementWithin fuel) j)

def makeElement (j : Json) : m α := makeElementWithin j.height j

end

section

variable {α : Type}

@[simp] theorem lift_self (x : Decoded α) : (liftM x : Decoded α) = x := rfl

theorem children_eq (child : Json → Decoded α) (what : Text) (j : Json) :
    children child what j = (do (← listOf what j).mapM child) := by
  change (listOf what j >>= fun items => items.mapM child >>= pure) = _
  simp only [bind_pure]

theorem mapping_obj (child : Json → Decoded α) (ms : Mapping Json) :
    mapping child (.obj ms) = ms.mapM (entry child) := bind_pure (ms.mapM (entry child))

theorem inElement_eq (kind : Kind) (x : Decoded (Shape α)) : inElement kind x = match x with
    | .error (.defect d) => refuse (.badContents kind.name d)
    | result => result := by
  cases x with
  | ok e => rfl
  | error f => cases f <;> rfl

theorem elements_eq (child : Json → Decoded α) (what : Text) (items : List Json) :
    children child what (.arr items) = items.mapM child := children_eq child what (.arr items)

end

def elementWithin : Nat → Json → Decoded Node := makeElementWithin

theorem elementWithin_succ (fuel : Nat) (j : Json) :
    elementWithin (fuel + 1) j = Node.mk <$> shape (elementWithin fuel) j :=
  (map_eq_pure_bind Node.mk (shape (elementWithin fuel) j)).symm

def element : Json → Decoded Node := makeElement

def versionKey : Text := "pandoc-api-version"

/-- The version of a document. A number that is out of range is not a defect of the version. -/
def version (j : Json) : Decoded (List Int) := do
  let parts ← listOf versionKey j
  match parts.mapM whole with
  | .error (.defect d) => refuse (.badVersion j d)
  | result => result

def versionText (v : List Int) : Text := Text.joinWith "." (v.map Text.ofInt)

section

variable [Versioning]

def checkVersion (options : Options) (v : List Int) : Decoded Unit :=
  if v.all Number.isShort then
    match Versioning.version? (versionText v) with
    | none => refuse (.invalidVersion (versionText v))
    | some version =>
      match Versioning.contains options.range version with
      | .ok true => .ok ()
      | .ok false => refuse (.unsupportedVersion (versionText v) options.supported.asText)
      | .error fault => .error (.library fault)
  else .error .unprintable

/-- The version that a value is let through with, if it is a document that gets that far. -/
def acceptedVersion? (options : Options) : Json → Option Text
  | .obj members => do
    let v ← (version (← Mapping.get? versionKey members)).toOption
    if options.validates then
      (checkVersion options v).toOption
      return versionText v
    else none
  | _ => none

def isOldLayout : List Json → Bool
  | [.obj members, _] => Mapping.contains "unMeta" members
  | _ => false

section

variable {m : Type → Type} [Monad m] [MonadLiftT Decoded m] [MonadExceptOf Fault m] {α ρ S M : Type}
  [Holding m α S M] [Making m α ρ S M]

/-- A document without its version, but for the version that it is given. -/
def body (v : List Int) (members : Mapping Json) : m α :=
  match Mapping.get? "blocks" members with
  | none => refuse .missingBlocks
  | some content => do
    let content ← blocks makeElement content
    let metadata ← mapping makeElement ((Mapping.get? "meta" members).getD (.obj []))
    Making.node (.document v metadata content)

def document (options : Options) (members : Mapping Json) (versionValue : Json) : m α := do
  let v ← version versionValue
  if options.validates then checkVersion options v
  body v members

/-- A document, a single element or a list of elements. -/
def makeTree (options : Options) (j : Json) : m ρ :=
  match j with
  | .obj members =>
    match Mapping.get? versionKey members with
    | some versionValue => Making.root m <$> document options members versionValue
    | none => Making.root m <$> makeElement j
  | .arr items =>
    if isOldLayout items then refuse .oldLayout
    else do
      let nodes : List α ← items.mapM makeElement
      return Making.list m (← Holding.sequence nodes)
  | _ => Making.root m <$> makeElement j

end

def decode : Options → Json → Decoded Tree := makeTree

theorem decode_arr (options : Options) (items : List Json) : decode options (.arr items) =
    if isOldLayout items then refuse .oldLayout else Tree.list <$> items.mapM element :=
  ite_congr rfl (fun _ => rfl) fun _ => (map_eq_pure_bind Tree.list (items.mapM element)).symm

theorem decode_element (options : Options) {ms : Mapping Json} (unversioned : ms.get? versionKey = none) :
    decode options (.obj ms) = Tree.node <$> element (.obj ms) := by
  change makeTree options (.obj ms) = _
  rw [makeTree, unversioned]
  rfl

/-- The version of a document is read first, and checked if that is asked for. -/
theorem decode_document (options : Options) {ms : Mapping Json} {value : Json}
    (found : ms.get? versionKey = some value) : decode options (.obj ms) = Tree.node <$> (do
      let v ← version value
      if options.validates then checkVersion options v
      body v ms) := by
  change makeTree options (.obj ms) = _
  rw [makeTree, found]
  rfl

end

end DocTree.Codec
