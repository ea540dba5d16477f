import DocTree.Filter.Build
import DocTree.Filter.Members
import DocTree.Folder
/-!
Filters by reference. A reference names a module or a script, and after its last colon the way to a
value in it, member by member. What is found there is made into a filter.
-/

namespace DocTree

variable {β : Type}

structure Module (β : Type) where
  name : Text
  members : Value.Members β

def Module.standard (name : Text) : Value.Members β := [
  ("__name__", .text name), ("__package__", .text []), ("__doc__", .none),
  ("__dict__", .map [(.text "__name__", .text name)]),
  ("__builtins__", .map [(.text "__name__", .text Value.usualHome)]), ("__annotations__", .map []),
  ("__spec__", .object "<ModuleSpec>" "ModuleSpec" (Value.ownerOf "ModuleSpec") none []),
  ("__loader__", .object "<SourceFileLoader>" "SourceFileLoader" (Value.ownerOf "SourceFileLoader")
    none [])]

def Module.toValue (m : Module β) : Value β :=
  .object ("<module " ++ m.name.quoted ++ ">") "module" ("module " ++ m.name.quoted) none
    (m.members ++ Module.standard m.name)

/-- All there is to refer to: modules by name, and the scripts among the files. -/
structure Catalogue (β : Type) where
  modules : List (Module β)
  scripts : List (Path × Module β)
  /-- What is done by a callable that is no action. -/
  inert : β

namespace Filter

/-- A reference: what comes before the last colon, and the names after it. -/
structure Reference where
  text : Text
  source : Text
  names : List Text

inductive LinkFault
  | unknownModule (name : Text)
  /-- A module was asked for another one inside it. -/
  | notPackage (name parent : Text)
  | noScript (fault : FileFault) (path : Text)
  | notScript (source : Text)
  /-- A file that should hold a compiled script and does not begin as one does. -/
  | notCompiled (name : Text) (start : Bytes)
  /-- A file that should be a library and is not even long enough, or does not begin as one does. -/
  | notLibrary (path : Text) (isShort : Bool)
  /-- The owner is described in words. -/
  | noMember (owner name : Text)

def LinkFault.message : LinkFault → Text
  | unknownModule name => "No module named " ++ name.quoted
  | notPackage name parent =>
    "No module named " ++ name.quoted ++ "; " ++ parent.quoted ++ " is not a package"
  | noScript fault path => fault.message path
  | notScript source => "Cannot load filter file " ++ source
  | notCompiled name start => "bad magic number in " ++ name.quoted ++ ": " ++ Text.quotedBytes start
  | notLibrary path isShort =>
    path ++ (if isShort then ": file too short" else ": invalid ELF header")
  | noMember owner name => owner ++ " has no attribute " ++ name.quoted

inductive LoadFault (β : Type)
  | malformed (reference : Text)
  | broken (reference : Text) (fault : LinkFault)
  /-- A source that begins with a dot is relative, and there is nothing that it is relative to. -/
  | relative (source : Text)
  | unreadable (fault : FileFault)
  | unsuitable (reference : Text) (value : Value β)
  | unbuildable (fault : Fault β)

def LoadFault.message : LoadFault β → Text
  | malformed reference =>
    "Filter reference must look like module:attribute, got " ++ reference.quoted
  | broken reference fault => "Cannot load filter " ++ reference.quoted ++ ": " ++ fault.message
  | relative source =>
    "the 'package' argument is required to perform a relative import for " ++ source.quoted
  | unreadable fault => fault.message []
  | unsuitable reference v =>
    "Filter " ++ reference.quoted ++ " is a " ++ v.typeName ++
      ", not a Filter, action, mapping or list"
  | unbuildable fault => fault.message

/-- Whether a fault is reported as one of configuration. A relative source is not, nor one that is no
path. -/
def LoadFault.isConfiguration : LoadFault β → Bool
  | relative _ | unreadable _ => false
  | unbuildable fault => fault.parameter?.isSome
  | _ => true

def Reference.read? (t : Text) : Option Reference := do
  let (source, way) ← t.cutLast? (CodePoint.ofChar ':')
  if source.isEmpty ∨ way.isEmpty then none
  else some ⟨t, source, way.splitOn (CodePoint.ofChar '.')⟩

def dot : CodePoint := CodePoint.ofChar '.'

def scriptEnding : Text := ".py"

def compiledEnding : Text := ".pyc"

def libraryEnding : Text := ".so"

def isScriptPath (t : Text) : Bool := scriptEnding.isSuffixOf t

def markLength : Nat := 4

def libraryHeader : Nat := 64

/-- What a script that is not in the catalogue is: a module without members, or a file of another
sort. -/
def unlisted (source path : Text) (content : Bytes) : Except LinkFault (Module β) :=
  if libraryEnding.isSuffixOf path then
    .error (.notLibrary path (content.length < libraryHeader))
  else if isScriptPath path then .ok ⟨Path.stem path, []⟩
  else if compiledEnding.isSuffixOf path then
    .error (.notCompiled (Path.stem path) (content.take markLength))
  else .error (.notScript source)

def located (path : Text) (m : Module β) : Module β :=
  { m with members := m.members.put "__file__" (.text path) }

def scriptModule (c : Catalogue β) (f : Folder) (source : Text) : Except LinkFault (Module β) :=
  let path := f.absolute (Path.tidy source)
  match f.find path with
  | .error fault => .error (.noScript fault path)
  | .ok (place, content) =>
    let found : Except LinkFault (Module β) := match c.scripts.lookup place with
      | some m => .ok m
      | none => unlisted source path content
    found.map (located path)

/-- The module with a name. Modules have none inside them. -/
def namedModule (c : Catalogue β) (name : Text) : Except LinkFault (Module β) :=
  let (first, inner) := match name.cutFirst? dot with
    | none => (name, none)
    | some (first, rest) => (first, some (rest.takeWhile (· ≠ dot)))
  match c.modules.find? (·.name == first) with
  | none => .error (.unknownModule first)
  | some m => match inner with
    | none => .ok m
    | some next => .error (.notPackage (first ++ [dot] ++ next) first)

def meansScript (f : Folder) (source : Text) : Except LinkFault Bool :=
  let path := Path.tidy source
  if isScriptPath source then .ok true
  else match f.find path with
    | .ok _ => .ok true
    | .error .tooLong => .error (.noScript .tooLong path)
    | .error _ => .ok false

def followNames (inert : β) (v : Value β) : List Text → Except LinkFault (Value β)
  | [] => .ok v
  | name :: rest =>
    match v.member? inert name with
    | some inner => followNames inert inner rest
    | none => .error (.noMember v.ownerText name)

/-- Loading notes warnings, as building does. -/
abbrev Loading (β : Type) := ExceptT (LoadFault β) (StateM (List Text))

def loading {α : Type} (b : Building β α) : Loading β α := fun warnings =>
  let (result, warnings) := b.run warnings
  (result.mapError .unbuildable, warnings)

def ofTarget (reference : Text) (v : Value β) : Loading β (Filter β) :=
  match v with
  | .filter f => return f
  | .map entries => loading (ofEntries entries)
  | .list items | .tuple items => loading (ofArguments items)
  | v => match v.callable? with
    | some h => return ⟨[h]⟩
    | none => throw (.unsuitable reference v)

def LinkFault.inReference (reference : Text) : LinkFault → LoadFault β
  | .noScript fault path =>
    if fault.isSystem then .broken reference (.noScript fault path) else .unreadable fault
  | fault => .broken reference fault

def sourceModule (c : Catalogue β) (f : Folder) (r : Reference) : Except (LoadFault β) (Module β) := do
  let isScript ← (meansScript f r.source).mapError (·.inReference r.text)
  if r.source.head? = some dot ∧ !isScript then throw (.relative r.source)
  let found := if isScript then scriptModule c f r.source else namedModule c r.source
  found.mapError (·.inReference r.text)

def find (c : Catalogue β) (f : Folder) (r : Reference) : Except (LoadFault β) (Value β) := do
  let m ← sourceModule c f r
  (followNames c.inert m.toValue r.names).mapError (·.inReference r.text)

def load (c : Catalogue β) (f : Folder) (text : Text) : Loading β (Filter β) := do
  match Reference.read? text with
  | none => throw (.malformed text)
  | some r => match find c f r with
    | .ok v => ofTarget text v
    | .error fault => throw fault

end Filter

end DocTree
