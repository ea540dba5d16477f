import DocTree.Filter.Apply
import DocTree.Codec.Fault
import DocTree.Store.Transfer
/-!
What actions have in common: how they fail, how they get at the fields of a node, and how they make
new nodes.
-/

namespace DocTree

inductive ActionFault
  /-- It says so itself. -/
  | raised (message : Text)
  /-- It broke down. -/
  | failed (message : Text)
  | callLimit
  | missingField (typeName field : Text)
  /-- It gave a new element a field that its kind does not have. -/
  | unexpectedField (kind : Kind) (field : Text)
  /-- It was given other arguments than it takes, or values of another type. -/
  | wrongArguments (message : Text)
  | unknownKind (name : Json)
  /-- It tried to make a node from a value that is none. -/
  | badNode (fault : Codec.Fault)

def ActionFault.message : ActionFault → Text
  | raised message | failed message | wrongArguments message => message
  | callLimit => "call limit"
  | missingField typeName field =>
    "'" ++ typeName ++ "' object has no attribute " ++ field.quoted
  | unexpectedField kind field =>
    kind.typeName ++ ".__init__() got an unexpected keyword argument " ++ field.quoted
  | unknownKind name => name.display
  | badNode fault => fault.message

namespace Action

variable {σ : Type}

abbrev Doing (σ : Type) := Effect ActionFault σ

def element (n : NodeId) : Doing σ StoredElement := return (← Effect.store).element n

def contentOf (n : NodeId) : Doing σ SequenceId := do
  let e ← element n
  match e.content? with
  | some q => return q
  | none => Effect.fail (.missingField e.kind.typeName "content")

def textOf (n : NodeId) : Doing σ Text := do
  let e ← element n
  match e.text? with
  | some t => return t
  | none => Effect.fail (.missingField e.kind.typeName "text")

def levelOf (n : NodeId) : Doing σ Int := do
  let e ← element n
  match e.level? with
  | some level => return level
  | none => Effect.fail (.missingField e.kind.typeName "level")

/-- The name of a node, which a list in the place of a node does not have. -/
def nameOf (n : NodeId) : Doing σ Text := do
  let e ← element n
  if e.kind = .list then Effect.fail (.missingField e.kind.typeName "name")
  return e.name

def sequenceOf (q : SequenceId) : Doing σ (List NodeId) := return (← Effect.store).sequence q

def memberOf (n : NodeId) : Doing σ Member := do
  let e ← element n
  return if e.kind = .list then .other e.kind.typeName else .node n

def membersOf (q : SequenceId) : Doing σ (List Member) := do
  (← sequenceOf q).mapM memberOf

def blankElement (kind : Kind) : Doing σ StoredElement := do
  let empty ← Effect.add (Store.newSequence [])
  let vacant ← Effect.add (Store.newMapping [])
  return .blank empty vacant kind

def withContent (kind : Kind) (q : SequenceId) : Doing σ NodeId := do
  let e ← blankElement kind
  if e.content?.isNone then Effect.fail (.unexpectedField kind "content")
  Effect.add (Store.newElement (e.withContent q))

def withText (kind : Kind) (t : Text) : Doing σ NodeId := do
  let e ← blankElement kind
  Effect.add (Store.newElement (e.withText t))

/-- The action that looks at nothing but the node. It can only be called because of the kind of the
node, and says so by its name. -/
def ofNode (name : Text) (f : NodeId → Doing σ Reply) : Action ActionFault σ
  | .byKind, n => f n
  | .plain .., _ =>
    Effect.fail (.wrongArguments (name ++ "() takes 1 positional argument but 3 were given"))

end Action

end DocTree
