import DocTree.Action.Basic
import DocTree.Codec.Decode
import DocTree.Outline.Basic
/-!
Actions described by rules. A rule has conditions on the node and says what to do; the first rule
whose conditions all hold decides. Every call is noted in a ledger. What a rule holds are values of
JSON, and one of the wrong type makes the action fail when its turn comes.
-/

namespace DocTree

/-- What a rule makes of a node. -/
inductive Item
  | itself
  /-- Its children, in the very sequence that holds them. -/
  | children
  | fresh (tree : Codec.Decoded Tree)
  | raw (value : Json)
  /-- A new element around the node. -/
  | wrap (kind : Except Json Kind)
  /-- A new element that shares the content of the node. -/
  | rewrap (kind : Except Json Kind)
  /-- A new element of the same kind with a longer text. -/
  | lengthened (more : Json)
  | fromMetadata (key : Json)

inductive Deed
  | keep
  | delete
  | one (item : Item)
  | several (items : List Item)
  | fail (message : Text)
  | clear
  | addText (more : Json)
  | push (tree : Codec.Decoded Tree)
  | setMetadata (key : Text) (tree : Codec.Decoded Tree)
  | removeMetadata (key : Json)

/-- A rule; conditions that are not given hold. `most` limits how often it decides. -/
structure Rule where
  kinds : Option Json
  text : Option Json
  leastLevel : Option Json
  format : Option Json
  field : Option Json
  most : Option Json
  deed : Deed

/-- One call of an action: the label of the node, and for a call for every node the format and the
keys of the metadata. -/
structure Call where
  label : Text
  context : Option (Json × List Text)

/-- The calls so far, the latest first, and the uses of limited rules, each by the number of its action
and its own. -/
structure Ledger where
  calls : List Call
  uses : List (Nat × Nat)

namespace Ledger

def empty : Ledger := ⟨[], []⟩

def callLimit : Nat := 2000

end Ledger

namespace Rule

abbrev Doing := Action.Doing Ledger

def holds (condition : Option Json) (test : Json → Doing Bool) : Doing Bool :=
  match condition with
  | none => return true
  | some j => test j

def isOfKinds (e : StoredElement) : Json → Doing Bool
  | .str names => return (kindsOf names).contains e.name
  | j => Effect.fail (.missingField j.typeName "split")

def hasText (e : StoredElement) (j : Json) : Bool := e.text?.any fun t => j.same (.str t)

/-- Values that have no order, as an action complains about them. -/
def unordered (sign left right : Text) : ActionFault :=
  .wrongArguments ("'" ++ sign ++ "' not supported between instances of '" ++ left ++ "' and '" ++
    right ++ "'")

def reachesLevel (e : StoredElement) (least : Json) : Doing Bool :=
  match e.level? with
  | none => return false
  | some level => match least.compareInt? level with
    | some order => return order.any (·.isLE)
    | none => Effect.fail (unordered ">=" "int" least.typeName)

def hasFormat (occasion : Occasion) (j : Json) : Bool :=
  match occasion with
  | .plain given _ => given.same j
  | .byKind => false

def answersTo (e : StoredElement) : Json → Doing Bool
  | .str field => return e.hasField field
  | j => Effect.fail (.wrongArguments ("attribute name must be string, not '" ++ j.typeName ++ "'"))

/-- Whether the conditions hold, one after the other, apart from the limit. -/
def admits (r : Rule) (occasion : Occasion) (e : StoredElement) : Doing Bool := do
  unless ← holds r.kinds (isOfKinds e) do return false
  unless ← holds r.text (fun j => return hasText e j) do return false
  unless ← holds r.leastLevel (reachesLevel e) do return false
  unless ← holds r.format (fun j => return hasFormat occasion j) do return false
  holds r.field (answersTo e)

def freshRoot (tree : Codec.Decoded Tree) : Doing Root := do
  match tree with
  | .error fault => Effect.fail (.badNode fault)
  | .ok tree => Effect.add (Store.loadTree tree)

/-- A new tree as one node; a list of nodes stands in the place of a node then. -/
def freshNode (tree : Codec.Decoded Tree) : Doing NodeId := do
  match tree with
  | .error fault => Effect.fail (.badNode fault)
  | .ok tree => Effect.add (Store.load tree.toNode)

def chosenKind : Except Json Kind → Doing Kind
  | .ok kind => return kind
  | .error name => Effect.fail (.unknownKind name)

def appended (t : Text) : Json → Doing Text
  | .str more => return t ++ more
  | j => Effect.fail (.wrongArguments ("can only concatenate str (not \"" ++ j.typeName ++ "\") to str"))

/-- The key of metadata that a value is, if it is one at all. -/
def keyOf? : Json → Doing (Option Text)
  | .str key => return some key
  | .arr items => Effect.fail (.wrongArguments ("unhashable type: '" ++ (Json.arr items).typeName ++ "'"))
  | .obj members => Effect.fail (.wrongArguments ("unhashable type: '" ++ (Json.obj members).typeName ++ "'"))
  | _ => return none

def plainTextOf (fuel : Nat) (s : Store) (n : NodeId) : Text :=
  match s.element n with
  | .list q => Walk.plainText fuel s (.list q)
  | _ => Walk.plainText fuel s (.node n)

def metadataText (fuel : Nat) (key : Json) (occasion : Occasion) : Doing Text := do
  let key ← keyOf? key
  match occasion with
  | .byKind => return "?"
  | .plain _ metadata =>
    let s ← Effect.store
    match key.bind (s.mapping metadata).get? with
    | none => return "?"
    | some n => return plainTextOf fuel s n

def itemNode? (fuel : Nat) (occasion : Occasion) (n : NodeId) : Item → Doing (Option NodeId)
  | .itself => return some n
  | .wrap kind => do
    let kind ← chosenKind kind
    let q ← Effect.add (Store.newSequence [n])
    return some (← Action.withContent kind q)
  | .rewrap kind => do
    let kind ← chosenKind kind
    let q ← Action.contentOf n
    return some (← Action.withContent kind q)
  | .lengthened more => do
    let t ← appended (← Action.textOf n) more
    let e ← Action.element n
    return some (← Action.withText e.kind t)
  | .fromMetadata key => do
    let t ← metadataText fuel key occasion
    return some (← Action.withText .str t)
  | .children | .fresh _ | .raw _ => return none

def reply (fuel : Nat) (occasion : Occasion) (n : NodeId) (item : Item) : Doing Reply := do
  match item with
  | .children => return .several (← Action.membersOf (← Action.contentOf n))
  | .fresh tree => match ← freshRoot tree with
    | .node m => return .node m
    | .list q => return .several (← Action.membersOf q)
  | .raw .null => return .keep
  | .raw (.arr items) => return .several (items.map fun j => .other j.typeName)
  | .raw j => return .other j.typeName
  | item => match ← itemNode? fuel occasion n item with
    | some m => return .node m
    | none => return .keep

/-- An item as a part of a list. Only the children stand for several members. -/
def listed (fuel : Nat) (occasion : Occasion) (n : NodeId) (item : Item) : Doing (List Member) := do
  match item with
  | .children => Action.membersOf (← Action.contentOf n)
  | .fresh tree => return [← Action.memberOf (← freshNode tree)]
  | .raw j => return [.other j.typeName]
  | item => match ← itemNode? fuel occasion n item with
    | some m => return [.node m]
    | none => return []

def editMetadata (occasion : Occasion) (f : Mapping NodeId → Mapping NodeId) : Doing Unit :=
  match occasion with
  | .byKind => return ()
  | .plain _ id => Effect.modifyStore fun s => s.setMapping id (f (s.mapping id))

def perform (fuel : Nat) (occasion : Occasion) (n : NodeId) : Deed → Doing Reply
  | .keep => return .keep
  | .delete => return .several []
  | .one item => reply fuel occasion n item
  | .several items => return .several (← items.mapM (listed fuel occasion n)).flatten
  | .fail message => Effect.fail (.raised message)
  | .clear => do
    let q ← Action.contentOf n
    Effect.modifyStore (·.setSequence q [])
    return .keep
  | .addText more => do
    let t ← appended (← Action.textOf n) more
    Effect.modifyStore fun s => s.setElement n ((s.element n).withText t)
    return .keep
  | .push tree => do
    let q ← Action.contentOf n
    let m ← freshNode tree
    Effect.modifyStore fun s => s.setSequence q (s.sequence q ++ [m])
    return .keep
  | .setMetadata key tree => do
    let m ← freshNode tree
    editMetadata occasion (·.put key m)
    return .keep
  | .removeMetadata key => do
    if let some key ← keyOf? key then editMetadata occasion (·.erase key)
    return .keep

def usesOf (ledger : Ledger) (use : Nat × Nat) : Nat := ledger.uses.count use

/-- Whether a rule may decide once more; if it is limited, this counts as a use. -/
def mayDecide (use : Nat × Nat) (r : Rule) : Doing Bool := do
  match r.most with
  | none => return true
  | some most =>
    let uses := usesOf (← get).state use
    match most.compareInt? uses with
    | none => Effect.fail (unordered ">=" "int" most.typeName)
    | some order =>
      if order.all (·.isLE) then return false
      Effect.modifyState fun ledger => { ledger with uses := use :: ledger.uses }
      return true

/-- The deed of the first rule that holds and is not used up. The rules are those of an action, the
first of them with the given number. -/
def decide? (action : Nat) (occasion : Occasion) (e : StoredElement) :
    Nat → List Rule → Doing (Option Deed)
  | _, [] => return none
  | number, r :: rest => do
    if ← r.admits occasion e then
      if ← mayDecide (action, number) r then return some r.deed
    decide? action occasion e (number + 1) rest

def callOf (occasion : Occasion) (n : NodeId) : Doing Call := do
  let _ ← Action.nameOf n
  let s ← Effect.store
  return ⟨Outline.label (s.element n), match occasion with
    | .plain format metadata => some (format, (s.mapping metadata).keys)
    | .byKind => none⟩

def noteCall (call : Call) : Doing Unit := do
  Effect.modifyState fun ledger => { ledger with calls := call :: ledger.calls }
  if Ledger.callLimit < (← get).state.calls.length then Effect.fail .callLimit

def action (fuel : Nat) (number : Nat) (rules : List Rule) : Action ActionFault Ledger :=
  fun occasion n => do
    noteCall (← callOf occasion n)
    match ← decide? number occasion (← Action.element n) 0 rules with
    | some deed => perform fuel occasion n deed
    | none => return .keep

end Rule

end DocTree
