import DocTree.Filter.Value
/-!
Making filters. Arguments come in several forms; the first value that does not fit is reported. A key
that names a kind that does not exist is no error, but a warning says that it will never match.
-/

namespace DocTree.Filter

variable {β : Type}

inductive Fault (β : Type)
  | notCallable (value : Value β)
  | keyNotText (value : Value β)
  | emptyKind (key : Text)
  | boundNotCallable (key : Text) (value : Value β)
  | notPair (value : Value β) (hasMembers : Bool)
  | notSequence (typeName : Text)
  | notArguments (typeName : Text)
  /-- There is no text for the value that is at fault. -/
  | unprintable

namespace Fault

def message : Fault β → Text
  | notCallable v => "Filter actions must be callable, got " ++ v.typeName ++ ": " ++ v.display
  | keyNotText v =>
    "Action key must be a string of kind names, got " ++ v.typeName ++ ": " ++ v.display
  | emptyKind key => "Empty kind name in action key " ++ key.quoted
  | boundNotCallable key v =>
    "Action for " ++ key.quoted ++ " must be callable, got " ++ v.typeName ++ ": " ++ v.display
  | notPair v _ => "Named actions must be (key, action) pairs, got " ++ v.display
  | notSequence typeName => "'" ++ typeName ++ "' object is not iterable"
  | notArguments typeName =>
    "panwalk.filter.Filter.from_args() argument after * must be an iterable, not " ++ typeName
  | unprintable => Number.unprintableMessage

/-- The fault of a value, whose message shows the value. -/
def showing (fault : Value β → Fault β) (v : Value β) : Fault β :=
  if v.isPrintable then fault v else unprintable

/-- The name of the parameter that is at fault, and its value; a value of the wrong sort altogether
belongs to no parameter. -/
def parameter? : Fault β → Option (Text × Value β)
  | notCallable v => some ("actions", v)
  | keyNotText v => some ("key", v)
  | emptyKind key => some ("key", .text key)
  | boundNotCallable _ v => some ("action", v)
  | notPair v _ => some ("named_actions", v)
  | notSequence _ | notArguments _ | unprintable => none

end Fault

/-- Building notes warnings, which stay also when it fails. -/
abbrev Building (β : Type) := ExceptT (Fault β) (StateM (List Text))

def warn (message : Text) : Building β Unit := modify (· ++ [message])

def sortedOnce (ts : List Text) : List Text :=
  ts.eraseDups.mergeSort fun a b => !b.before a

def unknownKinds (key : Text) : List Text :=
  sortedOnce ((kindsOf key).filter fun name => (Kind.ofName? name).isNone)

def unknownWarning (key : Text) (unknown : List Text) : Text :=
  "Action key " ++ key.quoted ++ " names unknown node kinds [" ++
    Text.joinWith ", " (unknown.map Text.quoted) ++ "]; they will never match"

def bind (key function : Value β) : Building β (Handler β) := do
  match key with
  | .text key =>
    if (kindsOf key).contains [] then throw (.emptyKind key)
    match function.callable? with
    | none => throw (.showing (.boundNotCallable key) function)
    | some h =>
      let unknown := unknownKinds key
      unless unknown.isEmpty do warn (unknownWarning key unknown)
      return .bound key h
  | _ => throw (.showing .keyNotText key)

def bindPair (pair : Value β) : Building β (Handler β) := do
  match pair.items? with
  | some [key, function] => bind key function
  | some _ => throw (.showing (.notPair · true) pair)
  | none => throw (.showing (.notPair · false) pair)

def plain (v : Value β) : Building β (Handler β) :=
  match v.callable? with
  | some h => return h
  | none => throw (.showing .notCallable v)

def ofActions (actions : List (Value β)) : Building β (Filter β) :=
  return ⟨← actions.mapM plain⟩

def ofPairs (pairs : List (Value β)) : Building β (Filter β) :=
  return ⟨← pairs.mapM bindPair⟩

def ofEntries (entries : List (Value β × Value β)) : Building β (Filter β) :=
  return ⟨← entries.mapM fun (key, function) => bind key function⟩

def pairUp : List (Value β) → List (Value β × Value β)
  | key :: function :: rest => (key, function) :: pairUp rest
  | _ => []

/-- A filter of arguments: a single mapping, keys and actions in turn, or actions. An even number of
arguments of which the first cannot be called are keys and actions. -/
def ofArguments (arguments : List (Value β)) : Building β (Filter β) :=
  match arguments with
  | [.map entries] => ofEntries entries
  | first :: _ =>
    if arguments.length % 2 = 0 ∧ first.callable?.isNone then ofEntries (pairUp arguments)
    else ofActions arguments
  | [] => ofActions []

def members (v : Value β) (absent : Text → Fault β) : Building β (List (Value β)) :=
  match v.items? with
  | some items => return items
  | none => throw (absent v.typeName)

inductive Way
  | arguments
  | actions
  | named
  deriving DecidableEq, Repr

def ofValue (way : Way) (v : Value β) : Building β (Filter β) := do
  match way, v with
  | .arguments, v => ofArguments (← members v .notArguments)
  | .actions, v => ofActions (← members v .notSequence)
  | .named, .map entries => ofEntries entries
  | .named, v => ofPairs (← members v .notSequence)

end DocTree.Filter
