import DocTree.Filter.Value
import DocTree.Walk.Basic
/-!
Applying filters: one pass over the whole tree for each handler, so that every handler sees the tree
as the ones before it left it.
-/

namespace DocTree

/-- How an action is called: for every node, with the format and the metadata, or because of the
kind of the node, with nothing else. -/
inductive Occasion
  | plain (format : Json) (metadata : MappingId)
  | byKind

abbrev Action (ε σ : Type) := Occasion → NodeId → Effect ε σ Reply

section

variable {ε σ : Type}

def Thrown.message (ofOwn : ε → Text) : Thrown ε → Text
  | own e => ofOwn e
  | stop => []
  | arity => "NamedAction.__call__() missing 2 required positional arguments: 'format' and 'meta'"

/-- What a handler answers that is called with a node alone, which is too little for one that is bound to kinds. -/
def Handler.performAlone : Handler (Action ε σ) → NodeId → Effect ε σ Reply
  | plain c, n => c.act .byKind n
  | bound .., _ => throw .arity

/-- What a handler answers for a node. A handler that is bound to kinds asks for the name of the node
and keeps every node of another kind. -/
def Handler.perform : Handler (Action ε σ) → Action ε σ
  | plain c, occasion, n => c.act occasion n
  | bound key function, _, n => do
    let e := (← Effect.store).element n
    if e.kind = .list then return .nameless
    if (kindsOf key).contains e.name then function.performAlone n else return .keep

namespace Filter

/-- The metadata of a tree: that of a document, and otherwise an empty mapping. -/
def metadataOf (s : Store) (root : Root) : MappingId × Store :=
  let other := s.newMapping []
  match root with
  | .node id => match s.element id with
    | .document _ metadata _ => (metadata, s)
    | _ => other
  | .list _ => other

/-- How an application ends early: in which pass, and why. The first pass has number one. -/
structure Stop (ε : Type) where
  pass : Nat
  halt : Walk.Halt ε

/-- The passes of the handlers, counted from a number, up to the first that fails. -/
def passes (fuel : Nat) (occasion : Occasion) (root : Root) :
    Nat → List (Handler (Action ε σ)) → World σ → Except (Stop ε) Unit × World σ
  | _, [], w => (.ok (), w)
  | number, h :: rest, w =>
    match Walk.transform fuel (h.perform occasion) root w with
    | (.error halt, w) => (.error ⟨number, halt⟩, w)
    | (.ok (), w) => passes fuel occasion root (number + 1) rest w

/-- The format that a value stands for; no value stands for the empty one. -/
def formatOf : Json → Json
  | .null => .str []
  | j => j

/-- Applies a filter to a tree, in place. Without metadata they are those of the tree. -/
def apply (fuel : Nat) (f : Filter (Action ε σ)) (root : Root) (format : Json)
    (metadata : Option MappingId) (w : World σ) : Except (Stop ε) Unit × World σ :=
  let (metadata, store) := match metadata with
    | some id => (id, w.store)
    | none => metadataOf w.store root
  passes fuel (.plain (formatOf format) metadata) root 1 f.handlers { w with store := store }

end Filter

end

end DocTree
