import DocTree.Pipe
/-!
A filter program that flattens a document: headers below the first level become emphasised paragraphs,
and superscripts and subscripts are dropped. An action that drops every emphasis that is offered to it and keeps
what it emphasises.
-/

namespace DocTree.Recipe

variable {σ : Type}

/-- A header below the first level becomes a paragraph with its content emphasised. The content is the
very sequence of the header. -/
def flatten (n : NodeId) : Action.Doing σ Reply := do
  if (← Action.levelOf n) < 2 then return .keep
  let emphasised ← Action.withContent .emph (← Action.contentOf n)
  let q ← Effect.add (Store.newSequence [emphasised])
  return .node (← Action.withContent .para q)

def drop (_ : NodeId) : Action.Doing σ Reply := return .several []

def named (name : Text) (f : NodeId → Action.Doing σ Reply) : Value (Action ActionFault σ) :=
  .handler (.plain ⟨"<action " ++ name ++ ">", "action", Action.ofNode name f⟩)

def flattening : List (Value (Action ActionFault σ)) :=
  [.text "Header", named "flatten" flatten, .text "Superscript|Subscript", named "drop" drop]

def flattener [Versioning] (words : List Text) (environment : Environment) : Pipe ActionFault σ where
  arguments := flattening
  words := words
  format := .null
  options := none
  environment := environment

/-- An emphasis gives way to the members of its content. Every other node is kept. -/
def unemph (n : NodeId) : Action.Doing σ Reply := do
  if (← Action.nameOf n) ≠ "Emph" then return .keep
  return .several (← Action.membersOf (← Action.contentOf n))

end DocTree.Recipe
