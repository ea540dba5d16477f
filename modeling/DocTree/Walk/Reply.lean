import DocTree.Store.Basic
/-!
What an action may answer when a node is offered to it, and what is wrong with an answer that a walk
cannot use.
-/

namespace DocTree

/-- A member of a list that an action returns; anything but a node is known by its type only. -/
inductive Member
  | node (id : NodeId)
  | other (typeName : Text)
  deriving DecidableEq, Repr

/-- The answer of an action: keep the node, put one node or several in its place, or something that
means nothing to a walk. -/
inductive Reply
  | keep
  | node (id : NodeId)
  | several (members : List Member)
  | other (typeName : Text)
  /-- The node could not be asked for its name. -/
  | nameless
  deriving DecidableEq, Repr

inductive Rejection
  | notNodes (kind : Kind) (typeName : Text)
  | badMember (kind : Kind) (typeName : Text)
  /-- A value of a mapping has room for one node only. -/
  | tooMany (kind : Kind) (key : Text) (count : Nat)
  /-- Only lists have no name. -/
  | nameless (kind : Kind)
  deriving DecidableEq, Repr

namespace Rejection

def kind : Rejection → Kind
  | notNodes kind _ | badMember kind _ | tooMany kind _ _ | nameless kind => kind

def message : Rejection → Text
  | notNodes kind typeName =>
    "Action for " ++ kind.name ++ " returned " ++ typeName ++
      "; expected None, a node, or a list of nodes"
  | badMember kind typeName =>
    "Action for " ++ kind.name ++ " returned a list containing " ++ typeName ++
      "; lists may only contain nodes"
  | tooMany kind key count =>
    "Action for " ++ kind.name ++ " under metadata key " ++ key.quoted ++ " returned " ++
      Text.ofNat count ++ " nodes; a metadata value can only be replaced by a single node"
  | nameless kind => "'" ++ kind.typeName ++ "' object has no attribute 'name'"

end Rejection

namespace Reply

/-- The nodes of a list; the first member that is none spoils it. -/
def nodesOf (kind : Kind) : List Member → Except Rejection (List NodeId)
  | [] => .ok []
  | .node id :: rest => (nodesOf kind rest).map (id :: ·)
  | .other typeName :: _ => .error (.badMember kind typeName)

/-- The nodes that take the place of a node of the given kind; none if it is kept. -/
def replacement (kind : Kind) : Reply → Except Rejection (Option (List NodeId))
  | keep => .ok none
  | node id => .ok (some [id])
  | several members => (nodesOf kind members).map some
  | other typeName => .error (.notNodes kind typeName)
  | nameless => .error (.nameless kind)

end Reply

end DocTree
