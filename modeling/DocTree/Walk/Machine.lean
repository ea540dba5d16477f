import DocTree.Walk.Errand
import DocTree.Walk.Reply
/-!
Walking a tree depth first, with the open nodes on a stack of its own. Each member of a container is
offered to an action just before it would be visited; what the action returns takes its place, is
visited, and has its own children walked, but is not offered again. Actions may edit the tree, so a
container is read anew at every step, and what else is open below a node when its turn comes.
-/

namespace DocTree

/-- What actions can change: the tree, and a state of their own. -/
structure World (σ : Type) where
  store : Store
  state : σ

/-- What leaves a function instead of a result: an error of its own, the sign that there are no more items, or the
complaint that it was called with too few arguments. -/
inductive Thrown (ε : Type)
  | own (e : ε)
  | stop
  | arity
  deriving DecidableEq, Repr

/-- A computation on a world that may fail. After an error the world is as the error left it. -/
abbrev Trial (ε σ : Type) := ExceptT ε (StateM (World σ))

/-- What a function does to a world. -/
abbrev Effect (ε σ : Type) := Trial (Thrown ε) σ

section

variable {ε σ α : Type}

def Trial.run (x : Trial ε σ α) (w : World σ) : Except ε α × World σ := ExceptT.run x w

def Trial.ofFunction (f : World σ → Except ε α × World σ) : Trial ε σ α := f

namespace Effect

def fail (e : ε) : Effect ε σ α := throw (.own e)

def store : Effect ε σ Store := return (← get).store

def modifyStore (f : Store → Store) : Effect ε σ Unit :=
  modify fun w => { w with store := f w.store }

def add (x : StateM Store α) : Effect ε σ α :=
  .ofFunction fun w => let (a, s) := x w.store; (.ok a, { w with store := s })

def modifyState (f : σ → σ) : Effect ε σ Unit := modify fun w => { w with state := f w.state }

end Effect

end

namespace Walk

/-- A position in a container. `settled` are nodes that have their place and are still to be visited
before the next member is offered. The keys of a mapping are those it had at the beginning. -/
inductive Cursor
  | sequence (id : SequenceId) (index : Nat) (settled : List NodeId)
  | mapping (id : MappingId) (keys : List Text) (settled : List NodeId)
  deriving DecidableEq, Repr

def Cursor.enter (s : Store) : Container → Cursor
  | .sequence id => .sequence id 0 []
  | .mapping id => .mapping id (s.mapping id).keys []

/-- A node that is being walked: the container that is open, and what is to do after it. After the members of a
list at the root there is nothing. -/
structure Frame where
  errands : List Errand
  cursor : Option Cursor
  deriving DecidableEq, Repr

def Frame.below (id : NodeId) : Frame := ⟨[.node id], none⟩

def Frame.ofRoot : Root → Frame
  | .node id => below id
  | .list id => ⟨[], some (.sequence id 0 [])⟩

/-- What a walk does: `offer` is asked about each member, `visit` is told of each node that has its
place, with its depth. -/
structure Visitor (ε σ : Type) where
  offer : NodeId → Effect ε σ Reply
  visit : NodeId → Nat → Effect ε σ Unit

inductive Halt (ε : Type)
  | rejected (r : Rejection)
  | raised (e : Thrown ε)
  /-- An action said that there are no more items, which nobody may say inside the walk of a container. -/
  | stopped
  | unfinished
  deriving Repr

def Halt.ofOffer {ε : Type} : Thrown ε → Halt ε
  | .stop => .stopped
  | e => .raised e

section

variable {ε σ : Type}

def settleSequence (s : Store) (id : SequenceId) (index : Nat) (n : NodeId) :
    Option (List NodeId) → Cursor × Store
  | none => (.sequence id (index + 1) [n], s)
  | some ns => (.sequence id (index + ns.length) ns, s.splice id index ns)

def settleMapping (s : Store) (id : MappingId) (kind : Kind) (key : Text) (keys : List Text)
    (n : NodeId) : Option (List NodeId) → Except Rejection (Cursor × Store)
  | none => .ok (.mapping id keys [n], s)
  | some [] => .ok (.mapping id keys [], s.setMapping id ((s.mapping id).erase key))
  | some [m] => .ok (.mapping id keys [m], s.setMapping id ((s.mapping id).put key m))
  | some ns => .error (.tooMany kind key ns.length)

def offer (v : Visitor ε σ) (n : NodeId)
    (settle : Store → Option (List NodeId) → Except Rejection (Cursor × Store)) (w : World σ) :
    Except (Halt ε) Cursor × World σ :=
  let kind := (w.store.element n).kind
  match (v.offer n).run w with
  | (.error e, w) => (.error (.ofOffer e), w)
  | (.ok reply, w) =>
    match reply.replacement kind >>= settle w.store with
    | .error r => (.error (.rejected r), w)
    | .ok (cursor, s) => (.ok cursor, { w with store := s })

def visit (v : Visitor ε σ) (n : NodeId) (frame : Frame) (rest : List Frame) (w : World σ) :
    Except (Halt ε) (List Frame) × World σ :=
  match (v.visit n (rest.length + 1)).run w with
  | (.error e, w) => (.error (.raised e), w)
  | (.ok (), w) => (.ok (.below n :: frame :: rest), w)

/-- One step of the innermost frame: visit a settled node, offer the next member, or open the next
container. A frame with no container left is done. -/
def step (v : Visitor ε σ) (frame : Frame) (rest : List Frame) (w : World σ) :
    Except (Halt ε) (List Frame) × World σ :=
  let moveTo (c : Option Cursor) : List Frame := { frame with cursor := c } :: rest
  match frame.cursor with
  | none =>
    match Errand.resume w.store frame.errands with
    | none => (.ok rest, w)
    | some (container, errands) => (.ok (⟨errands, some (.enter w.store container)⟩ :: rest), w)
  | some (.sequence id index (n :: settled)) =>
    visit v n { frame with cursor := some (.sequence id index settled) } rest w
  | some (.mapping id keys (n :: settled)) =>
    visit v n { frame with cursor := some (.mapping id keys settled) } rest w
  | some (.sequence id index []) =>
    match (w.store.sequence id)[index]? with
    | none => (.ok (moveTo none), w)
    | some n =>
      let settle (s : Store) (ns : Option (List NodeId)) := Except.ok (settleSequence s id index n ns)
      let (result, w) := offer v n settle w
      (result.map fun c => moveTo (some c), w)
  | some (.mapping _ [] []) => (.ok (moveTo none), w)
  | some (.mapping id (key :: keys) []) =>
    match (w.store.mapping id).get? key with
    | none => (.ok (moveTo (some (.mapping id keys []))), w)
    | some n =>
      let kind := (w.store.element n).kind
      let settle (s : Store) := settleMapping s id kind key keys n
      let (result, w) := offer v n settle w
      (result.map fun c => moveTo (some c), w)

/-- Steps until no frame is left; `fuel` bounds their number. -/
def run (v : Visitor ε σ) : Nat → List Frame → World σ → Except (Halt ε) Unit × World σ
  | _, [], w => (.ok (), w)
  | 0, _ :: _, w => (.error .unfinished, w)
  | fuel + 1, frame :: rest, w =>
    match step v frame rest w with
    | (.error h, w) => (.error h, w)
    | (.ok stack, w) => run v fuel stack w

end

end Walk

end DocTree
