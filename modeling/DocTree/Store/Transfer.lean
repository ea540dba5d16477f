import DocTree.Store.Basic
/-!
Trees into the store and out of it.
-/

namespace DocTree.Store

def loadSequence (members : List (Adding NodeId)) : Adding SequenceId := do
  newSequence (← members.mapM id)

def loadEntry (e : Text × Adding NodeId) : Adding (Text × NodeId) := do
  return (e.1, ← e.2)

def loadMapping (members : Mapping (Adding NodeId)) : Adding MappingId := do
  newMapping (← members.mapM loadEntry)

def loadShape (e : Element (List (Adding NodeId)) (Mapping (Adding NodeId))) : Adding NodeId := do
  newElement (← e.traverse .decoded loadSequence loadMapping)

def load (n : Node) : Adding NodeId := n.fold loadShape

def loadList (ns : List Node) : Adding SequenceId := do
  newSequence (← ns.mapM load)

def loadTree : Tree → Adding Root
  | .node n => .node <$> load n
  | .list ns => .list <$> loadList ns

def loadMetadata (m : Mapping Node) : Adding MappingId := do
  newMapping (← m.mapM fun (key, n) => return (key, ← load n))

def nodeWithin (s : Store) : Nat → NodeId → Node
  | 0, _ => .mk (.mark .null)
  | fuel + 1, id =>
    .mk ((s.element id).map (fun q => (s.sequence q).map (nodeWithin s fuel))
      (fun m => (s.mapping m).map fun (key, n) => (key, nodeWithin s fuel n)))

/-- The tree below a node. Without a cycle no path is longer than the number of elements. -/
def node (s : Store) (id : NodeId) : Node := s.nodeWithin (s.records.size + 1) id

def tree (s : Store) : Root → Tree
  | .node id => .node (s.node id)
  | .list id => .list ((s.sequence id).map s.node)

end DocTree.Store
