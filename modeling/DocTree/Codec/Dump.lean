import DocTree.Codec.Encode
import DocTree.Foreign
import DocTree.Json.Writer
/-!
From the store to JSON. What is in the store need not be a tree: an element may be below itself, and then
the encoder never comes to an end, so that no stack has room for it.
-/

namespace DocTree

namespace Store

/-- Encodes what is below a node, if no path there has more elements than the fuel. -/
def encodeWithin (s : Store) : Nat → NodeId → Codec.Encoded Json
  | 0, _ => .error .recursion
  | fuel + 1, id =>
    Codec.encodeShape ((s.element id).map (fun q => (s.sequence q).map (s.encodeWithin fuel))
      fun m => (s.mapping m).map fun (key, n) => (key, s.encodeWithin fuel n))

/-- A path with more elements than there are goes round in a circle. -/
def encodeFrom (s : Store) : Root → Codec.Encoded Json
  | .node id => match s.element id with
    | .document version metadata blocks => do
      let below := s.encodeWithin s.records.size
      let metadata ← Codec.entriesOfEncoded ((s.mapping metadata).map fun (key, n) => (key, below n))
      let blocks ← (s.sequence blocks).mapM below
      return Codec.documentJson version metadata blocks
    | _ => s.encodeWithin (s.records.size + 1) id
  | .list id => .arr <$> (s.sequence id).mapM (s.encodeWithin (s.records.size + 1))

end Store

namespace Codec

/-- The value that a tree is written as. A number may have too many digits to be written. -/
def dump [Stack] (s : Store) (root : Root) : Encoded Json := do
  unless Stack.encodes s root do throw .recursion
  let j ← s.encodeFrom root
  unless j.isPrintable do throw .unprintable
  return j

end Codec

end DocTree
