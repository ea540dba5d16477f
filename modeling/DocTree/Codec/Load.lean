import DocTree.Codec.Decode
import DocTree.Foreign
/-!
Decoding into the store. The decoder makes a new sequence for every list of children, a new mapping for
every object of them and a new element for every node, as it comes to the end of each.
-/

namespace DocTree.Codec

/-- Decoding that adds to the store what it decodes. -/
abbrev Loading := StateT Store Decoded

namespace Loading

def adding {α : Type} (x : Store.Adding α) : Loading α := fun s => pure (x s)

instance : Holding Loading NodeId SequenceId MappingId :=
  ⟨fun ns => adding (Store.newSequence ns), fun m => adding (Store.newMapping m)⟩

instance : Making Loading NodeId Root SequenceId MappingId :=
  ⟨fun e => adding (Store.newElement e), .node, .list⟩

end Loading

section

variable [Versioning]

def decodeInto (options : Options) (j : Json) : Loading Root := makeTree options j

/-- Decodes into the store what there is room for. -/
def load [Stack] (options : Options) (j : Json) : Loading Root :=
  if Stack.decodes j then decodeInto options j else throw .recursion

end

end DocTree.Codec
