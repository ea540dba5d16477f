import DocTree.Store.Basic
/-!
What the program stands on and does not decide. The parser, the decoder and the encoder recur, and each of them
fails on what goes too deep; how deep that is depends on the machine. What texts stand for versions and for
ranges of them, and which versions a range has, is up to a library. Nothing is known of either here, but that
the library reads the range that is the usual one.
-/

namespace DocTree

/-- An error of a library: the name of its type, and its message. -/
structure Foreign where
  typeName : Text
  message : Text
  deriving DecidableEq, Repr

/-- Which texts, values and trees there is room for. -/
class Stack where
  parses : Text → Bool
  decodes : Json → Bool
  encodes : Store → Root → Bool

def Stack.message : Text := "maximum recursion depth exceeded"

/-- A stack that nothing is too deep for. -/
@[reducible] def Stack.unbounded : Stack := ⟨fun _ => true, fun _ => true, fun _ _ => true⟩

/-- A stack with room for values up to a depth. -/
@[reducible] def Stack.ofDepth (depth : Nat) : Stack := ⟨fun _ => true, fun j => j.height ≤ depth, fun _ _ => true⟩

def Options.defaultSupported : Text := ">=1.21,<1.24"

/-- A library of versions. -/
class Versioning where
  Range : Type
  Version : Type
  /-- The range that a text stands for, if it stands for one. -/
  range? : Text → Option Range
  /-- What becomes of a value that is no text where a range is asked for. -/
  rangeOf : Json → Except Foreign Range
  version? : Text → Option Version
  contains : Range → Version → Except Foreign Bool
  usual : Range
  reads_usual : range? Options.defaultSupported = some usual

end DocTree
