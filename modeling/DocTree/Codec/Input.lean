import DocTree.Codec.Load
import DocTree.Json.Reader
import DocTree.Text.Encoding
/-!
Documents as text or bytes. Reading goes through three steps, bytes to text, text to JSON, JSON to a
tree, and each has faults of its own.
-/

namespace DocTree

inductive Input
  | text (t : Text)
  | bytes (bs : Bytes)

namespace Input

inductive Fault
  | encoding (fault : Encoding.DecodeFault)
  | json (source : Text) (fault : Json.ReadFault)
  | recursion
  | tree (fault : Codec.Fault)

/-- Whether a fault is reported as malformed input. A number that is too long, one that is out of
range, a compound tag outside every element, and what is too deep are not. -/
def Fault.isMalformed : Fault → Bool
  | encoding _ => true
  | json _ (.syntaxAt ..) => true
  | tree (.refused _) => true
  | _ => false

def Fault.message : Fault → Text
  | encoding fault => "Invalid JSON input: " ++ fault.message
  | json source (.syntaxAt complaint position) =>
    "Invalid JSON input: " ++ (Json.ReadFault.syntaxAt complaint position).message source
  | json source fault => fault.message source
  | recursion => Stack.message
  | tree fault => fault.message

def isEmpty : Input → Bool
  | text t => t.isEmpty
  | bytes bs => bs.isEmpty

def source : Input → Except Fault Text
  | text t => .ok t
  | bytes bs => (Encoding.decode bs).mapError .encoding

def json? : Input → Except Fault Json
  | text t => (Json.readText t).mapError (.json t)
  | bytes bs => do
    let t ← (bytes bs).source
    (Json.read t).mapError (.json t)

/-- The value that a text is parsed to, if there is room for it. -/
def content [Stack] (input : Input) : Except Fault Json := do
  if Stack.parses (← input.source) then input.json? else .error .recursion

section

variable [Versioning]

def read (options : Options) (input : Input) : Except Fault Tree := do
  let j ← input.json?
  (Codec.decode options j).mapError .tree

/-- Reads a tree into the store. -/
def load [Stack] (options : Options) (input : Input) (s : Store) : Except Fault (Root × Store) := do
  let j ← input.content
  (Codec.load options j s).mapError .tree

def acceptedVersion? [Stack] (options : Options) (input : Input) : Option Text := do
  Codec.acceptedVersion? options (← input.content.toOption)

end

end Input

end DocTree
