import DocTree.Walk.Basic
import DocTree.Codec.Input
import DocTree.Store.Transfer
/-!
A program that lists the headers of a document as a table of contents, each line indented by the level
of its header.
-/

namespace DocTree.Recipe

/-- The level and the text of a header, as the only result of the question about a node. -/
def headerEntry (fuel : Nat) (n : NodeId) : Effect Empty Unit (Walk.Answer (Int × Text)) := do
  let s ← Effect.store
  match s.element n with
  | .header level _ content => return .many [(level, Walk.plainText fuel s (.list content))]
  | _ => return .nothing

def headers (fuel : Nat) (s : Store) (root : Root) : List (Int × Text) :=
  match (Walk.query fuel (headerEntry fuel) root ⟨s, ()⟩).1 with
  | .ok entries => entries
  | .error _ => []

inductive IndentFault
  /-- The level is no number of spaces at all. -/
  | outOfRange
  | tooWide
  deriving DecidableEq, Repr

def IndentFault.message : IndentFault → Text
  | outOfRange => "cannot fit 'int' into an index-sized integer"
  | tooWide => []

/-- Numbers of spaces, with a sign, fit into 64 bits. -/
def indentRange : Int := 9223372036854775808

def widestIndent : Int := 4294967296

/-- A line of the table: two spaces for each level after the first, and none for levels before it. -/
def contentsLine (level : Int) (t : Text) : Except IndentFault Text :=
  let steps := level - 1
  if steps < -indentRange ∨ indentRange ≤ steps then .error .outOfRange
  else if widestIndent < steps then .error .tooWide
  else .ok (Text.copies steps.toNat "  " ++ "- " ++ t ++ "\n")

inductive ContentsEnd
  | exit (code : Nat)
  | input (fault : Input.Fault)
  | indent (fault : IndentFault)
  | encoding (fault : Encoding.EncodeFault)

structure Printout where
  output : Text
  messages : Text
  ending : ContentsEnd

/-- Prints lines one after the other, up to the first that cannot be printed. -/
def printLines : List (Int × Text) → Printout
  | [] => ⟨[], [], .exit 0⟩
  | (level, t) :: rest =>
    match contentsLine level t with
    | .error fault => ⟨[], [], .indent fault⟩
    | .ok line => match Encoding.encodeUtf8 line with
      | .error fault => ⟨[], [], .encoding fault⟩
      | .ok _ =>
        let after := printLines rest
        { after with output := line ++ after.output }

/-- The table of contents of a document. The options are the default ones, whatever the environment
says. -/
def printContents [Versioning] (fuel : Nat) (input : Input) : Printout :=
  match input.read .default with
  | .error fault =>
    if fault.isMalformed then ⟨[], "Error: " ++ fault.message ++ "\n", .exit 2⟩
    else ⟨[], [], .input fault⟩
  | .ok tree =>
    let (root, s) := Store.loadTree tree .empty
    printLines (headers fuel s root)

end DocTree.Recipe
