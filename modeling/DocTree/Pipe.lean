import DocTree.Action.Basic
import DocTree.Codec.Dump
import DocTree.Codec.Input
import DocTree.Filter.Build
import DocTree.Json.Writer
/-!
Filter programs. Such a program reads one document, applies a filter to it, and writes it as one line.
The options and the filter are settled before the input is opened, and the line is complete before
any of it is written.
-/

namespace DocTree

inductive Output
  | text
  /-- Takes text, and turns it into bytes of UTF-8 by itself. -/
  | utf8
  | bytes
  deriving DecidableEq, Repr

inductive Chunk
  | text (t : Text)
  | bytes (bs : Bytes)
  deriving DecidableEq, Repr

def Codec.line [Versioning] (options : Options) (tree : Tree) : Except Codec.EncodeFault Text := do
  let j ← Codec.encode tree
  return j.write options.writesAscii ++ "\n"

/-- The program: the arguments that its filter is made from, the words of its command line, and the
format and options it was given outright, if it was. -/
structure Pipe [Versioning] (ε σ : Type) where
  arguments : List (Value (Action ε σ))
  words : List Text
  format : Json
  options : Option Options
  environment : Environment

namespace Pipe

inductive Fault (ε σ : Type)
  | options (fault : OptionsFault)
  | filter (fault : Filter.Fault (Action ε σ))
  | input (fault : Input.Fault)
  | walk (halt : Walk.Halt ε)
  | tree (fault : Codec.EncodeFault)
  | encoding (fault : Encoding.EncodeFault)

structure Progress (σ : Type) where
  warnings : List Text
  opened : Bool
  world : World σ
  written : List Chunk

def Progress.ofState {σ : Type} (state : σ) : Progress σ := ⟨[], false, ⟨.empty, state⟩, []⟩

section

variable [Versioning] {ε σ : Type}

/-- A run keeps its progress when it fails. -/
abbrev Running (ε σ : Type) := ExceptT (Fault ε σ) (StateM (Progress σ))

def settledOptions (p : Pipe ε σ) : Except OptionsFault Options :=
  match p.options with
  | some options => .ok options
  | none => Options.ofEnvironment p.environment .none

/-- The format that was given, the first word of the command line, or that of the options. -/
def settledFormat (p : Pipe ε σ) (options : Options) : Json :=
  match p.format, p.words with
  | .null, word :: _ => .str word
  | .null, [] => options.format
  | format, _ => format

def running {α : Type} (r : Except (Fault ε σ) α) : Running ε σ α := ExceptT.mk (return r)

def build (p : Pipe ε σ) : Running ε σ (Filter (Action ε σ)) := fun progress =>
  let (result, warnings) := (Filter.ofArguments p.arguments).run progress.warnings
  (result.mapError .filter, { progress with warnings := warnings })

def readTree [Stack] (options : Options) (input : Input) : Running ε σ Root := do
  modify fun progress => { progress with opened := true }
  let (root, store) ← running ((input.load options (← get).world.store).mapError .input)
  modify fun progress => { progress with world := { progress.world with store := store } }
  return root

def filterTree (fuel : Nat) (f : Filter (Action ε σ)) (root : Root) (format : Json) :
    Running ε σ Unit := fun progress =>
  let (result, world) := f.apply fuel root format none progress.world
  (result.mapError (.walk ·.halt), { progress with world := world })

def walkUnder [Stack] (fuel : Nat) (p : Pipe ε σ) (options : Options) (input : Input) :
    Running ε σ Root := do
  let f ← p.build
  let root ← readTree options input
  filterTree fuel f root (p.settledFormat options)
  return root

def walk [Stack] (fuel : Nat) (p : Pipe ε σ) (input : Input) : Running ε σ Root := do
  walkUnder fuel p (← running (p.settledOptions.mapError .options)) input

/-- What an output is given for a text: all of it, or nothing if it has no bytes and they are needed. -/
def deliver (output : Output) (t : Text) : Except Encoding.EncodeFault Chunk :=
  match output with
  | .text => .ok (.text t)
  | .utf8 => do
    let _ ← Encoding.encodeUtf8 t
    return .text t
  | .bytes => return .bytes (← Encoding.encodeUtf8 t)

def write (options : Options) (output : Output) (root : Root) : Running ε σ Text := do
  let tree := (← get).world.store.tree root
  let line ← running ((Codec.line options tree).mapError .tree)
  let chunk ← running ((deliver output line).mapError .encoding)
  modify fun progress => { progress with written := progress.written ++ [chunk] }
  return line

/-- Writes a tree that can be dumped, and nothing of any other. -/
def send [Stack] (options : Options) (output : Output) (root : Root) : Running ε σ Text := do
  let _ ← running ((Codec.dump (← get).world.store root).mapError .tree)
  write options output root

def filter [Stack] (fuel : Nat) (p : Pipe ε σ) (input : Input) (output : Output) : Running ε σ Text := do
  let options ← running (p.settledOptions.mapError .options)
  let root ← walkUnder fuel p options input
  send options output root

end

end Pipe

end DocTree
