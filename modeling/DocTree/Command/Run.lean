import DocTree.Codec.Dump
import DocTree.Codec.Input
import DocTree.Command.Arguments
import DocTree.Command.Desk
import DocTree.Filter.Apply
import DocTree.Filter.Catalogue
import DocTree.Outline.Drawing
import DocTree.Pipe
/-!
The command. It settles its options and filters, reads a document, applies the filters, and writes the
document as JSON, as plain text or as an outline. Wrong configuration, unusable input and a filter that
answers wrongly are reported in the log, each with an exit code of its own; other faults break the
command off.
-/

namespace DocTree.Command

def success : Nat := 0
def transformError : Nat := 1
def inputError : Nat := 2
def configurationError : Nat := 3

inductive Breakdown (ε σ : Type)
  | loading (fault : Filter.LoadFault (Action ε σ))
  | noReference
  | input (fault : Input.Fault)
  | action (fault : Thrown ε)
  /-- An action said that there are no more items. -/
  | stopped
  | unfinished
  | file (fault : FileFault) (path : Text)
  | tree (fault : Codec.EncodeFault)
  | outline (fault : Outline.Fault)
  | drawing (fault : Foreign)
  /-- Output that has no bytes, and what else there is to say on it. -/
  | encoding (fault : Encoding.EncodeFault) (hint : Text)

def Breakdown.message {ε σ : Type} (ofAction : ε → Text) : Breakdown ε σ → Text
  | loading fault => fault.message
  | noReference =>
    "'" ++ Given.nothing.toJson.typeName ++ "' object has no attribute 'rpartition'"
  | input fault => fault.message
  | action fault => fault.message ofAction
  | stopped => "generator raised StopIteration"
  | unfinished => "the walk does not end"
  | file fault path => fault.message path
  | tree fault => fault.message
  | outline fault => fault.message
  | drawing fault => fault.message
  | encoding fault hint => fault.message ++ hint

/-- How a command ends: without having begun, with an exit code, or broken off. -/
inductive Ending (ε σ : Type)
  | refused (r : Refusal)
  | exit (code : Nat)
  | broken (b : Breakdown ε σ)

def Refusal.exitCode : Refusal → Nat
  | help => success
  | usage _ => 2

section

variable [Versioning] {ε σ : Type}

/-- What remains of a command after an early end is what it did before. -/
abbrev Running (ε σ : Type) := ExceptT (Ending ε σ) (StateM (Desk σ))

def note (log : Log) (level : Int) (message : Text) : Running ε σ Unit :=
  modify (·.note log level message)

def giveUp {α : Type} (log : Log) (message : Text) (code : Nat) : Running ε σ α := do
  note log Log.error message
  throw (.exit code)

def thresholdOf (env : Environment) (a : Arguments) : Int :=
  Log.weight (Log.resolve env ((a.logLevel.map Given.toJson).getD .null))

/-- Opens the log. The path of a log file ends at a null character, and a log file that cannot be opened
is only worth a warning. -/
def openLog (env : Environment) (a : Arguments) : Running ε σ Log := do
  let log : Log := ⟨thresholdOf env a, none⟩
  match a.logFile.bind Given.name? with
  | none => return log
  | some name =>
    let folder := (← get).folder
    let path := Path.upToNull (Path.normal (folder.absolute name))
    match folder.target path with
    | .error fault =>
      unless fault.isSystem do throw (.broken (.file fault path))
      note log Log.warning
        ("Could not open log file " ++ name ++ ": " ++ fault.message path)
      return log
    | .ok place =>
      let log : Log := ⟨log.threshold, some place⟩
      modify fun d => { d with folder := d.folder.append place [] }
      note log Log.debug ("Logging to file: " ++ name)
      return log

def Arguments.settings (a : Arguments) : Settings where
  format := a.format.map Given.toJson
  validate := if a.anyVersion then some (.bool false) else none
  supported := none
  ensureAscii := none

def settle (log : Log) (env : Environment) (a : Arguments) : Running ε σ Options := do
  for name in Settings.usedVariables env do
    note log Log.debug ("Using " ++ name ++ " from environment")
  match Options.ofEnvironment env a.settings with
  | .ok options => return options
  | .error fault => giveUp log fault.message configurationError

def loadFilter (log : Log) (c : Catalogue (Action ε σ)) :
    Given → Running ε σ (Text × Filter (Action ε σ))
  | .nothing => throw (.broken .noReference)
  | .text reference => do
    let (result, warnings) := (Filter.load c (← get).folder reference).run []
    for warning in warnings do note log Log.warning warning
    match result with
    | .ok f => return (reference, f)
    | .error fault =>
      if fault.isConfiguration then giveUp log fault.message configurationError
      else throw (.broken (.loading fault))

/-- The bytes of the input. Standard input can be read only once. -/
def readBytes (log : Log) (a : Arguments) : Running ε σ Bytes := do
  let d ← get
  if a.input = standardInput then
    set { d with input := ([] : Bytes) }
    return d.input
  else match d.folder.read a.input with
    | .ok bytes => return bytes
    | .error fault =>
      unless fault.isSystem do throw (.broken (.file fault a.input))
      giveUp log ("Cannot read " ++ a.input ++ ": " ++ fault.message a.input) inputError

/-- Reads the tree into a store of its own. -/
def readTree [Stack] (log : Log) (options : Options) (a : Arguments) : Running ε σ (Root × Store) := do
  let input := Input.bytes (← readBytes log a)
  if let some version := input.acceptedVersion? options then
    note log Log.debug ("Pandoc API version " ++ version ++ " accepted by " ++ options.supported.asText)
  match input.load options .empty with
  | .ok loaded => return loaded
  | .error fault =>
    if fault.isMalformed then giveUp log fault.message inputError
    else throw (.broken (.input fault))

def notePasses (log : Log) : Nat → List (Handler (Action ε σ)) → Running ε σ Unit
  | _, [] => return ()
  | number, h :: rest => do
    note log Log.debug ("Pass " ++ Text.ofNat number ++ ": " ++ h.shown)
    notePasses log (number + 1) rest

def begunPasses (f : Filter (Action ε σ)) : Except (Filter.Stop ε) Unit → List (Handler (Action ε σ))
  | .ok () => f.handlers
  | .error stop => f.handlers.take stop.pass

def applyFilter (fuel : Nat) (log : Log) (options : Options) (root : Root)
    (f : Filter (Action ε σ)) (s : Store) : Running ε σ Store := do
  note log Log.debug ("Applying " ++ Text.ofNat f.handlers.length ++ " action(s) with format " ++
    (Filter.formatOf options.format).display)
  let d ← get
  let (result, w) := f.apply fuel root options.format none ⟨s, d.state⟩
  set { d with state := w.state }
  notePasses log 1 (begunPasses f result)
  match result with
  | .ok () => return w.store
  | .error ⟨_, .rejected r⟩ => giveUp log r.message transformError
  | .error ⟨_, .raised fault⟩ => throw (.broken (.action fault))
  | .error ⟨_, .stopped⟩ => throw (.broken .stopped)
  | .error ⟨_, .unfinished⟩ => throw (.broken .unfinished)

def applyFilters (fuel : Nat) (log : Log) (options : Options) (root : Root) (count : Nat) :
    Nat → List (Text × Filter (Action ε σ)) → Store → Running ε σ Store
  | _, [], s => return s
  | number, (reference, f) :: rest, s => do
    note log Log.info ("Applying filter " ++ Text.ofNat number ++ "/" ++ Text.ofNat count ++ ": " ++
      reference)
    let s ← applyFilter fuel log options root f s
    applyFilters fuel log options root count (number + 1) rest s

/-- What is written piece by piece, and what breaks it off, if anything does. -/
abbrev Product (ε σ : Type) := List Text × Option (Breakdown ε σ)

def plainText (fuel : Nat) (root : Root) (s : Store) : Product ε σ :=
  if Walk.completes fuel s root then ([Walk.plainText fuel s root ++ "\n"], none) else ([], some .unfinished)

/-- The lines of an outline are written while the tree is being walked. -/
def outline (fuel : Nat) (root : Root) (s : Store) : Product ε σ :=
  let (lines, fault) := Outline.linesOf s (Walk.listing fuel s root)
  let unfinished := if Walk.completes fuel s root then none else some .unfinished
  (Outline.line 0 (Outline.rootLabel s root) :: lines, (fault.map .outline).or unfinished)

/-- A drawing is written when the whole tree has been walked. -/
def drawing [Drawing] (fuel : Nat) (root : Root) (s : Store) : Product ε σ :=
  match (Outline.sketch s (Outline.rootLabel s root) (Walk.listing fuel s root)).run Drawing.blank with
  | (.error fault, _) => ([], some (.outline fault))
  | (.ok (top, _), canvas) =>
    if Walk.completes fuel s root then
      let (ts, fault) := Drawing.print canvas top
      (ts, fault.map .drawing)
    else ([], some .unfinished)

def json [Stack] (options : Options) (root : Root) (s : Store) : Product ε σ :=
  match Codec.dump s root with
  | .ok j => ([j.write options.writesAscii ++ "\n"], none)
  | .error fault => ([], some (.tree fault))

def pieces [Stack] [Drawing] (fuel : Nat) (options : Options) (a : Arguments) (root : Root) (s : Store) :
    Product ε σ :=
  match a.form with
  | .text => plainText fuel root s
  | .outline => if a.rich then drawing fuel root s else outline fuel root s
  | .json => json options root s

def hintFor [Drawing] (a : Arguments) : Text := if a.form = .outline ∧ a.rich then Drawing.hint else []

/-- Where the output goes. A file is emptied before anything is written to it. -/
def openSink (a : Arguments) : Running ε σ Sink := do
  match a.out.bind Given.name? with
  | none => return .standard
  | some name =>
    let d ← get
    match d.folder.target name with
    | .error fault => throw (.broken (.file fault name))
    | .ok place =>
      set { d with folder := d.folder.put place [] }
      return .file place

def writePieces (sink : Sink) (hint : Text) (ts : List Text) : Running ε σ Unit := do
  let (written, fault) := Encoding.encodable ts
  modify (·.write sink written)
  match fault with
  | none => return ()
  | some fault => throw (.broken (.encoding fault hint))

def writeTree [Stack] [Drawing] (fuel : Nat) (options : Options) (a : Arguments) (root : Root) (s : Store) :
    Running ε σ Unit := do
  let sink ← openSink a
  let (ts, broken) := pieces fuel options a root s
  writePieces sink (hintFor a) ts
  match broken with
  | none => return ()
  | some b => throw (.broken b)

def perform [Stack] [Drawing] (fuel : Nat) (c : Catalogue (Action ε σ)) (env : Environment) (a : Arguments) :
    Running ε σ Unit := do
  let log ← openLog env a
  let options ← settle log env a
  let filters ← a.filters.mapM (loadFilter log c)
  let (root, s) ← readTree log options a
  let s ← applyFilters fuel log options root filters.length 1 filters s
  writeTree fuel options a root s

/-- How the command ends for the words of a command line, and what it leaves. -/
def run [Stack] [Drawing] (fuel : Nat) (c : Catalogue (Action ε σ)) (env : Environment) (words : List Text)
    (d : Desk σ) : Ending ε σ × Desk σ :=
  match Arguments.read words with
  | .error r => (.refused r, d)
  | .ok a => match (perform fuel c env a).run d with
    | (.ok (), d) => (.exit success, d)
    | (.error ending, d) => (ending, d)

end

end DocTree.Command
