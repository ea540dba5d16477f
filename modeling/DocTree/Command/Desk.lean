import DocTree.Folder
import DocTree.Log.Level
/-!
What a command works with: the files around it, the standard streams, and a log. A message of the log
goes to standard error and to the log file, if it weighs enough.
-/

namespace DocTree.Command

/-- The surroundings of a command; `state` belongs to the actions of its filters. -/
structure Desk (σ : Type) where
  folder : Folder
  input : Bytes
  output : Text
  messages : Text
  state : σ

structure Log where
  threshold : Int
  file : Option Path

inductive Sink
  | standard
  | file (path : Path)

namespace Desk

variable {σ : Type}

def write (sink : Sink) (t : Text) (d : Desk σ) : Desk σ :=
  match sink with
  | .standard => { d with output := d.output ++ t }
  | .file path =>
    { d with folder := d.folder.append path ((Encoding.encodeUtf8 t).toOption.getD []) }

def logLine (level : Int) (message : Text) : Text :=
  let name : Text :=
    if level = Log.debug then "DEBUG" else if level = Log.info then "INFO"
    else if level = Log.warning then "WARNING" else "ERROR"
  name ++ ": " ++ message ++ "\n"

def note (log : Log) (level : Int) (message : Text) (d : Desk σ) : Desk σ :=
  if level < log.threshold then d
  else
    let line := logLine level message
    let d := { d with messages := d.messages ++ line }
    match log.file with
    | none => d
    | some path => d.write (.file path) line

end Desk

end DocTree.Command
