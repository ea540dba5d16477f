import DocTree.Command.Run
import DocTree.Outline.Branches
import DocTree.Recipe.Flatten
import DocTree.Version.Range
/-!
The program. It reads what the command needs from the files and streams around it, runs the command,
and writes down what the command has done.
-/

namespace DocTree.Program

/-- The steps after which a walk is given up. -/
def patience : Nat := 1000000000000

def catalogue : Catalogue (Action ActionFault Unit) where
  modules := [⟨"recipes", [
    ("flatten", .list Recipe.flattening),
    ("drop", Recipe.named "drop" Recipe.drop)]⟩]
  scripts := []
  inert := fun _ _ => Effect.fail (.wrongArguments "not an action")

def usage : String :=
  "usage: doctree [-h] [-o OUT] [-F FORMAT] [-f MODULE:ATTR] [--text | --outline] [--rich]\n" ++
  "               [--no-validate-api-version] [--log-level LEVEL] [--log-file LOG_FILE]\n" ++
  "               [--trace] [input]\n"

def environment : IO Environment := do
  let names := Settings.names.map Settings.variableOf ++ [Log.levelVariable]
  let found ← names.mapM fun name => return (name, ← IO.getEnv name.toString)
  return .ofTexts (found.filterMap fun (name, v) => v.map fun v => (name, Text.ofString v))

inductive Found
  | nothing
  | folder
  | file (content : Bytes)

def look (place : String) : IO Found := do
  try
    return .file (← IO.FS.readBinFile place).toList
  catch
    | .inappropriateType .. => return .folder
    | _ => return .nothing

def placeOf (p : Path) : Text := Path.toText "/" p

def explore (f : Folder) (t : Text) : IO Folder := do
  let mut here : Path := if Path.isAbsolute t then [] else f.home
  let mut f := f
  for step in Path.moves t do
    here := if step = ".." then here.dropLast else here ++ [step]
    match ← look (placeOf here).toString with
    | .nothing => pure ()
    | .folder => f := { f with folders := here :: f.folders }
    | .file content => f := f.put here content
  return f

def pathsOf (a : Command.Arguments) : List Text :=
  let references := (a.filters.filterMap Command.Given.name?).filterMap Filter.Reference.read?
  (if a.input = Command.standardInput then [] else [a.input]) ++
    (a.out.bind Command.Given.name?).toList ++
    ((a.logFile.bind Command.Given.name?).map Path.normal).toList ++ references.map (·.source)

def save (before after : Folder) : IO Unit := do
  for (path, content) in after.files do
    unless before.file? path = some content do
      IO.FS.writeBinFile (placeOf path).toString ⟨content.toArray⟩

def surroundings (a : Command.Arguments) : IO (Command.Desk Unit) := do
  let name := (← IO.getEnv "PWD").getD "/"
  let folder ← (pathsOf a).foldlM explore ⟨Path.moves (Text.ofString name), [], []⟩
  let input ← if a.input = Command.standardInput then
      pure (← (← IO.getStdin).readBinToEnd).toList
    else pure []
  return ⟨folder, input, [], [], ()⟩

def conclude : Command.Ending ActionFault Unit → String × Nat
  | .refused .help => ("", 0)
  | .refused (.usage fault) =>
    (usage ++ "doctree: error: " ++ fault.message.toString ++ "\n", Command.Refusal.exitCode (.usage fault))
  | .exit code => ("", code)
  | .broken b => ((b.message ActionFault.message).toString ++ "\n", 1)

def run (words : List String) : IO UInt32 := do
  let words := words.map Text.ofString
  let before ← match Command.Arguments.read words with
    | .ok a => surroundings a
    | .error _ => pure ⟨⟨[], [], []⟩, [], [], [], ()⟩
  let _ := Versioning.ofClauses
  let _ := Stack.unbounded
  let _ := Branches.drawing
  let (ending, desk) := Command.run patience catalogue (← environment) words before
  save before.folder desk.folder
  (← IO.getStdout).putStr desk.output.toString
  match ending with
  | .refused .help => (← IO.getStdout).putStr usage
  | _ => pure ()
  let (said, code) := conclude ending
  (← IO.getStderr).putStr (desk.messages.toString ++ said)
  return code.toUInt32

end DocTree.Program

def main (words : List String) : IO UInt32 := DocTree.Program.run words
