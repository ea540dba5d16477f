import DocTree.Json.Basic
/-!
The words of the command line. Options may stand before and after the name of the input; long ones may
be shortened as long as one is meant, and a value may be joined to its option. After a double dash
every word is a plain one.
-/

namespace DocTree.Command

inductive Switch
  | help
  | out
  | format
  | filter
  | text
  | outline
  | rich
  | anyVersion
  | logLevel
  | logFile
  | trace
  deriving DecidableEq, Repr

namespace Switch

def names : Mapping Switch := [
  ("-h", help), ("--help", help), ("-o", out), ("--out", out), ("-F", format), ("--format", format),
  ("-f", filter), ("--filter", filter), ("--text", text), ("--outline", outline), ("--rich", rich),
  ("--no-validate-api-version", anyVersion), ("--log-level", logLevel), ("--log-file", logFile),
  ("--trace", trace)]

def takesValue : Switch → Bool
  | out | format | filter | logLevel | logFile => true
  | _ => false

def shown (s : Switch) : Text :=
  Text.joinWith "/" ((names.filter fun (_, other) => other = s).map (·.1))

end Switch

inductive Form
  | json
  | text
  | outline
  deriving DecidableEq, Repr

/-- The value of an option. A double dash that is joined to an option is taken away and leaves no
value, which counts as an empty list. -/
inductive Given
  | text (t : Text)
  | nothing
  deriving DecidableEq, Repr

namespace Given

def toJson : Given → Json
  | text t => .str t
  | nothing => .arr []

def name? : Given → Option Text
  | text t => if t.isEmpty then none else some t
  | nothing => none

end Given

structure Arguments where
  input : Text
  out : Option Given
  format : Option Given
  filters : List Given
  form : Form
  rich : Bool
  anyVersion : Bool
  logLevel : Option Given
  logFile : Option Given
  /-- Whether log lines were asked to carry the time; they are written without it. -/
  trace : Bool
  deriving DecidableEq, Repr

def standardInput : Text := "-"

def Arguments.default : Arguments :=
  ⟨standardInput, none, none, [], .json, false, false, none, none, false⟩

inductive UsageFault
  | ambiguous (word : Text) (names : List Text)
  | missingValue (s : Switch)
  | needlessValue (s : Switch) (value : Text)
  | conflict (s other : Switch)
  | badChoice (s : Switch) (value : Given)
  | unknown (words : List Text)
  deriving DecidableEq, Repr

def levelChoices : List Text := ["DEBUG", "INFO", "WARNING", "ERROR"]

def UsageFault.message : UsageFault → Text
  | ambiguous word names =>
    "ambiguous option: " ++ word ++ " could match " ++ Text.joinWith ", " names
  | missingValue s => "argument " ++ s.shown ++ ": expected one argument"
  | needlessValue s value => "argument " ++ s.shown ++ ": ignored explicit argument " ++ value.quoted
  | conflict s other => "argument " ++ s.shown ++ ": not allowed with argument " ++ other.shown
  | badChoice s value =>
    "argument " ++ s.shown ++ ": invalid choice: " ++ value.toJson.display ++ " (choose from " ++
      Text.joinWith ", " (levelChoices.map Text.quoted) ++ ")"
  | unknown words => "unrecognized arguments: " ++ Text.joinWith " " words

/-- Why no arguments come out: help was asked for first, or something is wrong. -/
inductive Refusal
  | help
  | usage (fault : UsageFault)
  deriving DecidableEq, Repr

/-- How a word reads. An option has the name it was found under, and the text that is joined to it. -/
inductive Word
  | plain (t : Text)
  | divider
  | option (s : Switch) (name : Text) (joined : Option Text)
  | unknown (t : Text)
  deriving DecidableEq, Repr

def dash : CodePoint := CodePoint.ofChar '-'

def doubleDash : Text := "--"

def startsWith (start t : Text) : Bool := start.isPrefixOf t

/-- Whether all characters are digits, of any script. -/
def allDigits (t : Text) : Bool := t.all fun c => c.decimalValue?.isSome

/-- Whether a text, with at most a line end after it, is a negative number. -/
def isNegativeNumber (t : Text) : Bool :=
  let body := if t.getLast? = some (CodePoint.ofChar '\n') then t.dropLast else t
  match body with
  | [] => false
  | c :: digits =>
    c == dash && ((!digits.isEmpty && allDigits digits) ||
      match Text.cutFirst? (CodePoint.ofChar '.') digits with
      | some (whole, rest) => allDigits whole && !rest.isEmpty && allDigits rest
      | none => false)

def splitJoined (t : Text) : Text × Option Text :=
  match t.cutFirst? (CodePoint.ofChar '=') with
  | some (name, text) => (name, some text)
  | none => (t, none)

/-- The options that a word can mean: those with a shortened long name, or the one with a short name
that more is joined to. -/
def meanings (t : Text) : List (Text × Switch × Option Text) :=
  if startsWith doubleDash t then
    let (start, joined) := splitJoined t
    (Switch.names.filter fun (name, _) => startsWith start name).map fun (name, s) =>
      (name, s, joined)
  else
    (Switch.names.filter fun (name, _) => name = t.take 2).map fun (name, s) =>
      (name, s, some (t.drop 2))

def Word.named? (t : Text) : Option Word :=
  match Switch.names.get? t with
  | some s => some (.option s t none)
  | none =>
    let (name, joined) := splitJoined t
    if joined.isSome then (Switch.names.get? name).map (.option · name joined) else none

def Word.read (t : Text) : Except UsageFault Word :=
  if t.head? ≠ some dash ∨ t.length = 1 then .ok (.plain t)
  else match Word.named? t, meanings t with
    | some word, _ => .ok word
    | none, [(name, s, joined)] => .ok (.option s name joined)
    | none, [] =>
      if isNegativeNumber t ∨ t.contains (CodePoint.ofChar ' ') then .ok (.plain t)
      else .ok (.unknown t)
    | none, several => .error (.ambiguous t (several.map (·.1)))

/-- How the words read. Everything after the first double dash is plain. -/
def Word.readAll : List Text → Except UsageFault (List Word)
  | [] => .ok []
  | t :: rest =>
    if t = doubleDash then .ok (.divider :: rest.map .plain)
    else do return (← Word.read t) :: (← Word.readAll rest)

structure Reading where
  arguments : Arguments
  named : Bool
  extras : List Text
  deriving DecidableEq, Repr

def Reading.start : Reading := ⟨.default, false, []⟩

/-- Asks for a form, unless another option has asked for another one. -/
def chooseForm (a : Arguments) (s : Switch) (form : Form) : Except Refusal Arguments :=
  match a.form, form with
  | .text, .outline => .error (.usage (.conflict s .text))
  | .outline, .text => .error (.usage (.conflict s .outline))
  | _, _ => .ok { a with form := form }

/-- Whether a level can be chosen. No value is no choice, and cannot be a wrong one. -/
def isLevelChoice : Given → Bool
  | .text t => levelChoices.contains t
  | .nothing => true

def take (a : Arguments) (s : Switch) (value : Given) : Except Refusal Arguments :=
  match s with
  | .help => .error .help
  | .out => .ok { a with out := some value }
  | .format => .ok { a with format := some value }
  | .filter => .ok { a with filters := a.filters ++ [value] }
  | .text => chooseForm a s .text
  | .outline => chooseForm a s .outline
  | .rich => .ok { a with rich := true }
  | .anyVersion => .ok { a with anyVersion := true }
  | .logLevel =>
    if isLevelChoice value then .ok { a with logLevel := some value }
    else .error (.usage (.badChoice s value))
  | .logFile => .ok { a with logFile := some value }
  | .trace => .ok { a with trace := true }

def joinedValue (t : Text) : Given := if t = doubleDash then .nothing else .text t

/-- The options that an option with a text joined to it stands for, each with its value if that is
joined to it. Short options without values may be joined to one another, and the last of them to its
value. -/
def unjoin (isShort : Bool) (s : Switch) : Text → Except UsageFault (List (Switch × Option Given))
  | [] => if s.takesValue then .ok [(s, some (.text []))] else .error (.needlessValue s [])
  | c :: rest =>
    if s.takesValue then .ok [(s, some (joinedValue (c :: rest)))]
    else if !isShort then .error (.needlessValue s (c :: rest))
    else match Switch.names.get? [dash, c] with
      | none => .error (.needlessValue s (c :: rest))
      | some next =>
        if rest.isEmpty then .ok [(s, none), (next, none)]
        else (unjoin isShort next rest).map ((s, none) :: ·)

def optionsOf (s : Switch) (name : Text) :
    Option Text → Except UsageFault (List (Switch × Option Given))
  | none => .ok [(s, none)]
  | some joined => unjoin (!startsWith doubleDash name) s joined

def needy? (options : List (Switch × Option Given)) : Option Switch :=
  match options.getLast? with
  | some (s, none) => if s.takesValue then some s else none
  | _ => none

/-- Takes options in their order; `value` is for the one without a value of its own. -/
def takeAll (a : Arguments) (options : List (Switch × Option Given)) (value : Given) :
    Except Refusal Arguments :=
  options.foldlM (fun a (s, joined) => take a s (joined.getD value)) a

/-- Reads words one after the other. The first plain word names the input, and a double dash next to it
means nothing; every other one is too many. -/
def readWords : List Word → Reading → Except Refusal Reading
  | [], r => .ok r
  | .unknown t :: rest, r => readWords rest { r with extras := r.extras ++ [t] }
  | .divider :: rest, r =>
    readWords rest (if r.named then { r with extras := r.extras ++ [doubleDash] } else r)
  | .plain t :: .divider :: rest, ⟨a, false, extras⟩ =>
    readWords rest ⟨{ a with input := t }, true, extras⟩
  | .plain t :: rest, ⟨a, named, extras⟩ =>
    readWords rest (if named then ⟨a, true, extras ++ [t]⟩ else ⟨{ a with input := t }, true, extras⟩)
  | .option s name joined :: rest, r => do
    let options ← (optionsOf s name joined).mapError .usage
    match needy? options with
    | none => readWords rest { r with arguments := ← takeAll r.arguments options .nothing }
    | some s => match rest with
      | .plain value :: rest =>
        readWords rest { r with arguments := ← takeAll r.arguments options (.text value) }
      | _ => throw (.usage (.missingValue s))

def Arguments.read (words : List Text) : Except Refusal Arguments := do
  let words ← (Word.readAll words).mapError .usage
  let r ← readWords words .start
  if r.extras.isEmpty then return r.arguments else throw (.usage (.unknown r.extras))

end DocTree.Command
