import DocTree.Foreign
/-!
Options for reading, filtering and writing documents. Every option has a default, may come from the
environment, and may be given outright; what is given wins. The value of an option is kept as it was
given, whatever its type, and only its use decides what it means.
-/

namespace DocTree

/-- The variables of an environment. A program finds texts in its own. -/
abbrev Environment := Mapping Json

def Environment.ofTexts (m : Mapping Text) : Environment := m.map fun (name, t) => (name, .str t)

def Environment.value? (env : Environment) (name : Text) : Option Json :=
  match env.get? name with
  | some .null => none
  | other => other

structure Settings where
  format : Option Json
  validate : Option Json
  supported : Option Json
  ensureAscii : Option Json

inductive OptionsFault
  | unknownName (name : Text)
  | settledName (function name : Text)
  /-- A switch of the environment that is no text. -/
  | notWord (typeName : Text)
  | invalidRange (text : Text)
  | library (fault : Foreign)
  deriving DecidableEq, Repr

def OptionsFault.message : OptionsFault → Text
  | unknownName name =>
    "WalkOptions.__init__() got an unexpected keyword argument " ++ name.quoted
  | settledName function name =>
    function ++ "() got multiple values for argument " ++ name.quoted
  | notWord typeName => "'" ++ typeName ++ "' object has no attribute 'strip'"
  | invalidRange text => "Invalid supported_api_versions specifier: " ++ text.quoted
  | library fault => fault.message

namespace Settings

def none : Settings := ⟨.none, .none, .none, .none⟩

def withFallback (given fallback : Settings) : Settings :=
  ⟨given.format.or fallback.format, given.validate.or fallback.validate,
    given.supported.or fallback.supported, given.ensureAscii.or fallback.ensureAscii⟩

def names : List Text := ["format", "validate_api_version", "supported_api_versions", "ensure_ascii"]

def variableStart : Text := "PANWALK_"

def variableOf (name : Text) : Text := variableStart ++ name.map CodePoint.toUpperAscii

/-- The words that switch an option on; every other text switches it off. -/
def isYes (t : Text) : Bool :=
  ([("true" : Text), "1", "yes", "on"]).contains (t.trim (·.isBlank)).toLowerAscii

def switchOf : Option Json → Except OptionsFault (Option Json)
  | .none => .ok .none
  | some (.str t) => .ok (some (.bool (isYes t)))
  | some j => .error (.notWord j.typeName)

/-- What the environment says. A variable that is set to the empty text is still set. -/
def ofEnvironment (env : Environment) : Except OptionsFault Settings := do
  let validate ← switchOf (env.value? (variableOf "validate_api_version"))
  let ensureAscii ← switchOf (env.value? (variableOf "ensure_ascii"))
  return ⟨env.value? (variableOf "format"), validate,
    env.value? (variableOf "supported_api_versions"), ensureAscii⟩

def usedVariables (env : Environment) : List Text :=
  (names.map variableOf).filter fun name => (env.value? name).isSome

def unsettled (function : Text) (settled : List Text) (members : Mapping Json) :
    Except OptionsFault Unit :=
  match members.keys.find? (settled.contains ·) with
  | some name => .error (.settledName function name)
  | .none => .ok ()

def ofMembers (members : Mapping Json) : Except OptionsFault Settings :=
  match members.keys.find? (!names.contains ·) with
  | some name => .error (if name = "self" then .settledName "WalkOptions.__init__" name
      else .unknownName name)
  | .none => .ok ⟨members.get? "format", members.get? "validate_api_version",
      members.get? "supported_api_versions", members.get? "ensure_ascii"⟩

def ofChanges (members : Mapping Json) : Except OptionsFault Settings := do
  unsettled "CloneFrozenMixin.create_updated" ["self"] members
  ofMembers members

def given (members : Mapping Json) : Mapping Json :=
  members.filter fun (_, j) => match j with
    | .null => false
    | _ => true

end Settings

section

variable [Versioning]

def Options.readRange : Json → Except OptionsFault Versioning.Range
  | .str t => match Versioning.range? t with
    | some range => .ok range
    | none => .error (.invalidRange t)
  | j => (Versioning.rangeOf j).mapError .library

/-- A full set of options. The range of versions is kept as it was given and as it reads. -/
structure Options where
  format : Json
  validate : Json
  supported : Json
  range : Versioning.Range
  ensureAscii : Json
  reads : Options.readRange supported = .ok range

namespace Options

def ofSettings (s : Settings) : Except OptionsFault Options :=
  let supported := s.supported.getD (.str defaultSupported)
  match reads : readRange supported with
  | .ok range => .ok ⟨s.format.getD (.str []), s.validate.getD (.bool true), supported, range,
      s.ensureAscii.getD (.bool false), reads⟩
  | .error fault => .error fault

def default : Options :=
  ⟨.str [], .bool true, .str defaultSupported, Versioning.usual, .bool false, by
    rw [readRange, Versioning.reads_usual]⟩

def settings (o : Options) : Settings :=
  ⟨some o.format, some o.validate, some o.supported, some o.ensureAscii⟩

def update (o : Options) (s : Settings) : Except OptionsFault Options := ofSettings (s.withFallback o.settings)

def ofEnvironment (env : Environment) (given : Settings) : Except OptionsFault Options := do
  let fallback ← Settings.ofEnvironment env
  ofSettings (given.withFallback fallback)

/-- What is given by name, and the environment for the rest. A name without a value says nothing. -/
def ofOverrides (env : Environment) (members : Mapping Json) : Except OptionsFault Options := do
  Settings.unsettled "WalkOptions.from_env" ["cls", "environ"] members
  let fallback ← Settings.ofEnvironment env
  let given ← Settings.ofMembers (Settings.given members)
  ofSettings (given.withFallback fallback)

def validates (o : Options) : Bool := o.validate.isTrue

def writesAscii (o : Options) : Bool := o.ensureAscii.isTrue

end Options

end

end DocTree
