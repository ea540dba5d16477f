import DocTree.Outline.Branches
import DocTree.Proofs.Codec.Malformed
import DocTree.Proofs.Command.Parts
import DocTree.Proofs.Store.Dump
import DocTree.Proofs.Store.Proper
import DocTree.Version.Range
/-!
How a command ends that has no filters and writes JSON. Wrong options and input that is unusable have
exit codes of their own. What breaks such a command off is a text that is no path, a file that cannot be
opened for the output, a stack without room for the tree, or output that has no bytes.
-/

namespace DocTree.Command

variable {ε σ : Type}

theorem note_never_fails (log : Log) (level : Int) (message : Text) :
    FailsBy (fun _ => False) (note log level message : Running ε σ Unit) := by
  intro d ending d' failed
  cases congrArg (·.1) failed

section

variable [Versioning]

/-- The first part of a command, up to its options. -/
def configure (env : Environment) (a : Arguments) : Running ε σ (Log × Options) := do
  let log ← openLog env a
  let options ← settle log env a
  return (log, options)

section

variable (env : Environment) (a : Arguments) (d : Desk σ)

theorem settle_result (log : Log) : ((settle log env a : Running ε σ Options).run d).1 =
    match Options.ofEnvironment env a.settings with
    | .ok options => .ok options
    | .error _ => .error (.exit configurationError) := by
  unfold settle
  refine FailsBy.result (.forIn (fun name _ => ?_) _ _) (fun _ d => ?_) d
  · exact (note_never_fails _ _ _).bind fun _ => .pure _
  · cases Options.ofEnvironment env a.settings <;> rfl

theorem configure_seen : ((configure env a : Running ε σ (Log × Options)).run d).2.seen
    (a.logPlaces d.folder) = d.seen (a.logPlaces d.folder) := by
  refine openLog_bind_seen (fun log => ?_) d
  exact (settle_keeps (note_discreet log) env a).bind fun options => .pure _

theorem configure_input : ((configure env a : Running ε σ (Log × Options)).run d).2.input = d.input := by
  have settled (log : Log) : Keeps Desk.input (settle log env a >>= fun options => return (log, options) :
      Running ε σ (Log × Options)) := by
    refine Keeps.bind ?_ fun options => .pure _
    exact settle_keeps (fun level message d => d.note_input log level message) env a
  rw [configure, run_bind]
  rcases openLog_cases env a d with ⟨path, fault, -, -, ran⟩ | ⟨log, d', ran, -, -, input, -⟩
  · rw [ran]
  · rw [ran]
    exact (settled log d').trans input

/-- Configuration ends in options, in the exit code for wrong ones, or at a log file whose path is none. -/
theorem configure_cases :
    (∃ path fault, a.logPath? d.folder = some path ∧ ¬Path.Possible path ∧
      ((configure env a : Running ε σ (Log × Options)).run d).1 = .error (.broken (.file fault path))) ∨
    ((∀ path, a.logPath? d.folder = some path → Path.Possible path) ∧
      match Options.ofEnvironment env a.settings with
      | .ok options => ∃ log, ((configure env a : Running ε σ (Log × Options)).run d).1 = .ok (log, options)
      | .error _ =>
        ((configure env a : Running ε σ (Log × Options)).run d).1 = .error (.exit configurationError)) := by
  rcases openLog_cases env a d with ⟨path, fault, isPath, noPath, ran⟩ | ⟨log, d', ran, possible, -, -, -⟩
  · refine .inl ⟨path, fault, isPath, noPath, ?_⟩
    rw [configure, run_bind, ran]
  · refine .inr ⟨possible, ?_⟩
    have settled : ((settle log env a : Running ε σ Options).run d').1 = _ := settle_result env a d' log
    rw [configure, run_bind, ran]
    dsimp only
    rw [run_bind]
    cases done : (settle log env a : Running ε σ Options).run d' with
    | mk result d'' =>
      rw [done] at settled
      dsimp only at settled
      rw [settled]
      cases Options.ofEnvironment env a.settings with
      | ok options => exact ⟨log, rfl⟩
      | error fault => rfl

end

end

def Arguments.bytes (a : Arguments) (d : Desk σ) : Except FileFault Bytes :=
  if a.input = standardInput then .ok d.input else d.folder.read a.input

theorem readBytes_result (log : Log) (a : Arguments) (d : Desk σ) :
    ((readBytes log a : Running ε σ Bytes).run d).1 =
    match a.bytes d with
    | .ok bytes => .ok bytes
    | .error fault => .error (if fault.isSystem then .exit inputError else .broken (.file fault a.input)) := by
  unfold readBytes Arguments.bytes
  rw [run_bind]
  change ((if a.input = standardInput then _ else _ : Running ε σ Bytes).run d).1 = _
  split
  · rfl
  · cases d.folder.read a.input with
    | ok bytes => rfl
    | error fault =>
      dsimp only
      cases fault.isSystem <;> rfl

theorem bytes_error {a : Arguments} {d : Desk σ} {fault : FileFault} (given : a.bytes d = .error fault) :
    a.input ≠ standardInput ∧ (fault.isSystem = true ↔ Path.Possible a.input) := by
  unfold Arguments.bytes at given
  split at given
  · cases given
  · next named => exact ⟨named, (d.folder.judges_read a.input).error fault given⟩

section

variable [Versioning] [Stack]

/-- The input can be read, and is a document that the options let through. -/
def Arguments.Readable (a : Arguments) (options : Options) (d : Desk σ) : Prop :=
  ∃ bytes result, a.bytes d = .ok bytes ∧ (Input.bytes bytes).load options .empty = .ok result

section

variable (log : Log) (options : Options) (a : Arguments) (d : Desk σ)

theorem loaded_result (input : Input) : ((loaded log options input : Running ε σ (Root × Store)).run d).1 =
    match input.load options .empty with
    | .ok result => .ok result
    | .error fault => .error (if fault.isMalformed then .exit inputError else .broken (.input fault)) := by
  unfold loaded
  cases input.load options .empty with
  | ok result => rfl
  | error fault =>
    dsimp only
    cases fault.isMalformed <;> rfl

theorem readTree_result : ((readTree log options a : Running ε σ (Root × Store)).run d).1 =
    match a.bytes d with
    | .ok bytes => match (Input.bytes bytes).load options .empty with
      | .ok result => .ok result
      | .error fault => .error (if fault.isMalformed then .exit inputError else .broken (.input fault))
    | .error fault => .error (if fault.isSystem then .exit inputError else .broken (.file fault a.input)) := by
  have bytesRead : ((readBytes log a : Running ε σ Bytes).run d).1 = _ := readBytes_result log a d
  rw [readTree, run_bind]
  cases done : (readBytes log a : Running ε σ Bytes).run d with
  | mk result d' =>
    rw [done] at bytesRead
    dsimp only at bytesRead
    rw [bytesRead]
    cases a.bytes d with
    | error fault => rfl
    | ok bytes =>
      dsimp only
      split
      · exact FailsBy.result (note_never_fails _ _ _) (fun _ d => loaded_result log options d _) d'
      · exact loaded_result log options d' _

end

/-- A tree that has been loaded is written as some value, if there is room for it. -/
theorem dump_loaded {options : Options} {input : Input} {root : Root} {s : Store}
    (isLoaded : input.load options .empty = .ok (root, s)) :
    ∃ j, Codec.dump s root = if Stack.encodes s root then .ok j else .error .recursion := by
  obtain ⟨_, t, isJson, decoded, same⟩ := Input.load_ok isLoaded
  have proper := Codec.decode_proper decoded
  have stored := Store.loadTree_proper proper .empty
  have read := (Store.loadTree_read proper .empty (.refl _)).1
  rw [same] at stored read
  have encoded : s.encodeFrom root = .ok (Codec.treeJson t) := by
    rw [Store.encodeFrom_eq stored.acyclic, read, Codec.encode_eq proper]
  have printable : (Codec.treeJson t).isPrintable = true :=
    Codec.decode_printable (Input.content_printable isJson) decoded
  refine ⟨Codec.treeJson t, ?_⟩
  rw [Codec.dump_eq, encoded]
  change (if Stack.encodes s root then if (Codec.treeJson t).isPrintable then _ else _ else _) = _
  simp only [printable, if_true]

variable [Drawing]

/-- What comes of writing a tree as JSON. -/
def jsonWritten (options : Options) (root : Root) (s : Store) : Except (Ending ε σ) Unit :=
  match Codec.dump s root with
  | .error fault => .error (.broken (.tree fault))
  | .ok j => match Encoding.encodeUtf8 (j.write options.writesAscii ++ "\n") with
    | .ok _ => .ok ()
    | .error fault => .error (.broken (.encoding fault []))

theorem writeTree_result {fuel : Nat} {options : Options} {a : Arguments} (json : a.form = .json) {root : Root}
    {s : Store} (d : Desk σ) :
    (∃ name fault, a.out.bind Given.name? = some name ∧ (d.folder.target name).toOption = none ∧
      ((writeTree fuel options a root s : Running ε σ Unit).run d).1 = .error (.broken (.file fault name))) ∨
    ((writeTree fuel options a root s : Running ε σ Unit).run d).1 = jsonWritten options root s := by
  have silent : hintFor a = [] := if_neg (by simp [json])
  have form : (pieces fuel options a root s : Product ε σ) = Command.json options root s := by
    rw [pieces, json]
  have opened {sink : Sink} {d' : Desk σ} (isOpen : (openSink a : Running ε σ Sink).run d = (.ok sink, d')) :
      ((writeTree fuel options a root s : Running ε σ Unit).run d).1 = jsonWritten options root s := by
    rw [writeTree_opened isOpen, form, Command.json, silent, jsonWritten]
    cases Codec.dump s root with
    | error fault => rfl
    | ok j =>
      dsimp only
      rw [encodable_line]
      cases Encoding.encodeUtf8 (j.write options.writesAscii ++ "\n") <;> rfl
  rcases openSink_cases a d with ⟨-, isOpen⟩ | ⟨name, fault, named, closed, failed⟩ | ⟨name, place, -, -, isOpen⟩
  · exact .inr (opened isOpen)
  · refine .inl ⟨name, fault, named, ?_, ?_⟩
    · rw [closed]
      rfl
    · rw [writeTree_unopened failed]
  · exact .inr (opened isOpen)

theorem perform_unfiltered (fuel : Nat) (c : Catalogue (Action ε σ)) (env : Environment) {a : Arguments}
    (unfiltered : a.filters = []) :
    perform fuel c env a = configure env a >>= fun configured =>
      readTree configured.1 configured.2 a >>= fun result => writeTree fuel configured.2 a result.1 result.2 := by
  simp only [perform, configure, unfiltered, List.mapM_nil, applyFilters, bind_assoc, pure_bind]

end

section

variable [Versioning] [Stack]

/-- What breaks off a command that has no filters and writes JSON; `before` is the desk when it comes to
its input. -/
inductive Breaks (env : Environment) (a : Arguments) (d before : Desk σ) : Breakdown ε σ → Prop
  | log {path : Text} {fault : FileFault} (named : a.logPath? d.folder = some path)
    (noPath : ¬Path.Possible path) : Breaks env a d before (.file fault path)
  | input {options : Options} {fault : FileFault} (valid : Options.ofEnvironment env a.settings = .ok options)
    (named : a.input ≠ standardInput) (noPath : ¬Path.Possible a.input) :
    Breaks env a d before (.file fault a.input)
  | out {options : Options} {name : Text} {fault : FileFault}
    (valid : Options.ofEnvironment env a.settings = .ok options) (readable : a.Readable options before)
    (named : a.out.bind Given.name? = some name) (closed : (d.folder.target name).toOption = none) :
    Breaks env a d before (.file fault name)
  | full {options : Options} {bytes : Bytes} {root : Root} {s : Store}
    (valid : Options.ofEnvironment env a.settings = .ok options) (given : a.bytes before = .ok bytes)
    (isLoaded : (Input.bytes bytes).load options .empty = .ok (root, s)) (full : Stack.encodes s root = false) :
    Breaks env a d before (.tree .recursion)
  | output {options : Options} {bytes : Bytes} {root : Root} {s : Store} {j : Json} {fault : Encoding.EncodeFault}
    (valid : Options.ofEnvironment env a.settings = .ok options) (given : a.bytes before = .ok bytes)
    (isLoaded : (Input.bytes bytes).load options .empty = .ok (root, s)) (dumped : Codec.dump s root = .ok j)
    (noBytes : Encoding.encodeUtf8 (j.write options.writesAscii ++ "\n") = .error fault) :
    Breaks env a d before (.encoding fault [])

inductive Outcome (env : Environment) (a : Arguments) (d before : Desk σ) : Ending ε σ → Prop
  | misconfigured {fault : OptionsFault} (wrong : Options.ofEnvironment env a.settings = .error fault) :
    Outcome env a d before (.exit configurationError)
  | unreadable {options : Options} (valid : Options.ofEnvironment env a.settings = .ok options)
    (unread : ¬a.Readable options before) : Outcome env a d before (.exit inputError)
  | written {options : Options} (valid : Options.ofEnvironment env a.settings = .ok options)
    (readable : a.Readable options before) : Outcome env a d before (.exit success)
  | broken {b : Breakdown ε σ} (breaks : Breaks env a d before b) : Outcome env a d before (.broken b)

section

variable {env : Environment} {a : Arguments} {d before : Desk σ}

theorem Breaks.cause {b : Breakdown ε σ} (breaks : Breaks env a d before b) :
    (∃ path, a.logPath? d.folder = some path ∧ ¬Path.Possible path) ∨
      ∃ options, Options.ofEnvironment env a.settings = .ok options ∧
        ((a.input ≠ standardInput ∧ ¬Path.Possible a.input) ∨ a.Readable options before) := by
  cases breaks with
  | log named noPath => exact .inl ⟨_, named, noPath⟩
  | input valid named noPath => exact .inr ⟨_, valid, .inl ⟨named, noPath⟩⟩
  | out valid readable => exact .inr ⟨_, valid, .inr readable⟩
  | full valid given isLoaded | output valid given isLoaded =>
    exact .inr ⟨_, valid, .inr ⟨_, _, given, isLoaded⟩⟩

variable {ended : Ending ε σ} (outcome : Outcome env a d before ended)
  (logPossible : ∀ path, a.logPath? d.folder = some path → Path.Possible path)

include outcome

theorem Outcome.code_or_breaks : ended = .exit success ∨ ended = .exit inputError ∨
    ended = .exit configurationError ∨ ∃ b, ended = .broken b ∧ Breaks env a d before b := by
  cases outcome with
  | misconfigured => exact .inr (.inr (.inl rfl))
  | unreadable => exact .inr (.inl rfl)
  | written => exact .inl rfl
  | broken breaks => exact .inr (.inr (.inr ⟨_, rfl, breaks⟩))

include logPossible

theorem Outcome.misconfigured_iff : ended = .exit configurationError ↔
    ∃ fault, Options.ofEnvironment env a.settings = .error fault := by
  cases outcome with
  | misconfigured wrong => exact iff_of_true rfl ⟨_, wrong⟩
  | unreadable valid => exact iff_of_false nofun fun ⟨_, wrong⟩ => nomatch valid.symm.trans wrong
  | written valid => exact iff_of_false nofun fun ⟨_, wrong⟩ => nomatch valid.symm.trans wrong
  | broken breaks =>
    refine iff_of_false nofun ?_
    rintro ⟨fault, wrong⟩
    rcases breaks.cause with ⟨path, named, noPath⟩ | ⟨options, valid, -⟩
    · exact noPath (logPossible path named)
    · cases wrong.symm.trans valid

theorem Outcome.unreadable_iff (inputPossible : a.input = standardInput ∨ Path.Possible a.input) :
    ended = .exit inputError ↔
      ∃ options, Options.ofEnvironment env a.settings = .ok options ∧ ¬a.Readable options before := by
  cases outcome with
  | misconfigured wrong => exact iff_of_false nofun fun ⟨_, valid, _⟩ => nomatch wrong.symm.trans valid
  | unreadable valid unread => exact iff_of_true rfl ⟨_, valid, unread⟩
  | written valid readable =>
    refine iff_of_false nofun ?_
    rintro ⟨options, valid', unread⟩
    obtain rfl := Except.ok.inj (valid.symm.trans valid')
    exact unread readable
  | broken breaks =>
    refine iff_of_false nofun ?_
    rintro ⟨options, valid, unread⟩
    rcases breaks.cause with ⟨path, named, noPath⟩ | ⟨options', valid', ⟨named, noPath⟩ | readable⟩
    · exact noPath (logPossible path named)
    · exact noPath (inputPossible.resolve_left named)
    · obtain rfl := Except.ok.inj (valid.symm.trans valid')
      exact unread readable

end

section

variable {fuel : Nat} {c : Catalogue (Action ε σ)} {env : Environment} {words : List Text} {a : Arguments}
  {d : Desk σ}

/-- The input leaks nothing under the options, if the options are valid and the input is there. -/
def Leakless (env : Environment) (a : Arguments) (d : Desk σ) : Prop :=
  ∀ options bytes fault, Options.ofEnvironment env a.settings = .ok options → a.bytes d = .ok bytes →
    (Input.bytes bytes).load options .empty = .error fault → ¬Input.Unreported options (.bytes bytes) fault

theorem not_readable {options : Options} {fault : FileFault} (given : a.bytes d = .error fault) :
    ¬a.Readable options d := by
  rintro ⟨bytes, result, found, -⟩
  cases given.symm.trans found

variable [Drawing]

theorem written_outcome {options : Options} {before after : Desk σ} {bytes : Bytes} {root : Root} {s : Store}
    (fuel : Nat) (json : a.form = .json) (valid : Options.ofEnvironment env a.settings = .ok options)
    (given : a.bytes before = .ok bytes) (isLoaded : (Input.bytes bytes).load options .empty = .ok (root, s))
    (leads : ∀ t, (after.folder.target t).toOption = (d.folder.target t).toOption) :
    Outcome env a d before
      (concluded ((writeTree fuel options a root s : Running ε σ Unit).run after)).1 := by
  have readable : a.Readable options before := ⟨bytes, _, given, isLoaded⟩
  rcases writeTree_result (ε := ε) json after with ⟨name, fault, named, closed, ended⟩ | ended
  · dsimp only [concluded]
    rw [ended]
    exact .broken (.out valid readable named ((leads name).symm.trans closed))
  · obtain ⟨j, dumps⟩ := dump_loaded isLoaded
    dsimp only [concluded]
    rw [ended, jsonWritten]
    cases room : Stack.encodes s root with
    | false =>
      rw [room, if_neg Bool.false_ne_true] at dumps
      simp only [dumps]
      exact .broken (.full valid given isLoaded room)
    | true =>
      rw [room, if_pos rfl] at dumps
      simp only [dumps]
      cases encoded : Encoding.encodeUtf8 (j.write options.writesAscii ++ "\n") with
      | ok _ => exact .written valid readable
      | error fault => exact .broken (.output valid given isLoaded dumps encoded)

theorem configured_outcome {options : Options} {before : Desk σ} (log : Log) (json : a.form = .json)
    (valid : Options.ofEnvironment env a.settings = .ok options) (leakless : Leakless env a before)
    (leads : ∀ t, (before.folder.target t).toOption = (d.folder.target t).toOption) :
    Outcome env a d before (concluded ((readTree log options a >>= fun result =>
      writeTree fuel options a result.1 result.2 : Running ε σ Unit).run before)).1 := by
  have ending : ((readTree log options a : Running ε σ (Root × Store)).run before).1 = _ :=
    readTree_result log options a before
  have discreet := readTree_discreet (ε := ε) log options a before
  rw [run_bind]
  cases reading : (readTree log options a : Running ε σ (Root × Store)).run before with
  | mk outcome after =>
    rw [reading] at ending discreet
    dsimp only at ending discreet
    cases given : a.bytes before with
    | error fault =>
      obtain ⟨named, judged⟩ := bytes_error given
      rw [given] at ending
      subst ending
      dsimp only
      by_cases system : fault.isSystem = true
      · rw [if_pos system]
        exact .unreadable valid (not_readable given)
      · rw [if_neg system]
        exact .broken (.input valid named fun possible => system (judged.mpr possible))
    | ok bytes =>
      rw [given] at ending
      dsimp only at ending
      cases isLoaded : (Input.bytes bytes).load options .empty with
      | error fault =>
        have malformed : fault.isMalformed = true :=
          (Input.load_error isLoaded).resolve_right (leakless options bytes fault valid given isLoaded)
        rw [isLoaded] at ending
        subst ending
        dsimp only
        rw [if_pos malformed]
        refine .unreadable valid ?_
        rintro ⟨bytes', result, given', isLoaded'⟩
        obtain rfl := Except.ok.inj (given.symm.trans given')
        cases isLoaded.symm.trans isLoaded'
      | ok result =>
        rw [isLoaded] at ending
        subst ending
        -- The log has been written to since the beginning, which leads no path to another place.
        refine written_outcome fuel json valid given isLoaded fun t => ?_
        rw [← leads, ← (Desk.seen_iff.mp discreet).2.target]

theorem unfiltered_outcome (fuel : Nat) (c : Catalogue (Action ε σ)) (isRead : Arguments.read words = .ok a)
    (unfiltered : a.filters = []) (json : a.form = .json) {result : Except (Ending ε σ) (Log × Options)}
    {before : Desk σ} (configured : (configure env a : Running ε σ (Log × Options)).run d = (result, before))
    (leakless : Leakless env a before) : Outcome env a d before (run fuel c env words d).1 := by
  rw [run_read fuel c env isRead d, perform_unfiltered fuel c env unfiltered, run_bind, configured]
  have kept := configure_seen (ε := ε) env a d
  have cases := configure_cases (ε := ε) env a d
  rw [configured] at cases kept
  rcases cases with ⟨path, fault, named, noPath, rfl⟩ | ⟨-, configured⟩
  · exact .broken (.log named noPath)
  · cases valid : Options.ofEnvironment env a.settings with
    | error fault =>
      rw [valid] at configured
      obtain rfl := configured
      exact .misconfigured valid
    | ok options =>
      rw [valid] at configured
      obtain ⟨log, rfl⟩ := configured
      exact configured_outcome log json valid leakless (Desk.seen_iff.mp kept).2.target

end

end

def deskIn (f : Folder) (t : Text) : Desk Nat := ⟨f, (Encoding.encodeUtf8 t).toOption.getD [], [], [], 0⟩

def deskOf (t : Text) : Desk Nat := deskIn ⟨[], [], []⟩ t

def emptyCatalogue : Catalogue (Action Empty Nat) := ⟨[], [], fun _ _ => return .keep⟩

def plainArguments (input : Text) (out : Option Given) (form : Form) : Arguments :=
  { Arguments.default with input := input, out := out, form := form }

section

attribute [local instance] Versioning.ofClauses Stack.unbounded Branches.drawing

section

variable (input : Text) (out : Option Given) (form : Form) (d : Desk Nat)

theorem configure_plain : (configure [] (plainArguments input out form) : Running Empty Nat (Log × Options)).run d =
    (.ok (⟨Log.warning, none⟩, .default), d) := by
  have opened : (openLog [] (plainArguments input out form) : Running Empty Nat Log).run d =
      (.ok ⟨Log.warning, none⟩, d) := by cbv
  have settled : (settle ⟨Log.warning, none⟩ [] (plainArguments input out form) : Running Empty Nat Options).run d =
      (.ok .default, d) := rfl
  rw [configure, run_bind, opened]
  dsimp only
  rw [run_bind, settled]
  rfl

theorem run_plain (fuel : Nat) {words : List Text}
    (isRead : Arguments.read words = .ok (plainArguments input out form)) :
    run fuel emptyCatalogue [] words d =
      match (readTree ⟨Log.warning, none⟩ .default (plainArguments input out form) :
          Running Empty Nat (Root × Store)).run d with
      | (.error ending, after) => (ending, after)
      | (.ok (root, s), after) => concluded ((writeTree fuel .default (plainArguments input out form) root s :
        Running Empty Nat Unit).run after) := by
  rw [run_read fuel emptyCatalogue [] isRead, perform_unfiltered fuel emptyCatalogue [] rfl, run_bind,
    configure_plain]
  dsimp only
  rw [run_bind]
  cases (readTree ⟨Log.warning, none⟩ .default (plainArguments input out form) :
    Running Empty Nat (Root × Store)).run d with
  | mk result after => cases result <;> rfl

end

end

end DocTree.Command
