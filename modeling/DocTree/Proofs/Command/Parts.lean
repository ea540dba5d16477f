import DocTree.Command.Run
import DocTree.Proofs.Folder
import DocTree.Proofs.Stateful
/-!
The parts of the command. Up to its output the command changes no file but the log file and writes
nothing to standard output, however it ends.
-/

namespace DocTree.Command

variable {ε σ α β : Type}

def Desk.seen (places : List Path) (d : Desk σ) : Text × Path × List Path × (Path → Option Bytes) :=
  (d.output, d.folder.home, d.folder.folders, fun p => if p ∈ places then none else d.folder.file? p)

theorem Desk.seen_iff {places : List Path} {d d' : Desk σ} :
    d'.seen places = d.seen places ↔ d'.output = d.output ∧ d.folder.SameBut places d'.folder := by
  simp only [seen, Prod.mk.injEq]
  constructor
  · rintro ⟨output, home, folders, files⟩
    refine ⟨output, home, folders, fun p apart => ?_⟩
    simpa [apart] using congrFun files p
  · rintro ⟨output, same⟩
    refine ⟨output, same.home, same.folders, funext fun p => ?_⟩
    split
    · rfl
    · next apart => exact same.files p apart

def Log.places (log : Log) : List Path := log.file.toList

theorem Desk.note_seen (log : Log) (level : Int) (message : Text) (d : Desk σ) :
    (d.note log level message).seen log.places = d.seen log.places := by
  unfold note
  split
  · rfl
  · cases isFile : log.file with
    | none => rfl
    | some path =>
      have member : path ∈ log.places := by simp [Log.places, isFile]
      exact seen_iff.mpr ⟨rfl, Folder.append_sameBut d.folder _ member⟩

theorem Desk.note_output (log : Log) (level : Int) (message : Text) (d : Desk σ) :
    (d.note log level message).output = d.output := (seen_iff.mp (d.note_seen log level message)).1

theorem Desk.note_input (log : Log) (level : Int) (message : Text) (d : Desk σ) :
    (d.note log level message).input = d.input := by
  unfold note
  split
  · rfl
  · cases log.file <;> rfl

/-- A part of the command that shows in the log and nowhere else. -/
abbrev Discreet (log : Log) (x : Running ε σ α) : Prop := Keeps (Desk.seen log.places) x

theorem note_discreet (log : Log) (level : Int) (message : Text) :
    Discreet log (note log level message : Running ε σ Unit) := Desk.note_seen log level message

section

variable {ω : Type} {view : Desk σ → ω} {log : Log}
  (noted : ∀ level message, Keeps view (note log level message : Running ε σ Unit))

include noted

theorem giveUp_keeps (message : Text) (code : Nat) : Keeps view (giveUp log message code : Running ε σ α) :=
  (noted Log.error message).bind fun _ => .throw _

theorem settle_keeps [Versioning] (env : Environment) (a : Arguments) :
    Keeps view (settle log env a : Running ε σ Options) := by
  unfold settle
  refine (Keeps.forIn (fun name _ => ?_) _ _).bind fun _ => ?_
  · exact (noted _ _).bind fun _ => .pure _
  · split
    · exact .pure _
    · exact giveUp_keeps noted _ _

theorem loadFilter_keeps (c : Catalogue (Action ε σ)) (given : Given) : Keeps view (loadFilter log c given) := by
  cases given with
  | nothing => exact .throw _
  | text reference =>
    refine Keeps.get.bind fun d => ?_
    refine (Keeps.forIn (fun warning _ => ?_) _ _).bind fun _ => ?_
    · exact (noted _ _).bind fun _ => .pure _
    · split
      · exact .pure _
      · split
        · exact giveUp_keeps noted _ _
        · exact .throw _

end

def logPathOf (f : Folder) (name : Text) : Text := Path.upToNull (Path.normal (f.absolute name))

def Arguments.logPath? (a : Arguments) (f : Folder) : Option Text :=
  (a.logFile.bind Given.name?).map (logPathOf f)

def Arguments.logPlace? (a : Arguments) (f : Folder) : Option Path :=
  (a.logPath? f).bind fun path => (f.target path).toOption

theorem openLog_unnamed {env : Environment} {a : Arguments} (unnamed : a.logFile.bind Given.name? = none) :
    (openLog env a : Running ε σ Log) = pure ⟨thresholdOf env a, none⟩ := by
  rw [openLog, unnamed]

theorem openLog_named {env : Environment} {a : Arguments} {name : Text}
    (named : a.logFile.bind Given.name? = some name) (d : Desk σ) :
    (openLog env a : Running ε σ Log).run d = match d.folder.target (logPathOf d.folder name) with
      | .ok place =>
        let log : Log := ⟨thresholdOf env a, some place⟩
        let opened : Desk σ := { d with folder := d.folder.append place [] }
        (.ok log, opened.note log Log.debug ("Logging to file: " ++ name))
      | .error fault =>
        let path := logPathOf d.folder name
        let log : Log := ⟨thresholdOf env a, none⟩
        if fault.isSystem then
          (.ok log, d.note log Log.warning ("Could not open log file " ++ name ++ ": " ++ fault.message path))
        else (.error (.broken (.file fault path)), d) := by
  rw [openLog, named, logPathOf, run_get_bind]
  dsimp only
  cases d.folder.target (Path.upToNull (Path.normal (d.folder.absolute name))) with
  | ok place => rfl
  | error fault =>
    cases system : fault.isSystem with
    | true =>
      simp only [system]
      rfl
    | false =>
      simp only [system]
      rfl

/-- Opening the log fails if the log file has a text for a path that is none. Otherwise the log is there,
and no other file has changed. -/
theorem openLog_cases (env : Environment) (a : Arguments) (d : Desk σ) :
    (∃ path fault, a.logPath? d.folder = some path ∧ ¬Path.Possible path ∧
      (openLog env a : Running ε σ Log).run d = (.error (.broken (.file fault path)), d)) ∨
    (∃ log d', (openLog env a : Running ε σ Log).run d = (.ok log, d') ∧
      (∀ path, a.logPath? d.folder = some path → Path.Possible path) ∧
      log.places = (a.logPlace? d.folder).toList ∧ d'.input = d.input ∧
      d'.seen log.places = d.seen log.places) := by
  unfold Arguments.logPlace? Arguments.logPath?
  cases named : a.logFile.bind Given.name? with
  | none =>
    rw [openLog_unnamed named]
    exact .inr ⟨_, d, rfl, nofun, rfl, rfl, rfl⟩
  | some name =>
    rw [openLog_named named]
    have judges := d.folder.judges_target (logPathOf d.folder name)
    simp only [Option.map_some, Option.bind_some]
    cases leads : d.folder.target (logPathOf d.folder name) with
    | ok place =>
      refine .inr ⟨_, _, rfl, ?_, rfl, Desk.note_input .., ?_⟩
      · rintro _ ⟨⟩
        exact judges.ok _ leads
      · refine (Desk.note_seen ..).trans ?_
        exact Desk.seen_iff.mpr ⟨rfl, d.folder.append_sameBut [] (List.mem_singleton_self place)⟩
    | error fault =>
      have system := judges.error fault leads
      by_cases possible : Path.Possible (logPathOf d.folder name)
      · dsimp only
        rw [if_pos (system.mpr possible)]
        refine .inr ⟨_, _, rfl, ?_, rfl, Desk.note_input .., Desk.note_seen ..⟩
        rintro _ ⟨⟩
        exact possible
      · dsimp only
        rw [if_neg fun isSystem => possible (system.mp isSystem)]
        exact .inl ⟨_, fault, rfl, possible, rfl⟩

/-- The places that a command may write to from its beginning: that of the log file. -/
def Arguments.logPlaces (a : Arguments) (f : Folder) : List Path := (a.logPlace? f).toList

theorem openLog_bind_seen {env : Environment} {a : Arguments} {next : Log → Running ε σ α}
    (later : ∀ log, Discreet log (next log)) (d : Desk σ) :
    ((openLog env a >>= next).run d).2.seen (a.logPlaces d.folder) = d.seen (a.logPlaces d.folder) := by
  rw [run_bind]
  rcases openLog_cases env a d with ⟨path, fault, -, -, ran⟩ | ⟨log, d', ran, -, places, -, kept⟩
  · rw [ran]
  · rw [ran, Arguments.logPlaces, ← places]
    exact (later log d').trans kept

theorem readBytes_discreet (log : Log) (a : Arguments) : Discreet log (readBytes log a : Running ε σ Bytes) := by
  intro d
  unfold readBytes
  rw [run_bind]
  change ((if a.input = standardInput then _ else _ : Running ε σ Bytes).run d).2.seen _ = d.seen _
  split
  · rfl
  · split
    · rfl
    · next fault _ =>
      have reported : Discreet log (giveUp log ("Cannot read " ++ a.input ++ ": " ++ fault.message a.input)
          inputError : Running ε σ Bytes) := giveUp_keeps (note_discreet log) _ _
      dsimp only
      split
      · exact reported d
      · exact ((Keeps.throw _).bind fun _ => reported) d

section

variable [Versioning] [Stack]

def loaded (log : Log) (options : Options) (input : Input) : Running ε σ (Root × Store) :=
  match input.load options .empty with
  | .ok found => pure found
  | .error fault =>
    if fault.isMalformed then giveUp log fault.message inputError
    else throw (.broken (.input fault))

theorem loaded_discreet (log : Log) (options : Options) (input : Input) :
    Discreet log (loaded log options input : Running ε σ (Root × Store)) := by
  unfold loaded
  split
  · exact .pure _
  · split
    · exact giveUp_keeps (note_discreet log) _ _
    · exact .throw _

theorem loaded_ok {log : Log} {options : Options} {input : Input} {d d' : Desk σ} {result : Root × Store}
    (ran : (loaded log options input : Running ε σ (Root × Store)).run d = (.ok result, d')) :
    input.load options .empty = .ok result := by
  unfold loaded at ran
  cases isLoaded : input.load options .empty with
  | ok found =>
    rw [isLoaded] at ran
    cases ran
    rfl
  | error fault =>
    rw [isLoaded] at ran
    dsimp only at ran
    split at ran <;> cases congrArg (·.1) ran

theorem readTree_discreet (log : Log) (options : Options) (a : Arguments) :
    Discreet log (readTree log options a : Running ε σ (Root × Store)) := by
  refine (readBytes_discreet log a).bind fun bytes => ?_
  have result : Discreet log (loaded log options (.bytes bytes) : Running ε σ (Root × Store)) :=
    loaded_discreet _ _ _
  dsimp only
  split
  · exact (note_discreet _ _ _).bind fun _ => result
  · exact result

theorem readTree_ok {log : Log} {options : Options} {a : Arguments} {d d' : Desk σ} {result : Root × Store}
    (ran : (readTree log options a : Running ε σ (Root × Store)).run d = (.ok result, d')) :
    ∃ input : Input, input.load options .empty = .ok result := by
  obtain ⟨bytes, d₁, -, ran⟩ := run_bind_ok ran
  refine ⟨.bytes bytes, ?_⟩
  dsimp only at ran
  split at ran
  · obtain ⟨_, d₂, -, ran⟩ := run_bind_ok ran
    exact loaded_ok ran
  · exact loaded_ok ran

end

/-- What a command knows when it comes to its filters. -/
structure Plan [Versioning] (ε σ : Type) where
  log : Log
  options : Options
  filters : List (Text × Filter (Action ε σ))
  root : Root
  store : Store

section

variable [Versioning] [Stack]

def prepare (c : Catalogue (Action ε σ)) (env : Environment) (a : Arguments) : Running ε σ (Plan ε σ) := do
  let log ← openLog env a
  let options ← settle log env a
  let filters ← a.filters.mapM (loadFilter log c)
  let (root, store) ← readTree log options a
  return ⟨log, options, filters, root, store⟩

variable {c : Catalogue (Action ε σ)} {env : Environment} {a : Arguments} {d d' : Desk σ} {plan : Plan ε σ}

theorem prepare_ok (ran : (prepare c env a).run d = (.ok plan, d')) :
    ∃ input : Input, input.load plan.options .empty = .ok (plan.root, plan.store) := by
  obtain ⟨log, d₁, -, ran⟩ := run_bind_ok ran
  obtain ⟨options, d₂, -, ran⟩ := run_bind_ok ran
  obtain ⟨filters, d₃, -, ran⟩ := run_bind_ok ran
  obtain ⟨⟨root, store⟩, d₄, isRead, ran⟩ := run_bind_ok ran
  cases ran
  exact readTree_ok isRead

theorem prepare_log (ran : (prepare c env a).run d = (.ok plan, d')) :
    plan.log.places = a.logPlaces d.folder := by
  obtain ⟨log, d₁, opened, ran⟩ := run_bind_ok ran
  obtain ⟨options, d₂, -, ran⟩ := run_bind_ok ran
  obtain ⟨filters, d₃, -, ran⟩ := run_bind_ok ran
  obtain ⟨⟨root, store⟩, d₄, -, ran⟩ := run_bind_ok ran
  cases ran
  rcases openLog_cases env a d with ⟨path, fault, -, -, failed⟩ | ⟨log', d', opened', -, places, -, -⟩
  · cases congrArg (·.1) (failed.symm.trans opened)
  · obtain rfl := Except.ok.inj (congrArg (·.1) (opened'.symm.trans opened))
    exact places

theorem prepare_seen (c : Catalogue (Action ε σ)) (env : Environment) (a : Arguments) (d : Desk σ) :
    ((prepare c env a).run d).2.seen (a.logPlaces d.folder) = d.seen (a.logPlaces d.folder) := by
  refine openLog_bind_seen (fun log => ?_) d
  refine (settle_keeps (note_discreet log) env a).bind fun options => ?_
  refine (Keeps.mapM (loadFilter_keeps (note_discreet log) c) a.filters).bind fun filters => ?_
  exact (readTree_discreet log options a).bind fun _ => .pure _

end

theorem notePasses_discreet (log : Log) (number : Nat) (handlers : List (Handler (Action ε σ))) :
    Discreet log (notePasses log number handlers) := by
  induction handlers generalizing number with
  | nil => exact .pure _
  | cons h rest ih => exact (note_discreet log _ _).bind fun _ => ih (number + 1)

section

variable [Versioning] (fuel : Nat) (log : Log) (options : Options) (root : Root)

theorem applyFilter_discreet (f : Filter (Action ε σ)) (s : Store) :
    Discreet log (applyFilter fuel log options root f s) := by
  refine (note_discreet log _ _).bind fun _ => .of_get fun d => ?_
  cases f.apply fuel root options.format none ⟨s, d.state⟩ with
  | mk result w =>
    refine Keeps.after_set rfl ?_
    refine (notePasses_discreet log 1 _).bind fun _ => ?_
    cases result with
    | ok => exact .pure _
    | error stop =>
      obtain ⟨pass, halt⟩ := stop
      cases halt with
      | rejected r => exact giveUp_keeps (note_discreet log) _ _
      | raised | stopped | unfinished => exact .throw _

theorem applyFilters_discreet (count number : Nat) (filters : List (Text × Filter (Action ε σ))) (s : Store) :
    Discreet log (applyFilters fuel log options root count number filters s) := by
  induction filters generalizing number s with
  | nil => exact .pure _
  | cons first rest ih =>
    refine (note_discreet log _ _).bind fun _ => ?_
    exact (applyFilter_discreet fuel log options root first.2 s).bind fun s => ih (number + 1) s

end

section

variable [Versioning]

def Plan.filtered (plan : Plan ε σ) (fuel : Nat) : Running ε σ Store :=
  applyFilters fuel plan.log plan.options plan.root plan.filters.length 1 plan.filters plan.store

theorem Plan.filtered_discreet (plan : Plan ε σ) (fuel : Nat) : Discreet plan.log (plan.filtered fuel) :=
  applyFilters_discreet fuel plan.log plan.options plan.root plan.filters.length 1 plan.filters _

variable [Stack] [Drawing]

theorem perform_eq (fuel : Nat) (c : Catalogue (Action ε σ)) (env : Environment) (a : Arguments) :
    perform fuel c env a = prepare c env a >>= fun plan => plan.filtered fuel >>=
      writeTree fuel plan.options a plan.root := by
  simp only [perform, prepare, bind_assoc, pure_bind]
  rfl

def concluded (ran : Except (Ending ε σ) Unit × Desk σ) : Ending ε σ × Desk σ :=
  let ending := match ran.1 with
    | .ok () => .exit success
    | .error ending => ending
  (ending, ran.2)

theorem run_read (fuel : Nat) (c : Catalogue (Action ε σ)) (env : Environment) {words : List Text}
    {a : Arguments} (isRead : Arguments.read words = .ok a) (d : Desk σ) :
    run fuel c env words d = concluded ((perform fuel c env a).run d) := by
  rw [run, isRead]
  dsimp only
  cases (perform fuel c env a).run d with
  | mk result d' => cases result <;> rfl

end

/-- Output is standard output, a file that cannot be opened, or a file that opening it has emptied. -/
theorem openSink_cases (a : Arguments) (d : Desk σ) :
    (a.out.bind Given.name? = none ∧ (openSink a : Running ε σ Sink).run d = (.ok .standard, d)) ∨
    (∃ name fault, a.out.bind Given.name? = some name ∧ d.folder.target name = .error fault ∧
      (openSink a : Running ε σ Sink).run d = (.error (.broken (.file fault name)), d)) ∨
    (∃ name place, a.out.bind Given.name? = some name ∧ d.folder.target name = .ok place ∧
      (openSink a : Running ε σ Sink).run d = (.ok (.file place), { d with folder := d.folder.put place [] })) := by
  unfold openSink
  cases a.out.bind Given.name? with
  | none => exact .inl ⟨rfl, rfl⟩
  | some name =>
    cases leads : d.folder.target name with
    | error fault =>
      refine .inr (.inl ⟨name, fault, rfl, leads, ?_⟩)
      rw [run_get_bind, leads]
      rfl
    | ok place =>
      refine .inr (.inr ⟨name, place, rfl, leads, ?_⟩)
      rw [run_get_bind, leads]
      rfl

theorem encodable_line (t : Text) : Encoding.encodable [t] =
    match Encoding.encodeUtf8 t with
    | .ok _ => (t, none)
    | .error fault => ([], some fault) := by
  rw [Encoding.encodable]
  split <;> simp [Encoding.encodable, *]

section

variable [Versioning] [Stack] [Drawing] {fuel : Nat} {options : Options} {a : Arguments} {root : Root} {s : Store}
  {d d' : Desk σ}

theorem writeTree_unopened {ending : Ending ε σ}
    (failed : (openSink a : Running ε σ Sink).run d = (.error ending, d')) :
    (writeTree fuel options a root s : Running ε σ Unit).run d = (.error ending, d') := by
  rw [writeTree, run_bind, failed]

/-- What is written is what can be encoded of the pieces. If that is not all of it, the rest does not matter. -/
theorem writeTree_opened {sink : Sink} (opened : (openSink a : Running ε σ Sink).run d = (.ok sink, d')) :
    (writeTree fuel options a root s : Running ε σ Unit).run d =
      match Encoding.encodable (pieces fuel options a root s : Product ε σ).1 with
      | (written, some fault) => (.error (.broken (.encoding fault (hintFor a))), d'.write sink written)
      | (written, none) => match (pieces fuel options a root s : Product ε σ).2 with
        | none => (.ok (), d'.write sink written)
        | some b => (.error (.broken b), d'.write sink written) := by
  rw [writeTree, run_bind, opened]
  dsimp only
  rw [run_bind, writePieces]
  cases Encoding.encodable (pieces fuel options a root s : Product ε σ).1 with
  | mk written fault =>
    cases fault with
    | some fault => rfl
    | none => cases (pieces fuel options a root s : Product ε σ).2 <;> rfl

end

end DocTree.Command
