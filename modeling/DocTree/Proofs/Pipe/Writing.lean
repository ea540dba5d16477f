import DocTree.Pipe
import DocTree.Proofs.Configuration
import DocTree.Proofs.Filter.Arguments
import DocTree.Proofs.Store.Dump
import DocTree.Version.Range
/-!
Filter programs write all or nothing. What is wrong with the settings is found before the input is
opened, a failure at any stage leaves the output alone, and a run that does not fail writes once, and
then the whole line.
-/

namespace DocTree

/-- What an output is given for a text. One that needs the bytes of UTF-8 is given only what has them. -/
def Output.Takes : Output → Text → Chunk → Prop
  | .text, t, chunk => chunk = .text t
  | .utf8, t, chunk => chunk = .text t ∧ ∃ bs, Encoding.encodeUtf8 t = .ok bs
  | .bytes, t, chunk => ∃ bs, Encoding.encodeUtf8 t = .ok bs ∧ chunk = .bytes bs

namespace Pipe

variable {ε σ : Type}

def Fault.IsConfiguration : Fault ε σ → Prop
  | .options (.invalidRange _) => True
  | .filter fault => fault.InParameter
  | _ => False

abbrev Silent {α : Type} (x : Running ε σ α) : Prop := Keeps Progress.written x

section

variable [Versioning] [Stack] (fuel : Nat) (p : Pipe ε σ) (options : Options) (input : Input)

theorem readTree_silent : Silent (readTree options input : Running ε σ Root) := by
  refine Keeps.bind (fun _ => rfl) fun _ => Keeps.bind (fun _ => rfl) fun progress => ?_
  exact Keeps.bind (fun _ => rfl) fun _ => Keeps.bind (fun _ => rfl) fun _ _ => rfl

theorem walkUnder_silent : Silent (walkUnder fuel p options input) := by
  refine Keeps.bind (fun _ => rfl) fun f => ?_
  refine (readTree_silent options input).bind fun root => ?_
  exact Keeps.bind (fun _ => rfl) fun _ => .pure root

theorem walk_silent : Silent (p.walk fuel input) :=
  Keeps.bind (fun _ => rfl) fun options => walkUnder_silent fuel p options input

end

section

variable {output : Output} {root : Root} {before after : Progress σ} {line : Text}

theorem deliver_eq_ok_iff {t : Text} {chunk : Chunk} :
    deliver output t = .ok chunk ↔ output.Takes t chunk := by
  cases output with
  | text =>
    constructor
    · intro delivered
      exact (Except.ok.inj delivered).symm
    · rintro rfl
      rfl
  | utf8 =>
    cases encoded : Encoding.encodeUtf8 t with
    | error fault => simp [deliver, Output.Takes, encoded, bind, Except.bind]
    | ok bs => simp [deliver, Output.Takes, encoded, bind, Except.bind, pure, Except.pure, eq_comm]
  | bytes =>
    cases encoded : Encoding.encodeUtf8 t with
    | error fault => simp [deliver, Output.Takes, encoded, bind, Except.bind]
    | ok bs => simp [deliver, Output.Takes, encoded, bind, Except.bind, pure, Except.pure, eq_comm]

section

variable [Versioning] {options : Options}

def delivery (options : Options) (output : Output) (tree : Tree) : Except (Fault ε σ) (Text × Chunk) := do
  let line ← (Codec.line options tree).mapError .tree
  let chunk ← (deliver output line).mapError .encoding
  return (line, chunk)

theorem line_eq_ok_iff {tree : Tree} : Codec.line options tree = .ok line ↔
    ∃ j, Codec.encode tree = .ok j ∧ line = j.write options.writesAscii ++ "\n" := by
  rw [Codec.line]
  cases Codec.encode tree with
  | error fault => exact ⟨nofun, nofun⟩
  | ok j =>
    constructor
    · intro made
      exact ⟨j, rfl, (Except.ok.inj made).symm⟩
    · rintro ⟨j', same, rfl⟩
      rw [Except.ok.inj same]
      rfl

theorem delivery_of_line {tree : Tree} (made : Codec.line options tree = .ok line) :
    (delivery options output tree : Except (Fault ε σ) (Text × Chunk)) =
      ((deliver output line).mapError .encoding).map (line, ·) := by
  rw [delivery, made]
  rfl

theorem write_run (options : Options) (output : Output) (root : Root) (before : Progress σ) :
    (write options output root : Running ε σ Text).run before =
      match delivery options output (before.world.store.tree root) with
      | .ok (line, chunk) => (.ok line, { before with written := before.written ++ [chunk] })
      | .error fault => (.error fault, before) := by
  change (running ((Codec.line options (before.world.store.tree root)).mapError .tree) >>= fun line => do
    let chunk ← running ((deliver output line).mapError .encoding)
    modify fun progress => { progress with written := progress.written ++ [chunk] }
    return line : Running ε σ Text).run before = _
  cases made : Codec.line options (before.world.store.tree root) with
  | error fault =>
    rw [delivery, made]
    rfl
  | ok line =>
    rw [delivery_of_line made]
    change (running ((deliver output line).mapError .encoding) >>= fun chunk => do
      modify fun progress => { progress with written := progress.written ++ [chunk] }
      return line : Running ε σ Text).run before = _
    cases deliver output line <;> rfl

theorem delivery_eq_ok_iff {tree : Tree} {chunk : Chunk} :
    (delivery options output tree : Except (Fault ε σ) (Text × Chunk)) = .ok (line, chunk) ↔
      Codec.line options tree = .ok line ∧ output.Takes line chunk := by
  rw [← deliver_eq_ok_iff]
  cases made : Codec.line options tree with
  | error fault =>
    rw [delivery, made]
    exact ⟨nofun, nofun⟩
  | ok whole =>
    rw [delivery_of_line made]
    constructor
    · intro done
      cases given : deliver output whole with
      | error fault =>
        rw [given] at done
        cases done
      | ok chunk' =>
        rw [given] at done
        obtain ⟨rfl, rfl⟩ := Prod.mk.inj (Except.ok.inj done)
        exact ⟨rfl, given⟩
    · rintro ⟨same, given⟩
      rw [Except.ok.inj same, given]
      rfl

theorem write_ok_iff : (write options output root : Running ε σ Text).run before = (.ok line, after) ↔
    ∃ j chunk, Codec.encode (before.world.store.tree root) = .ok j ∧
      line = j.write options.writesAscii ++ "\n" ∧ output.Takes line chunk ∧
      after = { before with written := before.written ++ [chunk] } := by
  rw [write_run]
  constructor
  · intro done
    cases given : delivery options output (before.world.store.tree root) with
    | error fault =>
      rw [given] at done
      cases congrArg (·.1) done
    | ok both =>
      obtain ⟨line', chunk⟩ := both
      rw [given] at done
      obtain ⟨same, rfl⟩ := Prod.mk.inj done
      obtain rfl := Except.ok.inj same
      obtain ⟨made, taken⟩ := delivery_eq_ok_iff.mp given
      obtain ⟨j, encoded, isLine⟩ := line_eq_ok_iff.mp made
      exact ⟨j, chunk, encoded, isLine, taken, rfl⟩
  · rintro ⟨j, chunk, encoded, isLine, taken, rfl⟩
    rw [delivery_eq_ok_iff.mpr ⟨line_eq_ok_iff.mpr ⟨j, encoded, isLine⟩, taken⟩]

theorem write_error {fault : Fault ε σ}
    (failed : (write options output root).run before = (.error fault, after)) : after = before := by
  rw [write_run] at failed
  cases given : (delivery options output (before.world.store.tree root) : Except (Fault ε σ) (Text × Chunk)) with
  | error fault' =>
    rw [given] at failed
    exact (Prod.mk.inj failed).2.symm
  | ok both =>
    rw [given] at failed
    cases congrArg (·.1) failed

variable [Stack]

theorem send_of_ok {j : Json} (dumped : Codec.dump before.world.store root = .ok j) :
    (send options output root : Running ε σ Text).run before = (write options output root).run before := by
  change (running ((Codec.dump before.world.store root).mapError .tree) >>= fun _ => write options output root).run
    before = _
  rw [dumped]
  rfl

theorem send_of_error {fault : Codec.EncodeFault} (failed : Codec.dump before.world.store root = .error fault) :
    (send options output root : Running ε σ Text).run before = (.error (.tree fault), before) := by
  change (running ((Codec.dump before.world.store root).mapError .tree) >>= fun _ => write options output root).run
    before = _
  rw [failed]
  rfl

theorem send_ok_iff : (send options output root : Running ε σ Text).run before = (.ok line, after) ↔
    ∃ j chunk, Codec.dump before.world.store root = .ok j ∧ Codec.encode (before.world.store.tree root) = .ok j ∧
      line = j.write options.writesAscii ++ "\n" ∧ output.Takes line chunk ∧
      after = { before with written := before.written ++ [chunk] } := by
  cases dumped : Codec.dump before.world.store root with
  | error fault =>
    rw [send_of_error dumped]
    refine ⟨fun done => ?_, ?_⟩
    · cases congrArg (·.1) done
    · rintro ⟨_, _, ⟨⟩, _⟩
  | ok j =>
    rw [send_of_ok dumped, write_ok_iff]
    have encoded := Store.encodeFrom_ok (Codec.dump_ok dumped).1
    constructor
    · rintro ⟨i, chunk, isWritten, rest⟩
      cases encoded.symm.trans isWritten
      exact ⟨j, chunk, rfl, encoded, rest⟩
    · rintro ⟨i, chunk, ⟨⟩, _, rest⟩
      exact ⟨j, chunk, encoded, rest⟩

theorem send_error {fault : Fault ε σ}
    (failed : (send options output root).run before = (.error fault, after)) : after = before := by
  cases dumped : Codec.dump before.world.store root with
  | ok j => exact write_error (send_of_ok dumped ▸ failed)
  | error fault' =>
    rw [send_of_error dumped] at failed
    exact (Prod.mk.inj failed).2.symm

end

end

section

variable [Versioning] {fuel : Nat} {p : Pipe ε σ} {input : Input} {output : Output} {options : Options}
  {start after : Progress σ}

theorem run_settled (settled : p.settledOptions = .ok options) {α : Type}
    (next : Options → Running ε σ α) (start : Progress σ) :
    (running (p.settledOptions.mapError .options) >>= next).run start = (next options).run start := by
  rw [settled]
  rfl

theorem run_unsettled {fault : OptionsFault} (wrong : p.settledOptions = .error fault) {α : Type}
    (next : Options → Running ε σ α) (start : Progress σ) :
    (running (p.settledOptions.mapError .options) >>= next).run start = (.error (.options fault), start) := by
  rw [wrong]
  rfl

theorem build_error {fault : Filter.Fault (Action ε σ)} {warnings : List Text}
    (wrong : (Filter.ofArguments p.arguments).run start.warnings = (.error fault, warnings)) :
    p.build.run start = (.error (.filter fault), { start with warnings := warnings }) := by
  change p.build start = _
  rw [Pipe.build, wrong]
  rfl

theorem settledOptions_error {m : Mapping Text} (texts : p.environment = .ofTexts m) {fault : OptionsFault}
    (wrong : p.settledOptions = .error fault) : ∃ text, fault = .invalidRange text := by
  unfold settledOptions at wrong
  split at wrong
  · cases wrong
  · rw [texts] at wrong
    exact Options.ofEnvironment_error rfl wrong

variable [Stack]

/-- A program walks, and then sends the tree off. -/
theorem filter_run (settled : p.settledOptions = .ok options) :
    (p.filter fuel input output).run start = (p.walk fuel input >>= send options output).run start := by
  rw [Pipe.filter, run_settled settled, run_bind, run_bind, Pipe.walk, run_settled settled]

/-- A program that fails has not written: its walk is silent, and sending that fails changes nothing. -/
theorem filter_error {fault : Fault ε σ} (failed : (p.filter fuel input output).run start = (.error fault, after)) :
    after.written = start.written := by
  cases settled : p.settledOptions with
  | error wrong =>
    rw [Pipe.filter, run_unsettled settled] at failed
    rw [(Prod.mk.inj failed).2]
  | ok options =>
    rw [filter_run settled] at failed
    have kept := walk_silent fuel p input start
    rcases run_bind_error failed with walking | ⟨root, walked, walking, writing⟩
    · rw [walking] at kept
      exact kept
    · rw [walking] at kept
      rw [send_error writing]
      exact kept

theorem filter_ok_iff {line : Text} : (p.filter fuel input output).run start = (.ok line, after) ↔
    ∃ options root walked j chunk, p.settledOptions = .ok options ∧
      (p.walk fuel input).run start = (.ok root, walked) ∧ Codec.dump walked.world.store root = .ok j ∧
      Codec.encode (walked.world.store.tree root) = .ok j ∧
      line = j.write options.writesAscii ++ "\n" ∧ output.Takes line chunk ∧
      walked.written = start.written ∧
      after = { walked with written := start.written ++ [chunk] } := by
  have kept := walk_silent fuel p input start
  constructor
  · intro done
    cases settled : p.settledOptions with
    | error wrong =>
      rw [Pipe.filter, run_unsettled settled] at done
      cases congrArg (·.1) done
    | ok options =>
      rw [filter_run settled] at done
      obtain ⟨root, walked, walking, writing⟩ := run_bind_ok done
      rw [walking] at kept
      obtain ⟨j, chunk, dumped, encoded, isLine, taken, isAfter⟩ := send_ok_iff.mp writing
      have written : walked.written = start.written := kept
      rw [written] at isAfter
      exact ⟨options, root, walked, j, chunk, rfl, walking, dumped, encoded, isLine, taken, written, isAfter⟩
  · rintro ⟨options, root, walked, j, chunk, settled, walking, dumped, encoded, isLine, taken, written, isAfter⟩
    rw [filter_run settled, run_bind, walking]
    refine send_ok_iff.mpr ⟨j, chunk, dumped, encoded, isLine, taken, ?_⟩
    rw [isAfter, written]

/-- A program writes all or nothing. Wrong options and wrong arguments are reported as such before the
input is opened, unless one of the arguments has no text that the report could show, and what fails in any other
way has not written anything either. What does not fail writes once: the line of the tree that the walk alone
ends with, as the output takes it. -/
theorem filter_writes_all_or_nothing (ε σ : Type) (p : Pipe ε σ) (m : Mapping Text)
    (texts : p.environment = .ofTexts m) (fuel : Nat) (input : Input) (output : Output)
    (start : Progress σ) :
    (∀ fault, p.settledOptions = .error fault →
      (p.filter fuel input output).run start = (.error (.options fault), start) ∧
        (.options fault : Fault ε σ).IsConfiguration) ∧
    (∀ options fault warnings, p.settledOptions = .ok options →
      (Filter.ofArguments p.arguments).run start.warnings = (.error fault, warnings) →
      (p.filter fuel input output).run start =
          (.error (.filter fault), { start with warnings := warnings }) ∧
        ((.filter fault : Fault ε σ).IsConfiguration ∨
          fault = .unprintable ∧ ∃ v ∈ p.arguments, v.isPrintable = false)) ∧
    (∀ fault after, (p.filter fuel input output).run start = (.error fault, after) →
      after.written = start.written) ∧
    ∀ line after, (p.filter fuel input output).run start = (.ok line, after) ↔
      ∃ options root walked j chunk, p.settledOptions = .ok options ∧
        (p.walk fuel input).run start = (.ok root, walked) ∧ Codec.dump walked.world.store root = .ok j ∧
        Codec.encode (walked.world.store.tree root) = .ok j ∧
        line = j.write options.writesAscii ++ "\n" ∧ output.Takes line chunk ∧
        walked.written = start.written ∧
        after = { walked with written := start.written ++ [chunk] } := by
  refine ⟨?_, ?_, ?_, ?_⟩
  · intro fault wrong
    obtain ⟨text, rfl⟩ := settledOptions_error texts wrong
    refine ⟨?_, trivial⟩
    rw [Pipe.filter, run_unsettled wrong]
  · intro options fault warnings settled wrong
    refine ⟨?_, Filter.ofArguments_fails wrong⟩
    rw [filter_run settled, run_bind, Pipe.walk, run_settled settled, walkUnder, run_bind, build_error wrong]
  · exact fun fault after failed => filter_error failed
  · exact fun line after => filter_ok_iff

end

section

attribute [local instance] Versioning.ofClauses Stack.unbounded

def keeping (options : Option Options) (m : Mapping Text) : Pipe Empty Nat :=
  ⟨[.handler (.plain ⟨"keep", "function", fun _ => Walk.keepAll⟩)], [], .null, options, .ofTexts m⟩

theorem space_written_once :
    (keeping none [("PANWALK_SUPPORTED_API_VERSIONS", "new")]).settledOptions = .error (.invalidRange "new") ∧
    ((keeping none [("PANWALK_SUPPORTED_API_VERSIONS", "new")]).filter 10 (.text "[]") .bytes).run (.ofState 0) =
      (.error (.options (.invalidRange "new")), .ofState 0) ∧
    ∃ after, ((keeping (some .default) []).filter 10 (.text "[\x7b\"t\":\"Space\"\x7d]") .utf8).run
        (.ofState 0) = (.ok "[\x7b\"t\":\"Space\"\x7d]\n", after) ∧
      after.written = [.text "[\x7b\"t\":\"Space\"\x7d]\n"] := by
  have wrong : (keeping none [("PANWALK_SUPPORTED_API_VERSIONS", "new")]).settledOptions =
      .error (.invalidRange "new") := by cbv
  have misconfigured := filter_writes_all_or_nothing Empty Nat
    (keeping none [("PANWALK_SUPPORTED_API_VERSIONS", "new")]) _ rfl 10 (.text "[]") .bytes (.ofState 0)
  have configured := filter_writes_all_or_nothing Empty Nat (keeping (some .default) []) [] rfl 10
    (.text "[\x7b\"t\":\"Space\"\x7d]") .utf8 (.ofState 0)
  have walking : ((keeping (some .default) []).walk 10 (.text "[\x7b\"t\":\"Space\"\x7d]")).run (.ofState 0) =
      (.ok (.list ⟨0⟩), ⟨[], true, ⟨.ofElements [.mark .space] [[⟨0⟩]] [[]], 0⟩, []⟩) := by cbv
  refine ⟨wrong, (misconfigured.1 _ wrong).1,
    ⟨[], true, ⟨.ofElements [.mark .space] [[⟨0⟩]] [[]], 0⟩, [.text "[\x7b\"t\":\"Space\"\x7d]\n"]⟩, ?_, rfl⟩
  apply (configured.2.2.2 _ _).mpr
  exact ⟨.default, _, _, _, _, rfl, walking, rfl, rfl, rfl, ⟨rfl, _, rfl⟩, rfl, rfl⟩

/-- A program that is given a number with too many digits for an action fails before it opens the input, but does
not report the number as a wrong argument. -/
theorem long_number_unreported :
    ((⟨[.int Number.tooLong], [], .null, some .default, []⟩ : Pipe Empty Nat).filter 10 (.text "[]") .bytes).run
        (.ofState 0) = (.error (.filter .unprintable), .ofState 0) ∧
      ¬ (.filter .unprintable : Fault Empty Nat).IsConfiguration := by
  have settled : (⟨[.int Number.tooLong], [], .null, some .default, []⟩ : Pipe Empty Nat).settledOptions =
      .ok .default := rfl
  refine ⟨?_, nofun⟩
  rw [filter_run settled, run_bind, Pipe.walk, run_settled settled, walkUnder, run_bind,
    build_error (Filter.ofArguments_tooLong [])]
  rfl

end

end Pipe

end DocTree
