import DocTree.Outline.Branches
import DocTree.Proofs.Command.Parts
import DocTree.Proofs.Filter.InTurn
import DocTree.Proofs.Pipe.Writing
/-!
The command as a filter program. With JSON output it writes what the program writes whose filter has the
actions of all its filters, in their order: these are applied in turn, with the one metadata mapping that
the document has.
-/

namespace DocTree

namespace Command

variable {ε σ : Type}

/-- A part of the command that gives a value, and changes the desk in no more than messages, files and
the state of the actions. -/
def RunsTo {α : Type} (x : Running ε σ α) (d : Desk σ) (a : α) (state : σ) : Prop :=
  ∃ d', x.run d = (.ok a, d') ∧ d'.output = d.output ∧ d'.state = state

theorem RunsTo.bind {α β : Type} {x : Running ε σ α} {f : α → Running ε σ β} {d : Desk σ} {a : α} {b : β}
    {state state' : σ} (first : RunsTo x d a state)
    (later : ∀ d', d'.state = state → RunsTo (f a) d' b state') : RunsTo (x >>= f) d b state' := by
  obtain ⟨d', ran, output, isState⟩ := first
  obtain ⟨d'', ranToo, outputToo, isState'⟩ := later d' isState
  exact ⟨d'', by rw [run_bind, ran]; exact ranToo, outputToo.trans output, isState'⟩

theorem RunsTo.from_get {α : Type} {f : Desk σ → Running ε σ α} {d : Desk σ} {a : α} {state : σ}
    (ran : RunsTo (f d) d a state) : RunsTo (get >>= f) d a state := ran

theorem RunsTo.after_set {α : Type} {f : PUnit → Running ε σ α} {d d' : Desk σ} {a : α} {state : σ}
    (same : d'.output = d.output) (ran : RunsTo (f ⟨⟩) d' a state) : RunsTo (set d' >>= f) d a state := by
  obtain ⟨d'', ran, output, isState⟩ := ran
  exact ⟨d'', ran, output.trans same, isState⟩

theorem Desk.note_state (log : Log) (level : Int) (message : Text) (d : Desk σ) :
    (d.note log level message).state = d.state := by
  unfold Desk.note
  split
  · rfl
  · cases log.file <;> rfl

theorem note_runsTo (log : Log) (level : Int) (message : Text) (d : Desk σ) :
    RunsTo (note log level message : Running ε σ Unit) d () d.state :=
  ⟨_, rfl, Desk.note_output log level message d, Desk.note_state log level message d⟩

theorem notePasses_runsTo (log : Log) (number : Nat) (handlers : List (Handler (Action ε σ))) (d : Desk σ) :
    RunsTo (notePasses log number handlers) d () d.state := by
  induction handlers generalizing number d with
  | nil => exact ⟨d, rfl, rfl, rfl⟩
  | cons h rest ih =>
    refine (note_runsTo log _ _ d).bind fun d' same => ?_
    rw [← same]
    exact ih (number + 1) d'

open DocTree.Filter (Shares)

variable [Versioning] {fuel : Nat} {log : Log} {options : Options} {root : Root}

theorem applyFilter_runsTo {f : Filter (Action ε σ)} {s : Store} {d : Desk σ} {w : World σ}
    (applied : f.apply fuel root options.format none ⟨s, d.state⟩ = (.ok (), w)) :
    RunsTo (applyFilter fuel log options root f s) d w.store w.state := by
  refine (note_runsTo log _ _ d).bind fun d' same => ?_
  refine .from_get ?_
  rw [same, applied]
  refine .after_set rfl ?_
  exact (notePasses_runsTo log 1 _ _).bind fun d'' same => ⟨d'', rfl, rfl, same⟩

theorem applyFilters_runsTo {filters : List (Text × Filter (Action ε σ))} {count number : Nat} {s : Store}
    {d : Desk σ} {w : World σ}
    (shares : Shares fuel root options.format none (filters.flatMap (·.2.handlers)) (⟨s, d.state⟩ : World σ))
    (applied : Filter.apply fuel ⟨filters.flatMap (·.2.handlers)⟩ root options.format none ⟨s, d.state⟩ =
      (.ok (), w)) :
    RunsTo (applyFilters fuel log options root count number filters s) d w.store w.state := by
  induction filters generalizing number s d with
  | nil =>
    cases (Filter.apply_nil (f := ⟨[]⟩) shares).symm.trans applied
    exact ⟨d, rfl, rfl, rfl⟩
  | cons first rest ih =>
    obtain ⟨reference, f⟩ := first
    let others : Filter (Action ε σ) := ⟨rest.flatMap (·.2.handlers)⟩
    have inTurn : Filter.applyInTurn fuel f others root options.format none ⟨s, d.state⟩ = (.ok (), w) :=
      (Filter.apply_append (Shares.first (g := others) shares)).symm.trans applied
    obtain ⟨w₁, own, later⟩ := Filter.applyInTurn_ok inTurn
    have next : Shares fuel root options.format none others.handlers w₁ := Shares.next (g := others) shares own
    refine (note_runsTo log _ _ d).bind fun d' same => ?_
    refine (applyFilter_runsTo (same ▸ own)).bind fun d'' same' => ?_
    exact ih (same' ▸ next) (same' ▸ later)

end Command

namespace Pipe

variable [Versioning] [Stack] {ε σ : Type}

/-- The text that a program ends with if it comes to this tree. -/
def sent (options : Options) (s : Store) (root : Root) : Except (Fault ε σ) Text := do
  let _ ← (Codec.dump s root).mapError .tree
  (·.1) <$> delivery options .bytes (s.tree root)

variable {fuel : Nat} {p : Pipe ε σ} {input : Input} {options : Options} {f : Filter (Action ε σ)}
  {root : Root} {s : Store} {state : σ} {w : World σ}

theorem walkUnder_run (made : Filter.ofActions p.arguments = pure f)
    (loaded : input.load options .empty = .ok (root, s))
    (applied : f.apply fuel root (p.settledFormat options) none ⟨s, state⟩ = (.ok (), w)) :
    (walkUnder fuel p options input).run (.ofState state) = (.ok root, ⟨[], true, w, []⟩) := by
  have built : p.build.run (.ofState state) = (.ok f, .ofState state) := by
    have filter : (Filter.ofArguments p.arguments).run [] = (.ok f, []) := by
      rw [Filter.ofArguments_eq made]
      rfl
    change p.build (.ofState state) = _
    rw [Pipe.build, show (Progress.ofState state).warnings = [] from rfl, filter]
    rfl
  have isRead : (readTree options input : Running ε σ Root).run (.ofState state) =
      (.ok root, ⟨[], true, ⟨s, state⟩, []⟩) := by
    change (running ((input.load options .empty).mapError .input) >>= fun read => do
      modify fun progress => { progress with world := { progress.world with store := read.2 } }
      return read.1 : Running ε σ Root).run ⟨[], true, ⟨.empty, state⟩, []⟩ = _
    rw [loaded]
    rfl
  have filtered : (filterTree fuel f root (p.settledFormat options)).run ⟨[], true, ⟨s, state⟩, []⟩ =
      (.ok (), ⟨[], true, w, []⟩) := by
    simp only [filterTree, ExceptT.run, applied]
    rfl
  rw [walkUnder, run_bind, built]
  dsimp only
  rw [run_bind, isRead]
  dsimp only
  rw [run_bind, filtered]
  rfl

theorem send_gives (options : Options) (root : Root) (progress : Progress σ) :
    ((send options .bytes root : Running ε σ Text).run progress).1 = sent options progress.world.store root := by
  cases dumped : Codec.dump progress.world.store root with
  | error fault =>
    rw [send_of_error dumped, sent, dumped]
    rfl
  | ok j =>
    rw [send_of_ok dumped, write_run, sent, dumped]
    cases delivery options .bytes (progress.world.store.tree root) <;> rfl

theorem filter_gives (settled : p.settledOptions = .ok options) (made : Filter.ofActions p.arguments = pure f)
    (loaded : input.load options .empty = .ok (root, s))
    (applied : f.apply fuel root (p.settledFormat options) none ⟨s, state⟩ = (.ok (), w)) :
    ((p.filter fuel input .bytes).run (.ofState state)).1 = sent options w.store root := by
  rw [Pipe.filter, run_settled settled, run_bind, walkUnder_run made loaded applied]
  exact send_gives _ _ _

end Pipe

namespace Command

variable {ε σ : Type}

section

variable [Versioning] [Stack] [Drawing]

/-- Once the place of its output is open, the command writes there what the program gives. -/
theorem writeTree_run (fuel : Nat) (options : Options) {a : Arguments} (json : a.form = .json) (root : Root)
    (s : Store) {d d' : Desk σ} {sink : Sink} (opened : (openSink a : Running ε σ Sink).run d = (.ok sink, d')) :
    match (Pipe.sent options s root : Except (Pipe.Fault ε σ) Text) with
    | .ok text => (writeTree fuel options a root s : Running ε σ Unit).run d = (.ok (), d'.write sink text)
    | .error _ => ∃ b, (writeTree fuel options a root s : Running ε σ Unit).run d = (.error (.broken b), d') ∨
        (writeTree fuel options a root s : Running ε σ Unit).run d = (.error (.broken b), d'.write sink []) := by
  have ran : (writeTree fuel options a root s : Running ε σ Unit).run d = _ := writeTree_opened opened
  have form : (pieces fuel options a root s : Product ε σ) = Command.json options root s := by
    rw [pieces, json]
  rw [form, Command.json] at ran
  rw [Pipe.sent]
  cases dumped : Codec.dump s root with
  | error fault =>
    rw [dumped] at ran
    exact ⟨.tree fault, .inr ran⟩
  | ok j =>
    have line : Codec.line options (s.tree root) = .ok (j.write options.writesAscii ++ "\n") :=
      Pipe.line_eq_ok_iff.mpr ⟨j, Store.encodeFrom_ok (Codec.dump_ok dumped).1, rfl⟩
    have given : (·.1) <$> (Pipe.delivery options .bytes (s.tree root) : Except (Pipe.Fault ε σ) _) =
        ((Encoding.encodeUtf8 (j.write options.writesAscii ++ "\n")).mapError .encoding).map
          fun _ => j.write options.writesAscii ++ "\n" := by
      rw [Pipe.delivery_of_line line, Pipe.deliver]
      cases Encoding.encodeUtf8 (j.write options.writesAscii ++ "\n") <;> rfl
    rw [dumped] at ran
    simp only [encodable_line] at ran
    simp only [Except.mapError, bind, Except.bind, given]
    cases encoded : Encoding.encodeUtf8 (j.write options.writesAscii ++ "\n") with
    | ok bytes =>
      rw [encoded] at ran
      exact ran
    | error fault =>
      rw [encoded] at ran
      exact ⟨_, .inr ran⟩

end

section

variable [Versioning] [Stack]

/-- A command line that gets as far as its filters, and is to write JSON. -/
structure Ready (c : Catalogue (Action ε σ)) (env : Environment) (words : List Text) (d : Desk σ) where
  arguments : Arguments
  plan : Plan ε σ
  desk : Desk σ
  read : Arguments.read words = .ok arguments
  json : arguments.form = .json
  prepared : (prepare c env arguments).run d = (.ok plan, desk)

namespace Ready

variable {c : Catalogue (Action ε σ)} {env : Environment} {words : List Text} {d : Desk σ}

def handlers (r : Ready c env words d) : List (Handler (Action ε σ)) := r.plan.filters.flatMap (·.2.handlers)

def root (r : Ready c env words d) : Root := r.plan.root

def world (r : Ready c env words d) : World σ := ⟨r.plan.store, r.desk.state⟩

/-- A program with the actions of all filters, and with the same format, options and document. -/
structure Program (r : Ready c env words d) where
  pipe : Pipe ε σ
  input : Input
  actions : Filter.ofActions pipe.arguments = pure ⟨r.handlers⟩
  options : pipe.settledOptions = .ok r.plan.options
  format : pipe.settledFormat r.plan.options = r.plan.options.format
  read : input.load r.plan.options .empty = .ok (r.plan.root, r.plan.store)

theorem program (r : Ready c env words d) : Nonempty r.Program := by
  obtain ⟨input, isRead⟩ := prepare_ok r.prepared
  refine ⟨⟨⟨r.handlers.map .handler, [], .null, some r.plan.options, env⟩, input, ?_, rfl, rfl, isRead⟩⟩
  exact Filter.ofActions_handlers r.handlers

def Program.result {r : Ready c env words d} (p : r.Program) (fuel : Nat) : Except (Pipe.Fault ε σ) Text :=
  ((p.pipe.filter fuel p.input .bytes).run (.ofState r.desk.state)).1

variable [Drawing]

theorem run_eq (r : Ready c env words d) {fuel : Nat} {w : World σ}
    (shares : Filter.Shares fuel r.root r.plan.options.format none r.handlers r.world)
    (applied : Filter.apply fuel ⟨r.handlers⟩ r.root r.plan.options.format none r.world = (.ok (), w)) :
    ∃ d₁ : Desk σ, d₁.output = d.output ∧ d₁.state = w.state ∧
      run fuel c env words d =
        concluded ((writeTree fuel r.plan.options r.arguments r.root w.store : Running ε σ Unit).run d₁) := by
  have kept := prepare_seen c env r.arguments d
  rw [r.prepared] at kept
  have finished : RunsTo (r.plan.filtered fuel) r.desk w.store w.state := applyFilters_runsTo shares applied
  obtain ⟨d₁, filtered, output, state⟩ := finished
  refine ⟨d₁, output.trans (Desk.seen_iff.mp kept).1, state, ?_⟩
  have performed : (perform fuel c env r.arguments).run d =
      (writeTree fuel r.plan.options r.arguments r.root w.store : Running ε σ Unit).run d₁ := by
    rw [perform_eq, run_bind, r.prepared]
    dsimp only
    rw [run_bind, filtered]
    rfl
  rw [run_read fuel c env r.read, performed]

/-- A command that puts in the place of its output what a program gives, and nothing if that is nothing. -/
def Writes (r : Ready c env words d) (given : Except (Pipe.Fault ε σ) Text) (before : Desk σ)
    (ended : Ending ε σ × Desk σ) : Prop :=
  match (openSink r.arguments : Running ε σ Sink).run before with
  | (.error ending, d') => ended = (ending, d')
  | (.ok sink, d') => match given with
    | .ok text => ended = (.exit success, d'.write sink text)
    | .error _ => ∃ b, ended = (.broken b, d') ∨ ended = (.broken b, d'.write sink [])

theorem run_writes (r : Ready c env words d) (p : r.Program) {fuel : Nat} {w : World σ}
    (shares : Filter.Shares fuel r.root r.plan.options.format none r.handlers r.world)
    (applied : Filter.apply fuel ⟨r.handlers⟩ r.root r.plan.options.format none r.world = (.ok (), w)) :
    ∃ before : Desk σ, before.output = d.output ∧ before.state = w.state ∧
      r.Writes (p.result fuel) before (run fuel c env words d) := by
  obtain ⟨before, output, state, ended⟩ := r.run_eq shares applied
  refine ⟨before, output, state, ?_⟩
  have result : p.result fuel = Pipe.sent r.plan.options w.store r.root :=
    Pipe.filter_gives p.options p.actions p.read (p.format.symm ▸ applied)
  rw [ended, result, Writes]
  cases opened : (openSink r.arguments : Running ε σ Sink).run before with
  | mk sink d' =>
    cases sink with
    | error ending =>
      rw [writeTree, run_bind, opened]
      rfl
    | ok sink =>
      have written := writeTree_run fuel r.plan.options r.json r.root w.store opened
      dsimp only
      cases given : (Pipe.sent r.plan.options w.store r.root : Except (Pipe.Fault ε σ) Text) with
      | ok text =>
        rw [given] at written
        rw [written]
        rfl
      | error fault =>
        rw [given] at written
        obtain ⟨b, whole | none⟩ := written
        · exact ⟨b, .inl (by rw [whole]; rfl)⟩
        · exact ⟨b, .inr (by rw [none]; rfl)⟩

end Ready

variable [Drawing]

/-- Filters compose. A filter that has the actions of two others makes the same calls as the one and, if
that comes to its end, the other, and leaves the same tree with the same error. The calls are those that
the filter notes which is made to note them. Hence a command that writes JSON writes what the program
gives that has the actions of all its filters. -/
theorem applications_compose (ε σ : Type) :
    (∀ (actions others : List (Value (Action ε σ))) (f g : Filter (Action ε σ)),
      Filter.ofActions actions = pure f → Filter.ofActions others = pure g →
      Filter.ofActions (actions ++ others) = pure ⟨f.handlers ++ g.handlers⟩ ∧
      ∀ (root : Root) (format : Json) (metadata : Option MappingId) (fuel : Nat) (w : World σ),
        Filter.Shares fuel root format metadata f.handlers w →
        Filter.apply fuel ⟨f.handlers ++ g.handlers⟩ root format metadata w =
          Filter.applyInTurn fuel f g root format metadata w ∧
        (Filter.noted ⟨f.handlers ++ g.handlers⟩).apply fuel root format metadata (w.noting []) =
          Filter.applyInTurn fuel f.noted g.noted root format metadata (w.noting [])) ∧
    (∀ (f : Filter (Action ε σ)) (root : Root) (format : Json) (metadata : Option MappingId) (fuel : Nat)
        (w : World σ) (calls : List (Filter.Call ε σ)),
      Matches (fun state noted => noted.1 = state) (f.apply fuel root format metadata w)
        (f.noted.apply fuel root format metadata (w.noting calls))) ∧
    (∀ (f : Filter (Action ε σ)) (document : NodeId) (own : MappingId) (format : Json)
        (metadata : Option MappingId) (fuel : Nat) (w : World σ),
      w.store.metadata? document = some own → (∀ h ∈ f.handlers, h.LeavesMetadata document own) →
      Filter.Shares fuel (.node document) format metadata f.handlers w) ∧
    ∀ (c : Catalogue (Action ε σ)) (env : Environment) (words : List Text) (d : Desk σ)
        (r : Ready c env words d), Nonempty r.Program ∧
      ∀ (p : r.Program) (fuel : Nat) (w : World σ),
        Filter.Shares fuel r.root r.plan.options.format none r.handlers r.world →
        Filter.apply fuel ⟨r.handlers⟩ r.root r.plan.options.format none r.world = (.ok (), w) →
        ∃ before : Desk σ, before.output = d.output ∧ before.state = w.state ∧
          r.Writes (p.result fuel) before (run fuel c env words d) := by
  refine ⟨?_, ?_, ?_, ?_⟩
  · intro actions others f g made madeToo
    refine ⟨Filter.ofActions_append made madeToo, ?_⟩
    intro root format metadata fuel w shares
    constructor
    · exact Filter.apply_append shares
    · rw [Filter.noted_append]
      exact Filter.apply_append (shares.noted [])
  · intro f root format metadata fuel w calls
    exact Filter.apply_noted fuel f root format metadata w calls
  · intro f document own format metadata fuel w isDocument leave
    exact Filter.Shares.of_leaves isDocument leave
  · intro c env words d r
    refine ⟨r.program, ?_⟩
    intro p fuel w shares applied
    exact r.run_writes p shares applied

end

section

attribute [local instance] Versioning.ofClauses Stack.unbounded Branches.drawing

def marking : Callable (Action Empty Nat) where
  shown := "mark"
  typeName := "function"
  act
    | .plain _ metadata, n => .ofFunction fun w =>
      (.ok .keep, ⟨w.store.setMapping metadata ((w.store.mapping metadata).put "last" n), w.state⟩)
    | .byKind, _ => return .keep

def counting : Callable (Action Empty Nat) where
  shown := "count"
  typeName := "function"
  act
    | .plain _ metadata, _ => .ofFunction fun w =>
      (.ok .keep, ⟨w.store, w.state + (w.store.mapping metadata).length⟩)
    | .byKind, _ => return .keep

theorem marking_leaves (document : NodeId) (metadata : MappingId) :
    (Handler.plain marking).LeavesMetadata document metadata := by
  intro occasion n w kept
  cases occasion with
  | plain format own => exact Store.metadata?_of_elements ⟨rfl, rfl⟩ kept
  | byKind => exact kept

theorem counting_leaves (document : NodeId) (metadata : MappingId) :
    (Handler.plain counting).LeavesMetadata document metadata := by
  intro occasion n w kept
  cases occasion <;> exact kept

def ruled : Tree := .node (.mk (.document [1, 23] [] [.mk (.mark .horizontalRule)]))

def ruledText : Text :=
  "\x7b\"pandoc-api-version\":[1,23],\"meta\":\x7b\x7d,\"blocks\":[\x7b\"t\":\"HorizontalRule\"\x7d]\x7d"

def markedText : Text :=
  "\x7b\"pandoc-api-version\":[1,23],\"meta\":\x7b\"last\":\x7b\"t\":\"HorizontalRule\"\x7d\x7d,\"blocks\":[\x7b\"t\":\"HorizontalRule\"\x7d]\x7d\n"

def ruledDesk : Desk Nat := ⟨⟨[], [], []⟩, (Encoding.encodeUtf8 ruledText).toOption.getD [], [], [], 0⟩

def markArguments : Arguments :=
  { Arguments.default with filters := [.text "marks:mark", .text "marks:count"] }

def markPlan : Plan Empty Nat :=
  ⟨⟨Log.warning, none⟩, .default,
    [("marks:mark", ⟨[.plain marking]⟩), ("marks:count", ⟨[.plain counting]⟩)],
    (Store.loadTree ruled .empty).1, (Store.loadTree ruled .empty).2⟩

def markCatalogue : Catalogue (Action Empty Nat) where
  modules := [⟨"marks", [("mark", .handler (.plain marking)), ("count", .handler (.plain counting))]⟩]
  scripts := []
  inert := fun _ _ => return .keep

theorem mark_prepared : (prepare markCatalogue [] markArguments).run ruledDesk =
    (.ok markPlan, { ruledDesk with input := ([] : Bytes) }) := by
  have opened : (openLog [] markArguments : Running Empty Nat Log).run ruledDesk =
      (.ok markPlan.log, ruledDesk) := by cbv
  have settled : (settle markPlan.log [] markArguments : Running Empty Nat Options).run ruledDesk =
      (.ok .default, ruledDesk) := rfl
  have loaded : (markArguments.filters.mapM (loadFilter markPlan.log markCatalogue)).run ruledDesk =
      (.ok markPlan.filters, ruledDesk) := rfl
  have isRead : (readTree markPlan.log .default markArguments : Running Empty Nat (Root × Store)).run ruledDesk =
      (.ok (Store.loadTree ruled .empty), { ruledDesk with input := ([] : Bytes) }) := by cbv
  simp only [prepare, run_bind, opened, settled, loaded, isRead]
  rfl

def markReady : Ready markCatalogue [] ["-f", "marks:mark", "-f", "marks:count"] ruledDesk where
  arguments := markArguments
  plan := markPlan
  desk := { ruledDesk with input := ([] : Bytes) }
  read := by cbv
  json := rfl
  prepared := mark_prepared

def markProgram : markReady.Program where
  pipe := ⟨[.handler (.plain marking), .handler (.plain counting)], [], .null, some .default, []⟩
  input := .text ruledText
  actions := rfl
  options := rfl
  format := rfl
  read := by cbv

/-- The rule is noted at the first pass and counted at the second, where the walk comes to the metadata
as well. -/
theorem ruled_marked_and_counted :
    (∀ h ∈ markReady.handlers, h.LeavesMetadata ⟨1⟩ ⟨0⟩) ∧
    Filter.Shares 40 markReady.root (.str []) none markReady.handlers markReady.world ∧
    Filter.apply 40 ⟨[.plain marking] ++ [.plain counting]⟩ markReady.root (.str []) none markReady.world =
      Filter.applyInTurn 40 ⟨[.plain marking]⟩ ⟨[.plain counting]⟩ markReady.root (.str []) none
        markReady.world ∧
    markProgram.result 40 = .ok markedText ∧
    ∃ before : Desk Nat, before.output = [] ∧ before.state = 2 ∧
      run 40 markCatalogue [] ["-f", "marks:mark", "-f", "marks:count"] ruledDesk =
        (.exit success, before.write .standard markedText) := by
  have leave : ∀ h ∈ markReady.handlers, h.LeavesMetadata ⟨1⟩ ⟨0⟩ :=
    List.forall_mem_cons.mpr ⟨marking_leaves _ _, List.forall_mem_singleton.mpr (counting_leaves _ _)⟩
  have composed := applications_compose Empty Nat
  obtain ⟨inTurn, -, shared, written⟩ := composed
  have shares : Filter.Shares 40 markReady.root (.str []) none markReady.handlers markReady.world :=
    shared ⟨markReady.handlers⟩ ⟨1⟩ ⟨0⟩ (.str []) none 40 markReady.world rfl leave
  have applied : Filter.apply 40 ⟨markReady.handlers⟩ markReady.root (.str []) none markReady.world =
      (.ok (), ⟨markReady.world.store.setMapping ⟨0⟩ [("last", ⟨0⟩)], 2⟩) := by cbv
  have result : markProgram.result 40 = .ok markedText := by cbv
  refine ⟨leave, shares, ?_, result, ?_⟩
  · have made (c : Callable (Action Empty Nat)) : Filter.ofActions [.handler (.plain c)] = pure ⟨[.plain c]⟩ := rfl
    have first := Filter.Shares.first (f := ⟨[.plain marking]⟩) (g := ⟨[.plain counting]⟩) shares
    exact ((inTurn _ _ _ _ (made marking) (made counting)).2 markReady.root (.str []) none 40 _ first).1
  · obtain ⟨before, output, state, ended⟩ :=
      (written _ _ _ _ markReady).2 markProgram 40 _ shares applied
    refine ⟨before, output, state, ?_⟩
    rw [result] at ended
    exact ended

end

end Command

end DocTree
