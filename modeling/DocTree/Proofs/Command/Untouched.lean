import DocTree.Proofs.Command.Endings
import DocTree.Proofs.Json.Scalars
import DocTree.Proofs.Outline.Lines
import DocTree.Proofs.Text.Utf8
/-!
What a command leaves that does not succeed. Nothing is written and no file has changed but the log file,
unless the output itself breaks off: it then holds what was written of it, which is less than a line, or
whole lines of an outline.
-/

namespace DocTree

namespace Encoding

theorem encodable_scalar (ts : List Text) : (encodable ts).1.Scalar := by
  induction ts with
  | nil => exact Text.scalar_nil
  | cons t rest ih =>
    rw [encodable]
    cases encoded : encodeUtf8 t with
    | error fault => exact Text.scalar_nil
    | ok bs => exact Text.scalar_append.mpr ⟨encodeUtf8_ok_iff.mp ⟨bs, encoded⟩, ih⟩

theorem encodable_cut {ts : List Text} {written : Text} {fault : EncodeFault}
    (cut : encodable ts = (written, some fault)) :
    ∃ before piece rest, ts = before ++ piece :: rest ∧ (∀ t ∈ before, t.Scalar) ∧
      encodeUtf8 piece = .error fault ∧ written = before.flatten := by
  induction ts generalizing written with
  | nil => cases cut
  | cons t rest ih =>
    rw [encodable] at cut
    cases encoded : encodeUtf8 t with
    | error fault' =>
      rw [encoded] at cut
      obtain ⟨rfl, same⟩ := Prod.mk.inj cut
      obtain rfl := Option.some.inj same
      exact ⟨[], t, rest, rfl, List.forall_mem_nil _, encoded, rfl⟩
    | ok bs =>
      rw [encoded] at cut
      dsimp only at cut
      obtain ⟨rfl, stopped⟩ := Prod.mk.inj cut
      obtain ⟨before, piece, after, rfl, fine, failed, more⟩ := ih (Prod.ext rfl stopped)
      refine ⟨t :: before, piece, after, rfl, ?_, failed, ?_⟩
      · exact List.forall_mem_cons.mpr ⟨encodeUtf8_ok_iff.mp ⟨bs, encoded⟩, fine⟩
      · exact congrArg (t ++ ·) more

theorem encodable_whole {ts : List Text} {written : Text} (whole : encodable ts = (written, none)) :
    written = ts.flatten := by
  induction ts generalizing written with
  | nil => exact (Prod.mk.inj whole).1.symm
  | cons t rest ih =>
    rw [encodable] at whole
    cases encoded : encodeUtf8 t with
    | error fault =>
      rw [encoded] at whole
      cases (Prod.mk.inj whole).2
    | ok bs =>
      rw [encoded] at whole
      obtain ⟨rfl, fine⟩ := Prod.mk.inj whole
      exact congrArg (t ++ ·) (ih (Prod.ext rfl fine))

end Encoding

namespace Command

variable {ε σ : Type}

section

variable [Versioning] [Stack] [Drawing]

/-- What has been written when the output breaks off. A tree that has no form in JSON leaves nothing, nor does a
walk without end, but for the lines of a plain outline: they are written as the nodes come, up to the first that
has no label. A drawing leaves what the library has written of it. Of any output, the pieces are left
before the first that has no bytes. -/
inductive CutOff (fuel : Nat) (a : Arguments) (options : Options) (root : Root) (s : Store) :
    Breakdown ε σ → Text → Prop
  | tree {fault : Codec.EncodeFault} (json : a.form = .json) (noForm : Codec.dump s root = .error fault) :
    CutOff fuel a options root s (.tree fault) []
  | endless (whole : a.form = .text ∨ a.form = .outline ∧ a.rich = true)
    (endless : Walk.completes fuel s root = false) : CutOff fuel a options root s .unfinished []
  | line {before rest : List (NodeId × Nat)} {entry : NodeId × Nat} {fault : Outline.Fault}
    (plain : a.form = .outline ∧ a.rich = false) (nodes : Walk.listing fuel s root = before ++ entry :: rest)
    (fine : ∀ earlier ∈ before, Outline.Labelled s earlier)
    (noLabel : Outline.labelled (s.element entry.1) = .error fault) :
    CutOff fuel a options root s (.outline fault) (Outline.linesWith s root before)
  | lines (plain : a.form = .outline ∧ a.rich = false)
    (fine : ∀ entry ∈ Walk.listing fuel s root, Outline.Labelled s entry)
    (endless : Walk.completes fuel s root = false) :
    CutOff fuel a options root s .unfinished (Outline.linesWith s root (Walk.listing fuel s root))
  | sketch {fault : Outline.Fault} {canvas : Drawing.Canvas} (rich : a.form = .outline ∧ a.rich = true)
    (noSketch : (Outline.sketch s (Outline.rootLabel s root) (Walk.listing fuel s root)).run Drawing.blank =
      (.error fault, canvas)) : CutOff fuel a options root s (.outline fault) []
  | drawing {top : Drawing.Branch} {branches : List Drawing.Branch} {canvas : Drawing.Canvas} {ts : List Text}
    {fault : Foreign} (rich : a.form = .outline ∧ a.rich = true)
    (sketched : (Outline.sketch s (Outline.rootLabel s root) (Walk.listing fuel s root)).run Drawing.blank =
      (.ok (top, branches), canvas)) (stopped : Drawing.print canvas top = (ts, some fault)) :
    CutOff fuel a options root s (.drawing fault) ts.flatten
  | encoding {before rest : List Text} {piece : Text} {fault : Encoding.EncodeFault}
    (made : (pieces fuel options a root s : Product ε σ).1 = before ++ piece :: rest)
    (fine : ∀ t ∈ before, t.Scalar) (noBytes : Encoding.encodeUtf8 piece = .error fault)
    (outlined : before = [] ∨ a.form = .outline) :
    CutOff fuel a options root s (.encoding fault (hintFor a)) before.flatten

variable {fuel : Nat} {a : Arguments} {options : Options} {root : Root} {s : Store}

theorem outline_cut {b : Breakdown ε σ} (plain : a.form = .outline ∧ a.rich = false)
    (broken : (outline fuel root s : Product ε σ).2 = some b) :
    CutOff fuel a options root s b (outline fuel root s : Product ε σ).1.flatten := by
  unfold outline at broken ⊢
  rcases Outline.linesOf_cases s (Walk.listing fuel s root) with
    ⟨fine, whole⟩ | ⟨before, entry, rest, fault, nodes, fine, noLabel, cut⟩
  · rw [whole] at broken ⊢
    cases complete : Walk.completes fuel s root with
    | true =>
      rw [complete] at broken
      cases broken
    | false =>
      rw [complete] at broken
      cases broken
      exact .lines plain fine complete
  · rw [cut] at broken ⊢
    cases broken
    exact .line plain nodes fine noLabel

theorem drawing_cut {b : Breakdown ε σ} (rich : a.form = .outline ∧ a.rich = true)
    (broken : (drawing fuel root s : Product ε σ).2 = some b) :
    CutOff fuel a options root s b (drawing fuel root s : Product ε σ).1.flatten := by
  unfold drawing at broken ⊢
  split at broken
  · next fault canvas noSketch =>
    cases broken
    exact .sketch rich noSketch
  · next top branches canvas sketched =>
    cases complete : Walk.completes fuel s root with
    | true =>
      rw [complete, if_pos rfl] at broken
      rw [if_pos rfl]
      cases stopped : Drawing.print canvas top with
      | mk ts fault =>
        rw [stopped] at broken
        obtain ⟨fault, rfl, rfl⟩ := Option.map_eq_some_iff.mp broken
        exact .drawing rich sketched stopped
    | false =>
      rw [complete, if_neg Bool.false_ne_true] at broken
      rw [if_neg Bool.false_ne_true]
      cases broken
      exact .endless (.inr rich) complete

theorem pieces_cut {b : Breakdown ε σ} (broken : (pieces fuel options a root s : Product ε σ).2 = some b) :
    CutOff fuel a options root s b (pieces fuel options a root s : Product ε σ).1.flatten := by
  unfold pieces at broken ⊢
  cases form : a.form with
  | text =>
    rw [form] at broken
    cases complete : Walk.completes fuel s root with
    | true => simp [plainText, complete] at broken
    | false =>
      simp only [plainText, complete, Bool.false_eq_true, if_false] at broken ⊢
      cases broken
      exact .endless (.inl form) complete
  | outline =>
    rw [form] at broken
    cases rich : a.rich with
    | false =>
      rw [rich] at broken
      exact outline_cut ⟨form, rich⟩ broken
    | true =>
      rw [rich] at broken
      exact drawing_cut ⟨form, rich⟩ broken
  | json =>
    rw [form] at broken
    cases dumped : Codec.dump s root with
    | ok j => simp [json, dumped] at broken
    | error fault =>
      simp only [json, dumped] at broken ⊢
      cases broken
      exact .tree form dumped

/-- Only an outline has several pieces. -/
theorem pieces_outlined {before rest : List Text} {piece : Text}
    (made : (pieces fuel options a root s : Product ε σ).1 = before ++ piece :: rest) :
    before = [] ∨ a.form = .outline := by
  have single {ts : List Text} (few : ts.length ≤ 1) (same : ts = before ++ piece :: rest) : before = [] := by
    have length := congrArg List.length same
    rw [List.length_append, List.length_cons] at length
    exact List.length_eq_zero_iff.mp (by omega)
  unfold pieces at made
  cases form : a.form with
  | outline => exact .inr rfl
  | text =>
    have few : (plainText fuel root s : Product ε σ).1.length ≤ 1 := by
      unfold plainText
      split <;> simp
    rw [form] at made
    exact .inl (single few made)
  | json =>
    have few : (json options root s : Product ε σ).1.length ≤ 1 := by
      unfold json
      split <;> simp
    rw [form] at made
    exact .inl (single few made)

end

/-- Nothing has been written, and no file has changed but the log file. -/
def Untouched (a : Arguments) (d after : Desk σ) : Prop :=
  after.output = d.output ∧ d.folder.SameBut (a.logPlaces d.folder) after.folder

/-- A text has been written to the place of the output and to no other: after what was there, if that is
standard output, and in the stead of what was there, if it is a file. -/
def Holds (a : Arguments) (d after : Desk σ) (written : Text) : Prop :=
  match a.out.bind Given.name? with
  | none => after.output = d.output ++ written ∧ d.folder.SameBut (a.logPlaces d.folder) after.folder
  | some name => ∃ place bytes, d.folder.target name = .ok place ∧ Encoding.encodeUtf8 written = .ok bytes ∧
    after.output = d.output ∧ d.folder.SameBut (place :: a.logPlaces d.folder) after.folder ∧
    after.folder.file? place = some bytes

section

variable {a : Arguments} {d before after : Desk σ}

theorem untouched_iff : Untouched a d after ↔ after.seen (a.logPlaces d.folder) = d.seen (a.logPlaces d.folder) :=
  Desk.seen_iff.symm

theorem holds_standard (standard : a.out.bind Given.name? = none) (untouched : Untouched a d before)
    (written : Text) : Holds a d (before.write .standard written) written := by
  rw [Holds, standard]
  refine ⟨?_, untouched.2⟩
  rw [← untouched.1]
  rfl

theorem holds_file {name written : Text} {place : Path} {bytes : Bytes}
    (named : a.out.bind Given.name? = some name) (leads : before.folder.target name = .ok place)
    (untouched : Untouched a d before) (output : after.output = before.output)
    (same : before.folder.SameBut [place] after.folder) (encoded : Encoding.encodeUtf8 written = .ok bytes)
    (content : after.folder.file? place = some bytes) : Holds a d after written := by
  obtain ⟨kept, steady⟩ := untouched
  rw [Holds, named]
  refine ⟨place, bytes, ?_, encoded, output.trans kept, ?_, content⟩
  · have target := steady.target name
    rw [leads] at target
    cases found : d.folder.target name with
    | error fault =>
      rw [found] at target
      cases target
    | ok place' =>
      rw [found] at target
      rw [Option.some.inj target]
  · refine (steady.more fun p member => List.mem_cons_of_mem place member).trans (same.more fun p member => ?_)
    exact List.mem_cons.mpr (.inl (List.mem_singleton.mp member))

variable [Versioning] [Stack] [Drawing] (fuel : Nat) (options : Options) (root : Root) (s : Store)

theorem opened_leaves {opened : Desk σ} {sink : Sink}
    (isOpen : (openSink a : Running ε σ Sink).run before = (.ok sink, opened))
    (holds : ∀ written, written.Scalar → Holds a d (opened.write sink written) written)
    {result : Except (Ending ε σ) Unit}
    (ran : (writeTree fuel options a root s : Running ε σ Unit).run before = (result, after)) :
    result = .ok () ∨ ∃ b written, result = .error (.broken b) ∧
      CutOff fuel a options root s b written ∧ Holds a d after written := by
  rw [writeTree_opened isOpen] at ran
  have scalar := Encoding.encodable_scalar (pieces fuel options a root s : Product ε σ).1
  cases split : Encoding.encodable (pieces fuel options a root s : Product ε σ).1 with
  | mk written fault =>
    rw [split] at ran scalar
    cases fault with
    | some fault =>
      obtain ⟨rfl, rfl⟩ := Prod.mk.inj ran
      obtain ⟨front, piece, rest, made, fine, noBytes, rfl⟩ := Encoding.encodable_cut split
      exact .inr ⟨_, _, rfl, .encoding made fine noBytes (pieces_outlined made), holds _ scalar⟩
    | none =>
      dsimp only at ran
      cases broken : (pieces fuel options a root s : Product ε σ).2 with
      | none =>
        rw [broken] at ran
        exact .inl (Prod.mk.inj ran).1.symm
      | some b =>
        rw [broken] at ran
        obtain ⟨rfl, rfl⟩ := Prod.mk.inj ran
        obtain rfl := Encoding.encodable_whole split
        exact .inr ⟨b, _, rfl, pieces_cut broken, holds _ scalar⟩

theorem writeTree_leaves (untouched : Untouched a d before) {result : Except (Ending ε σ) Unit}
    (ran : (writeTree fuel options a root s : Running ε σ Unit).run before = (result, after)) :
    result = .ok () ∨ Untouched a d after ∨ ∃ b written, result = .error (.broken b) ∧
      CutOff fuel a options root s b written ∧ Holds a d after written := by
  rcases openSink_cases (ε := ε) a before with
    ⟨standard, isOpen⟩ | ⟨name, fault, -, -, failed⟩ | ⟨name, place, named, leads, isOpen⟩
  · -- Standard output goes on from what it has.
    have holds (written : Text) (_ : written.Scalar) : Holds a d (before.write .standard written) written :=
      holds_standard standard untouched written
    exact (opened_leaves fuel options root s isOpen holds ran).imp_right .inr
  · -- A place that cannot be opened is left as it is.
    rw [writeTree_unopened failed] at ran
    obtain ⟨rfl, rfl⟩ := Prod.mk.inj ran
    exact .inr (.inl untouched)
  · -- A file is emptied first, so that it holds what is written and no more.
    have emptied := before.folder.put_sameBut ([] : Bytes) (List.mem_singleton_self place)
    have holds (written : Text) (scalar : written.Scalar) : Holds a d
        (({ before with folder := before.folder.put place [] } : Desk σ).write (.file place) written) written := by
      obtain ⟨bytes, encoded⟩ := Encoding.encodeUtf8_ok_iff.mpr scalar
      refine holds_file named leads untouched rfl ?_ encoded ?_
      · exact emptied.trans (Folder.append_sameBut _ _ (List.mem_singleton_self place))
      · simp [Desk.write, encoded, Except.toOption]
    exact (opened_leaves fuel options root s isOpen holds ran).imp_right .inr

end

section

attribute [local instance] Versioning.ofClauses Stack.unbounded Branches.drawing

def oldFolder : Folder := ⟨[], [], [(["out.json"], [0x6F, 0x6C, 0x64])]⟩

def surrogateText : Text := "\x7b\"t\":\"Str\",\"c\":\"\\ud800\"\x7d"

def surrogateLink : Text :=
  "[\x7b\"t\":\"Link\",\"c\":[[\"\",[],[]],[],[\"\\ud800\",\"\"]]\x7d]"

def loggedArguments : Arguments :=
  { plainArguments standardInput (some (.text "x")) .json with logFile := some (.text "x") }

theorem configure_logged : (configure [] loggedArguments : Running Empty Nat (Log × Options)).run (deskOf "1") =
    (.ok (⟨Log.warning, some ["x"]⟩, .default), deskIn ⟨[], [], [(["x"], [])]⟩ "1") := by
  have opened : (openLog [] loggedArguments : Running Empty Nat Log).run (deskOf "1") =
      (.ok ⟨Log.warning, some ["x"]⟩, deskIn ⟨[], [], [(["x"], [])]⟩ "1") := by cbv
  have settled : (settle ⟨Log.warning, some ["x"]⟩ [] loggedArguments : Running Empty Nat Options).run
      (deskIn ⟨[], [], [(["x"], [])]⟩ "1") = (.ok .default, deskIn ⟨[], [], [(["x"], [])]⟩ "1") := rfl
  rw [configure, run_bind, opened]
  dsimp only
  rw [run_bind, settled]
  rfl

end

end Command

end DocTree
