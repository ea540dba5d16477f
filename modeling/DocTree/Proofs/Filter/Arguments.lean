import DocTree.Proofs.Filter.Idle
import DocTree.Proofs.Filter.Key
import DocTree.Proofs.Number.Digits
import DocTree.Proofs.Stateful
import Mathlib.Data.List.Forall2
/-!
Filters of arguments. The form of the arguments decides whether they are keys with actions or actions alone,
and then each of them is looked at in turn: all are fit, and they make the filter, or the first that is not
is reported. The report shows the value, and so there is none of a value with a number in it that has too many
digits to be written.
-/

namespace DocTree

namespace Filter

namespace Fault

variable {β : Type} {name : Text} {v : Value β}

def InParameter (fault : Fault β) : Prop := fault.parameter?.isSome

/-- The fault of a value of some parameter is known by both, unless there is no text for the value. -/
def About (name : Text) (v : Value β) (fault : Fault β) : Prop :=
  if v.isPrintable then fault.parameter? = some (name, v) else fault = .unprintable

theorem about_showing {fault : Value β → Fault β} (named : (fault v).parameter? = some (name, v)) :
    (showing fault v).About name v := by
  rw [About, showing]
  split
  · exact named
  · rfl

theorem About.inParameter {fault : Fault β} (about : fault.About name v) :
    fault.InParameter ∨ v.isPrintable = false ∧ fault = .unprintable := by
  rw [About] at about
  split at about
  · exact .inl (by rw [InParameter, about]; rfl)
  · next unshown => exact .inr ⟨Bool.eq_false_iff.mpr unshown, about⟩

end Fault

/-- A key is made of some names, with bars between them. None of them is empty. -/
structure Names (key : Text) (names : List Text) : Prop where
  some : names ≠ []
  named : ∀ name ∈ names, name ≠ [] ∧ CodePoint.ofChar '|' ∉ name
  joined : key = Text.joinWith "|" names

theorem names_iff {key : Text} {names : List Text} :
    Names key names ↔ kindsOf key = names ∧ [] ∉ kindsOf key := by
  constructor
  · rintro ⟨some, named, rfl⟩
    have pieces : kindsOf (Text.joinWith "|" names) = names :=
      Text.splitOn_joinWith some fun name member => (named name member).2
    rw [pieces]
    exact ⟨rfl, fun empty => (named [] empty).1 rfl⟩
  · rintro ⟨rfl, named⟩
    obtain ⟨free, joined⟩ := Text.splitOn_pieces (CodePoint.ofChar '|') key
    refine ⟨Text.splitOn_ne_nil _ key, fun name member => ⟨?_, free name member⟩, joined.symm⟩
    rintro rfl
    exact named member

section

variable {β : Type}

def IsKey (v : Value β) : Prop := ∃ key names, v = .text key ∧ Names key names

theorem isKey_text {key : Text} : IsKey (.text key : Value β) ↔ (kindsOf key).contains [] = false := by
  rw [List.contains_eq_mem, decide_eq_false_iff_not]
  constructor
  · rintro ⟨key, names, same, isMade⟩
    cases same
    exact (names_iff.mp isMade).2
  · exact fun named => ⟨key, kindsOf key, rfl, names_iff.mpr ⟨rfl, named⟩⟩

/-- Arguments that are keys with their actions: the entries of a single mapping, or an even number of
arguments in turn, of which the first cannot be called. -/
inductive Paired : List (Value β) → List (Value β × Value β) → Prop
  | mapping (entries : List (Value β × Value β)) : Paired [.map entries] entries
  | inTurn {first : Value β × Value β} (uncalled : first.1.callable? = none)
    (others : List (Value β × Value β)) :
    Paired ((first :: others).flatMap fun pair => [pair.1, pair.2]) (first :: others)

theorem pairUp_flatMap (pairs : List (Value β × Value β)) :
    pairUp (pairs.flatMap fun pair => [pair.1, pair.2]) = pairs := by
  induction pairs with
  | nil => rfl
  | cons pair rest ih => exact congrArg (pair :: ·) ih

theorem flatMap_pairUp : ∀ (arguments : List (Value β)), arguments.length % 2 = 0 →
    ((pairUp arguments).flatMap fun pair => [pair.1, pair.2]) = arguments
  | [], _ => rfl
  | [_], odd => absurd odd Nat.one_ne_zero
  | key :: function :: rest, even => by
    rw [List.length_cons, List.length_cons] at even
    have later := flatMap_pairUp rest (by omega)
    exact congrArg (key :: function :: ·) later

theorem length_flatMap (pairs : List (Value β × Value β)) :
    (pairs.flatMap fun pair => [pair.1, pair.2]).length = 2 * pairs.length := by
  rw [List.length_flatMap]
  simp [Nat.mul_comm]

theorem paired_iff {arguments : List (Value β)} : (∃ pairs, Paired arguments pairs) ↔
    (∃ entries, arguments = [.map entries]) ∨
      ∃ first rest, arguments = first :: rest ∧ arguments.length % 2 = 0 ∧ first.callable? = none := by
  constructor
  · rintro ⟨pairs, entries | ⟨uncalled, others⟩⟩
    · exact .inl ⟨pairs, rfl⟩
    · exact .inr ⟨_, _, rfl, by rw [length_flatMap, Nat.mul_mod_right], uncalled⟩
  · rintro (⟨entries, rfl⟩ | ⟨first, rest, rfl, even, uncalled⟩)
    · exact ⟨entries, .mapping entries⟩
    · cases rest with
      | nil => exact absurd even Nat.one_ne_zero
      | cons function rest =>
        have whole := flatMap_pairUp (first :: function :: rest) even
        refine ⟨pairUp (first :: function :: rest), ?_⟩
        have unfit : (first, function).1.callable? = none := uncalled
        have paired := Paired.inTurn unfit (pairUp rest)
        rwa [show ((first, function) :: pairUp rest).flatMap (fun pair => [pair.1, pair.2]) =
          first :: function :: rest from whole] at paired

theorem ofArguments_more (first second : Value β) (rest : List (Value β)) :
    ofArguments (first :: second :: rest) =
      if (first :: second :: rest).length % 2 = 0 ∧ first.callable?.isNone then
        ofEntries (pairUp (first :: second :: rest))
      else ofActions (first :: second :: rest) := by
  cases first <;> rfl

theorem ofArguments_paired {arguments : List (Value β)} {pairs : List (Value β × Value β)}
    (paired : Paired arguments pairs) : ofArguments arguments = ofEntries pairs := by
  cases paired with
  | mapping entries => rfl
  | @inTurn first uncalled others =>
    have even := length_flatMap (first :: others)
    have ofPairs := pairUp_flatMap (first :: others)
    rw [List.flatMap_cons, List.cons_append, List.cons_append] at even ofPairs ⊢
    rw [ofArguments_more, ofPairs]
    exact if_pos ⟨by rw [even, Nat.mul_mod_right], by rw [uncalled]; rfl⟩

theorem ofArguments_unpaired {arguments : List (Value β)}
    (unpaired : ¬ ∃ pairs, Paired arguments pairs) : ofArguments arguments = ofActions arguments := by
  rw [paired_iff] at unpaired
  unfold ofArguments
  split
  · next entries => exact absurd (.inl ⟨entries, rfl⟩) unpaired
  · next first rest _ =>
    refine if_neg fun even => unpaired (.inr ⟨first, rest, rfl, even.1, ?_⟩)
    exact Option.isNone_iff_eq_none.mp even.2
  · rfl

def Fit (pair : Value β × Value β) : Prop := IsKey pair.1 ∧ pair.2.callable?.isSome

def Binds (pair : Value β × Value β) (h : Handler β) : Prop :=
  ∃ key names function, pair.1 = .text key ∧ Names key names ∧ pair.2.callable? = some function ∧
    h = .bound key function

/-- A fault names the key of a pair or, if that is fit, its action. -/
def Blames (pair : Value β × Value β) (fault : Fault β) : Prop :=
  ¬ IsKey pair.1 ∧ fault.About "key" pair.1 ∨
    IsKey pair.1 ∧ pair.2.callable? = none ∧ fault.About "action" pair.2

theorem Binds.fit {pair : Value β × Value β} {h : Handler β} (binds : Binds pair h) : Fit pair := by
  obtain ⟨key, names, function, isText, made, callable, -⟩ := binds
  exact ⟨⟨key, names, isText, made⟩, by rw [callable]; rfl⟩

theorem Blames.not_fit {pair : Value β × Value β} {fault : Fault β} (blames : Blames pair fault) : ¬ Fit pair := by
  rintro ⟨isKey, callable⟩
  rcases blames with ⟨noKey, -⟩ | ⟨-, uncalled, -⟩
  · exact noKey isKey
  · rw [uncalled] at callable
    cases callable

theorem bind_run (pair : Value β × Value β) (warnings : List Text) :
    (∃ h later, (bind pair.1 pair.2).run warnings = (.ok h, later) ∧ Binds pair h) ∨
      ∃ fault, (bind pair.1 pair.2).run warnings = (.error fault, warnings) ∧ Blames pair fault := by
  obtain ⟨key, function⟩ := pair
  cases key with
  | text key =>
    dsimp only [bind]
    cases empty : (kindsOf key).contains [] with
    | true =>
      refine .inr ⟨.emptyKind key, rfl, .inl ⟨fun isKey => ?_, rfl⟩⟩
      rw [isKey_text.mp isKey] at empty
      cases empty
    | false =>
      have isKey : IsKey (.text key : Value β) := isKey_text.mpr empty
      obtain ⟨_, names, ⟨⟩, made⟩ := id isKey
      cases callable : function.callable? with
      | none => exact .inr ⟨_, rfl, .inr ⟨isKey, callable, Fault.about_showing rfl⟩⟩
      | some h =>
        refine .inl ⟨.bound key h, ?_⟩
        cases (unknownKinds key).isEmpty with
        | true => exact ⟨_, rfl, key, names, h, rfl, made, callable, rfl⟩
        | false => exact ⟨_, rfl, key, names, h, rfl, made, callable, rfl⟩
  | _ => exact .inr ⟨_, rfl, .inl ⟨by rintro ⟨_, _, ⟨⟩, _⟩, Fault.about_showing rfl⟩⟩

theorem plain_run (v : Value β) (warnings : List Text) :
    (∃ h, (plain v).run warnings = (.ok h, warnings) ∧ v.callable? = some h) ∨
      ∃ fault, (plain v).run warnings = (.error fault, warnings) ∧ v.callable? = none ∧
        fault.About "actions" v := by
  unfold plain
  cases callable : v.callable? with
  | some h => exact .inl ⟨h, rfl, rfl⟩
  | none => exact .inr ⟨_, rfl, rfl, Fault.about_showing rfl⟩

theorem mapM_run {γ δ : Type} {make : γ → Building β δ} {Makes : γ → δ → Prop} {Fails : γ → Fault β → Prop}
    (each : ∀ c warnings, (∃ d later, (make c).run warnings = (.ok d, later) ∧ Makes c d) ∨
      ∃ fault, (make c).run warnings = (.error fault, warnings) ∧ Fails c fault)
    (cs : List γ) (warnings : List Text) :
    (∃ ds later, (cs.mapM make).run warnings = (.ok ds, later) ∧ List.Forall₂ Makes cs ds) ∨
      ∃ fault later before c after, (cs.mapM make).run warnings = (.error fault, later) ∧
        cs = before ++ c :: after ∧ (∀ b ∈ before, ∃ d, Makes b d) ∧ Fails c fault := by
  induction cs generalizing warnings with
  | nil => exact .inl ⟨[], warnings, rfl, .nil⟩
  | cons c rest ih =>
    rw [List.mapM_cons, run_bind]
    rcases each c warnings with ⟨d, between, made, makes⟩ | ⟨fault, failed, fails⟩
    · rw [made]
      dsimp only
      rw [run_bind]
      rcases ih between with ⟨ds, later, ran, all⟩ | ⟨fault, later, before, b, after, failed, rfl, fit, fails⟩
      · rw [ran]
        exact .inl ⟨d :: ds, later, rfl, .cons makes all⟩
      · rw [failed]
        refine .inr ⟨fault, later, c :: before, b, after, rfl, rfl, ?_, fails⟩
        exact List.forall_mem_cons.mpr ⟨⟨d, makes⟩, fit⟩
    · rw [failed]
      exact .inr ⟨fault, warnings, [], c, rest, rfl, rfl, nofun, fails⟩

theorem ofEntries_run (pairs : List (Value β × Value β)) (warnings : List Text) :
    (∃ f later, (ofEntries pairs).run warnings = (.ok f, later) ∧ List.Forall₂ Binds pairs f.handlers) ∨
      ∃ fault later before pair after, (ofEntries pairs).run warnings = (.error fault, later) ∧
        pairs = before ++ pair :: after ∧ (∀ p ∈ before, Fit p) ∧ Blames pair fault := by
  have mapped : (ofEntries pairs).run warnings =
      (pairs.mapM (fun pair => bind pair.1 pair.2) >>= fun hs => return ⟨hs⟩ : Building β (Filter β)).run
        warnings := rfl
  rw [mapped, run_bind]
  rcases mapM_run bind_run pairs warnings with
    ⟨hs, later, ran, all⟩ | ⟨fault, later, before, pair, after, failed, split, fit, blames⟩
  · rw [ran]
    exact .inl ⟨⟨hs⟩, later, rfl, all⟩
  · rw [failed]
    refine .inr ⟨fault, later, before, pair, after, rfl, split, fun p member => ?_, blames⟩
    obtain ⟨h, binds⟩ := fit p member
    exact binds.fit

theorem ofActions_run (values : List (Value β)) (warnings : List Text) :
    (∃ f later, (ofActions values).run warnings = (.ok f, later) ∧
        List.Forall₂ (fun v h => v.callable? = some h) values f.handlers) ∨
      ∃ fault later before v after, (ofActions values).run warnings = (.error fault, later) ∧
        values = before ++ v :: after ∧ (∀ u ∈ before, u.callable?.isSome) ∧ v.callable? = none ∧
        fault.About "actions" v := by
  have each (v : Value β) (warnings : List Text) :
      (∃ h later, (plain v).run warnings = (.ok h, later) ∧ v.callable? = some h) ∨
        ∃ fault, (plain v).run warnings = (.error fault, warnings) ∧ v.callable? = none ∧
          fault.About "actions" v :=
    (plain_run v warnings).imp_left fun ⟨h, made⟩ => ⟨h, warnings, made⟩
  have mapped : (ofActions values).run warnings =
      (values.mapM plain >>= fun hs => return ⟨hs⟩ : Building β (Filter β)).run warnings := rfl
  rw [mapped, run_bind]
  rcases mapM_run each values warnings with
    ⟨hs, later, ran, all⟩ | ⟨fault, later, before, v, after, failed, split, fit, uncalled, named⟩
  · rw [ran]
    exact .inl ⟨⟨hs⟩, later, rfl, all⟩
  · rw [failed]
    refine .inr ⟨fault, later, before, v, after, rfl, split, fun u member => ?_, uncalled, named⟩
    obtain ⟨h, callable⟩ := fit u member
    rw [callable]
    rfl

theorem havePrintable_iff {entries : List (Value β × Value β)} :
    Value.havePrintable entries ↔ ∀ pair ∈ entries, pair.1.isPrintable ∧ pair.2.isPrintable := by
  induction entries with
  | nil => simp [Value.havePrintable]
  | cons pair rest ih => simp [Value.havePrintable, ih]

theorem Paired.printable {arguments : List (Value β)} {pairs : List (Value β × Value β)}
    (paired : Paired arguments pairs) (shown : ∀ v ∈ arguments, v.isPrintable) :
    ∀ pair ∈ pairs, pair.1.isPrintable ∧ pair.2.isPrintable := by
  cases paired with
  | mapping entries =>
    have all := shown _ List.mem_cons_self
    exact havePrintable_iff.mp all
  | inTurn _ others =>
    intro pair member
    have both {v : Value β} (among : v ∈ [pair.1, pair.2]) : v.isPrintable :=
      shown v (List.mem_flatMap.mpr ⟨pair, member, among⟩)
    exact ⟨both List.mem_cons_self, both (List.mem_cons_of_mem _ List.mem_cons_self)⟩

theorem ofArguments_about {arguments : List (Value β)} {warnings later : List Text} {fault : Fault β}
    (failed : (ofArguments arguments).run warnings = (.error fault, later)) :
    ∃ name v, fault.About name v ∧ ((∀ u ∈ arguments, u.isPrintable) → v.isPrintable) := by
  by_cases isPaired : ∃ pairs, Paired arguments pairs
  · obtain ⟨pairs, paired⟩ := isPaired
    rw [ofArguments_paired paired] at failed
    rcases ofEntries_run pairs warnings with ⟨_, _, made, _⟩ | ⟨_, _, before, pair, after, ran, split, _, blames⟩
    · cases made.symm.trans failed
    cases ran.symm.trans failed
    have member : pair ∈ pairs := split ▸ List.mem_append_right before List.mem_cons_self
    rcases blames with ⟨-, about⟩ | ⟨-, -, about⟩
    · exact ⟨_, _, about, fun shown => (paired.printable shown pair member).1⟩
    · exact ⟨_, _, about, fun shown => (paired.printable shown pair member).2⟩
  · rw [ofArguments_unpaired isPaired] at failed
    rcases ofActions_run arguments warnings with ⟨_, _, made, _⟩ | ⟨_, _, before, v, after, ran, split, _, _, about⟩
    · cases made.symm.trans failed
    cases ran.symm.trans failed
    have member : v ∈ arguments := split ▸ List.mem_append_right before List.mem_cons_self
    exact ⟨_, _, about, fun shown => shown v member⟩

/-- What is reported belongs to a parameter, or it is that some argument has no text. -/
theorem ofArguments_fails {arguments : List (Value β)} {warnings later : List Text} {fault : Fault β}
    (failed : (ofArguments arguments).run warnings = (.error fault, later)) :
    fault.InParameter ∨ fault = .unprintable ∧ ∃ v ∈ arguments, v.isPrintable = false := by
  obtain ⟨name, v, about, shown⟩ := ofArguments_about failed
  rcases about.inParameter with inParameter | ⟨unshown, unprintable⟩
  · exact .inl inParameter
  · refine .inr ⟨unprintable, ?_⟩
    by_contra! all
    have printable := shown fun u member => Bool.of_not_eq_false (all u member)
    cases unshown.symm.trans printable

/-- Where things are gone through up to the first that is not fit, all of them are fit just if there is a filter
in the end. -/
theorem settled_by_first {γ : Type} {cs : List γ} {fit : γ → Prop} {Made : Filter β → Prop}
    {Fails : γ → Fault β → Prop} {ran : Except (Fault β) (Filter β) × List Text}
    (ended : (∃ f later, ran = (.ok f, later) ∧ Made f) ∨
      ∃ fault later before c after, ran = (.error fault, later) ∧ cs = before ++ c :: after ∧
        (∀ b ∈ before, fit b) ∧ Fails c fault)
    (good : ∀ f, Made f → ∀ c ∈ cs, fit c) (bad : ∀ c fault, Fails c fault → ¬ fit c) :
    ((∃ f later, ran = (.ok f, later)) ↔ ∀ c ∈ cs, fit c) ∧ (∀ f later, ran = (.ok f, later) → Made f) ∧
      ∀ fault later, ran = (.error fault, later) →
        ∃ before c after, cs = before ++ c :: after ∧ (∀ b ∈ before, fit b) ∧ Fails c fault := by
  rcases ended with ⟨f, later, rfl, made⟩ | ⟨fault, later, before, c, after, rfl, split, fits, fails⟩
  · refine ⟨⟨fun _ => good f made, fun _ => ⟨f, later, rfl⟩⟩, ?_, nofun⟩
    rintro _ _ ⟨⟩
    exact made
  · refine ⟨⟨nofun, fun all => absurd (all c ?_) (bad c fault fails)⟩, nofun, ?_⟩
    · rw [split]
      exact List.mem_append_right before List.mem_cons_self
    · rintro _ _ ⟨⟩
      exact ⟨before, c, after, split, fits, fails⟩

end

section

variable {ε σ : Type}

/-- A handler passes the nodes of some kinds on to an action, and keeps all others without a call. -/
def Fires (names : List Text) (function h : Handler (Action ε σ)) : Prop :=
  ∀ occasion n (w : World σ), (w.store.element n).kind ≠ .list →
    (h.perform occasion n).run w =
      if (w.store.element n).name ∈ names then (function.performAlone n).run w else (.ok .keep, w)

theorem fires_bound {key : Text} {names : List Text} (made : Names key names)
    (function : Handler (Action ε σ)) : Fires names function (.bound key function) := by
  intro occasion n w named
  rw [Handler.run_bound key function occasion named, (names_iff.mp made).1]
  simp only [List.contains_eq_mem, decide_eq_true_eq]

/-- Whatever the arguments are, they make a filter or one of them is reported as wrong. A single mapping, and an
even number of arguments of which the first cannot be called, are keys with actions. They are fit if every key
is a text without an empty name in it and every action can be called, and the first pair that is not is
reported, its key before its action. Then each action gets just the nodes of the kinds in its key. All other
arguments are actions, which are fit if they can be called, and are the filter as they stand. -/
theorem filter_or_first_unfit (arguments : List (Value (Action ε σ))) (warnings : List Text) :
    (∀ fault later, (ofArguments arguments).run warnings = (.error fault, later) →
      fault.InParameter ∨ fault = .unprintable ∧ ∃ v ∈ arguments, v.isPrintable = false) ∧
    ((∃ pairs, Paired arguments pairs) ↔ (∃ entries, arguments = [.map entries]) ∨
      ∃ first rest, arguments = first :: rest ∧ arguments.length % 2 = 0 ∧ first.callable? = none) ∧
    (∀ pairs, Paired arguments pairs →
      ((∃ f later, (ofArguments arguments).run warnings = (.ok f, later)) ↔ ∀ pair ∈ pairs,
        (∃ key names, pair.1 = .text key ∧ Names key names) ∧ pair.2.callable?.isSome) ∧
      (∀ f later, (ofArguments arguments).run warnings = (.ok f, later) →
        List.Forall₂ (fun pair h => ∃ key names function, pair.1 = .text key ∧ Names key names ∧
          pair.2.callable? = some function ∧ h = .bound key function ∧ Fires names function h)
          pairs f.handlers) ∧
      ∀ fault later, (ofArguments arguments).run warnings = (.error fault, later) →
        ∃ before pair after, pairs = before ++ pair :: after ∧ (∀ p ∈ before, Fit p) ∧ Blames pair fault) ∧
    ((¬ ∃ pairs, Paired arguments pairs) →
      ((∃ f later, (ofArguments arguments).run warnings = (.ok f, later)) ↔
        ∀ v ∈ arguments, v.callable?.isSome) ∧
      (∀ f later, (ofArguments arguments).run warnings = (.ok f, later) →
        List.Forall₂ (fun v h => v.callable? = some h) arguments f.handlers) ∧
      ∀ fault later, (ofArguments arguments).run warnings = (.error fault, later) →
        ∃ before v after, arguments = before ++ v :: after ∧ (∀ u ∈ before, u.callable?.isSome) ∧
          v.callable? = none ∧ fault.About "actions" v) := by
  refine ⟨fun fault later => ofArguments_fails, paired_iff, ?_, ?_⟩
  · intro pairs paired
    rw [ofArguments_paired paired]
    obtain ⟨fitting, bound, blamed⟩ := settled_by_first (ofEntries_run pairs warnings)
      (fun f bound => ((List.forall₂_and_left _ _).mp (bound.imp fun _ _ binds => ⟨binds.fit, binds⟩)).1)
      fun pair fault blames => blames.not_fit
    refine ⟨fitting, fun f later made => ?_, blamed⟩
    refine (bound f later made).imp ?_
    rintro pair h ⟨key, names, function, isText, made, callable, rfl⟩
    exact ⟨key, names, function, isText, made, callable, rfl, fires_bound made function⟩
  · intro unpaired
    rw [ofArguments_unpaired unpaired]
    refine settled_by_first (ofActions_run arguments warnings) (fun f taken => ?_) ?_
    · refine ((List.forall₂_and_left _ _).mp (taken.imp fun v h callable => ⟨?_, callable⟩)).1
      rw [callable]
      rfl
    · rintro v fault ⟨uncalled, -⟩ callable
      rw [uncalled] at callable
      cases callable

end

/-! A key with its action and, after it, a key with an empty name, whose action cannot be called either; a number
after an action; and a mapping. -/

def keepsAll : Handler (Action Empty Nat) := .plain ⟨"keep", "function", fun _ => Walk.keepAll⟩

def stressed : Value (Action Empty Nat) × Value (Action Empty Nat) := (.text "Emph|Strong", .handler keepsAll)

def barred : Value (Action Empty Nat) × Value (Action Empty Nat) := (.text "Space|", .int 3)

def numbered : List (Value (Action Empty Nat)) := [.handler keepsAll, .int 3]

theorem empty_name_reported :
    (Paired [stressed.1, stressed.2, barred.1, barred.2] [stressed, barred] ∧
      (ofArguments [stressed.1, stressed.2, barred.1, barred.2]).run [] = (.error (.emptyKind "Space|"), []) ∧
      ∃ before pair after, [stressed, barred] = before ++ pair :: after ∧ (∀ p ∈ before, Fit p) ∧
        Blames pair (.emptyKind "Space|")) ∧
    ((¬ ∃ pairs, Paired numbered pairs) ∧
      (ofArguments numbered).run [] = (.error (.notCallable (.int 3)), []) ∧
      ∃ before v after, numbered = before ++ v :: after ∧ (∀ u ∈ before, u.callable?.isSome) ∧
        v.callable? = none ∧ Fault.About "actions" v (.notCallable (.int 3))) ∧
    (ofArguments [.map [stressed]]).run [] = (.ok ⟨[.bound "Emph|Strong" keepsAll]⟩, []) ∧
    List.Forall₂ (fun pair h => ∃ key names function, pair.1 = .text key ∧ Names key names ∧
      pair.2.callable? = some function ∧ h = .bound key function ∧ Fires names function h)
      [stressed] [.bound "Emph|Strong" keepsAll] := by
  have paired : Paired [stressed.1, stressed.2, barred.1, barred.2] [stressed, barred] :=
    Paired.inTurn rfl [barred]
  have first : bind (.text "Emph|Strong") (.handler keepsAll) = return .bound "Emph|Strong" keepsAll :=
    bind_known (List.cons_ne_nil Kind.emph [.strong]) (by decide) rfl
  have failed : (ofArguments [stressed.1, stressed.2, barred.1, barred.2]).run [] =
      (.error (.emptyKind "Space|"), []) := by
    rw [ofArguments_paired paired]
    simp only [ofEntries, List.mapM_cons, stressed, first]
    rfl
  have made : (ofArguments [.map [stressed]]).run [] = (.ok ⟨[.bound "Emph|Strong" keepsAll]⟩, []) := by
    rw [ofArguments_paired (.mapping _)]
    simp only [ofEntries, List.mapM_cons, stressed, first]
    rfl
  have numberFailed : (ofArguments numbered).run [] = (.error (.notCallable (.int 3)), []) := rfl
  obtain ⟨-, -, inTurn, -⟩ :=
    filter_or_first_unfit [stressed.1, stressed.2, barred.1, barred.2] []
  obtain ⟨-, isPaired, -, alone⟩ := filter_or_first_unfit numbered []
  obtain ⟨-, -, single, -⟩ := filter_or_first_unfit [.map [stressed]] []
  have unpaired : ¬ ∃ pairs, Paired numbered pairs := by
    rw [isPaired]
    rintro (⟨_, ⟨⟩⟩ | ⟨_, _, ⟨⟩, _, ⟨⟩⟩)
  exact ⟨⟨paired, failed, (inTurn _ paired).2.2 _ _ failed⟩,
    ⟨unpaired, numberFailed, (alone unpaired).2.2 _ _ numberFailed⟩, made,
    (single _ (.mapping _)).2.1 _ _ made⟩

theorem ofArguments_tooLong (warnings : List Text) :
    (ofArguments [(.int Number.tooLong : Value (Action Empty Nat))]).run warnings =
      (.error .unprintable, warnings) := by
  have unshown : (Value.int Number.tooLong : Value (Action Empty Nat)).isPrintable = false := by
    rw [Value.isPrintable]
    exact Number.isShort_tooLong
  have failed : plain (.int Number.tooLong : Value (Action Empty Nat)) = throw .unprintable := by
    unfold plain
    rw [Fault.showing, unshown]
    rfl
  simp only [ofArguments, ofActions, List.mapM_cons, failed]
  rfl

/-- A number with too many digits is no action, and is not reported as one. -/
theorem long_number_not_reported :
    (ofArguments [(.int Number.tooLong : Value (Action Empty Nat))]).run [] = (.error .unprintable, []) ∧
      ¬ (Fault.unprintable : Fault (Action Empty Nat)).InParameter := ⟨ofArguments_tooLong [], nofun⟩

end Filter

end DocTree
