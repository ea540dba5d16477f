import DocTree.Proofs.Store.Fresh
import DocTree.Proofs.Store.Listed
import DocTree.Proofs.Walk.Exchange
/-!
How a walk goes through a mapping that is edited meanwhile. The keys are those that the mapping had when it was
opened. One key after another has its turn: if it is there, its value of that moment is offered, what is given
for it is set under the key, and what is below that is walked before the next key has its turn.
-/

namespace DocTree

namespace Mapping

variable {α : Type} {m : Mapping α} {key : Text}

theorem get?_put (key : Text) (a : α) (m : Mapping α) : (m.put key a).get? key = some a := by
  induction m with
  | nil => simp [put, get?]
  | cons entry rest ih =>
    rw [put]
    split
    · next here => rw [get?, if_pos here]
    · next elsewhere => rw [get?, if_neg elsewhere, ih]

theorem get?_eq_none (absent : key ∉ m.keys) : m.get? key = none := by
  cases found : m.get? key with
  | none => rfl
  | some a => exact absurd (List.mem_map_of_mem (f := (·.1)) (get?_mem found)) absent

theorem erase_sublist (key : Text) (m : Mapping α) : (m.erase key).Sublist m := by
  induction m with
  | nil => exact .slnil
  | cons entry rest ih =>
    rw [erase]
    split
    · exact List.sublist_cons_self _ _
    · exact ih.cons_cons _

theorem nodup_erase (distinct : m.keys.Nodup) : (m.erase key).keys.Nodup :=
  distinct.sublist ((erase_sublist key m).map _)

theorem get?_erase (distinct : m.keys.Nodup) : (m.erase key).get? key = none := by
  induction m with
  | nil => rfl
  | cons entry rest ih =>
    obtain ⟨fresh, distinct⟩ := List.nodup_cons.mp distinct
    rw [erase]
    split
    · next here => exact get?_eq_none (here ▸ fresh)
    · next elsewhere => rw [get?, if_neg elsewhere, ih distinct]

end Mapping

namespace Store

variable {s : Store} {id : MappingId} {m : Mapping NodeId}

theorem Keyed.setMapping (keyed : s.Keyed) (distinct : m.keys.Nodup) : (s.setMapping id m).Keyed := by
  intro m' member
  rcases Array.mem_or_eq_of_mem_setIfInBounds member with before | rfl
  · exact keyed m' before
  · exact distinct

theorem knows_of_get? {key : Text} {n : NodeId} (held : (s.mapping id).get? key = some n) :
    s.Knows (.mapping id) := by
  by_contra outside
  have beyond : ¬ id.index < s.mappings.size := outside
  have empty : s.mapping id = [] := by rw [mapping, Array.getD, dif_neg beyond]
  rw [empty] at held
  cases held

theorem mapping_set (known : s.Knows (.mapping id)) : (s.setMapping id m).mapping id = m := by
  have inside : id.index < s.mappings.size := known
  simp [mapping, setMapping, inside]

end Store

namespace Walk

variable {ε σ : Type}

/-- What happens above goes on in the same way with other frames below it. -/
def Move.onto (base : List Frame) : Move → Move
  | .go stack => .go (stack ++ base)
  | .visit n frame => .visit n frame
  | .offer n settle => .offer n settle

section

variable {action : NodeId → Effect ε σ Reply} {frame : Frame} {above base stack stack' : List Frame}
  {w w' : World σ} {calls : List (Call σ)}

theorem move_append (s : Store) (frame : Frame) (above base : List Frame) :
    move s frame (above ++ base) = (move s frame above).onto base := by
  obtain ⟨errands, cursor⟩ := frame
  match cursor with
  | none =>
    cases opened : Errand.resume s errands with
    | none => rw [move_leave opened, move_leave opened, Move.onto]
    | some o =>
      rw [move_enter opened, move_enter opened]
      rfl
  | some (.sequence id index (n :: settled)) => rfl
  | some (.mapping id keys (n :: settled)) => rfl
  | some (.sequence id index []) =>
    cases member : (s.sequence id)[index]? with
    | none =>
      rw [move_past member, move_past member]
      rfl
    | some n => rw [move_member member, move_member member, Move.onto]
  | some (.mapping id [] []) => rfl
  | some (.mapping id (key :: keys) []) =>
    cases value : (s.mapping id).get? key with
    | none =>
      rw [move_skip value, move_skip value]
      rfl
    | some n => rw [move_value value, move_value value, Move.onto]

theorem callsAt_append (frame : Frame) (above base : List Frame) (w : World σ) :
    callsAt frame (above ++ base) w = callsAt frame above w := by
  have same : offered? w.store frame (above ++ base) = offered? w.store frame above := by
    rw [offered?, offered?, move_append]
    cases move w.store frame above <;> rfl
  rw [callsAt, callsAt, same]

theorem step_append (action : NodeId → Effect ε σ Reply) (frame : Frame) (above base : List Frame) (w : World σ) :
    step ⟨action, ignore⟩ frame (above ++ base) w =
      ((step ⟨action, ignore⟩ frame above w).1.map (· ++ base), (step ⟨action, ignore⟩ frame above w).2) := by
  rw [step_eq, step_eq, move_append]
  cases move w.store frame above with
  | go stack => rfl
  | visit n frame' => rfl
  | offer n settle =>
    simp only [Move.onto, perform]
    generalize offer _ n settle w = x
    obtain ⟨_ | _, _⟩ := x
    · rfl
    · rfl

theorem Reaches.append {k : Nat} (h : Reaches ⟨action, ignore⟩ k stack w calls stack' w')
    (base : List Frame) : Reaches ⟨action, ignore⟩ k (stack ++ base) w calls (stack' ++ base) w' := by
  induction h with
  | refl => exact .refl _ _
  | @step _ frame above _ _ w _ _ _ first _ ih =>
    have lower := step_append action frame above base w
    rw [first] at lower
    have joined := Reaches.step lower ih
    rwa [callsAt_append] at joined

end

/-- What a call for the value of a key makes of the key: it is as the call left it, or it is removed, or it has
what is given for the value. -/
inductive Sets (action : NodeId → Effect ε σ Reply) (id : MappingId) (key : Text) (n : NodeId) (w : World σ) :
    Option (List NodeId) → World σ → Prop
  | kept {reply : Reply} {w' : World σ} (answer : (action n).run w = (.ok reply, w'))
      (usable : reply.replacement (w.store.element n).kind = .ok none) : Sets action id key n w none w'
  | removed {reply : Reply} {w' : World σ} (answer : (action n).run w = (.ok reply, w'))
      (usable : reply.replacement (w.store.element n).kind = .ok (some [])) :
      Sets action id key n w (some []) (w'.withMapping id ((w'.store.mapping id).erase key))
  | replaced {reply : Reply} {w' : World σ} {m : NodeId} (answer : (action n).run w = (.ok reply, w'))
      (usable : reply.replacement (w.store.element n).kind = .ok (some [m])) :
      Sets action id key n w (some [m]) (w'.withMapping id ((w'.store.mapping id).put key m))

/-- Nothing is below nothing, and what is below one node is walked as a tree of its own. -/
inductive Inside (action : NodeId → Effect ε σ Reply) :
    List NodeId → World σ → List (Call σ) → World σ → Prop
  | nothing (w : World σ) : Inside action [] w [] w
  | below {m : NodeId} {k : Nat} {w w' : World σ} {calls : List (Call σ)}
      (course : Reaches ⟨action, ignore⟩ k [.below m] w calls [] w') : Inside action [m] w calls w'

inductive Turn (action : NodeId → Effect ε σ Reply) (id : MappingId) (key : Text) :
    World σ → List (Text × Call σ) → List (Call σ) → World σ → Prop
  | absent {w : World σ} (missing : (w.store.mapping id).get? key = none) : Turn action id key w [] [] w
  | present {n : NodeId} {given : Option (List NodeId)} {w w₁ w₂ : World σ} {inner : List (Call σ)}
      (held : (w.store.mapping id).get? key = some n) (sets : Sets action id key n w given w₁)
      (inside : Inside action (given.getD [n]) w₁ inner w₂) :
      Turn action id key w [(key, ⟨n, w⟩)] (⟨n, w⟩ :: inner) w₂

inductive TakesTurns (action : NodeId → Effect ε σ Reply) (id : MappingId) :
    List Text → World σ → List (Text × Call σ) → List (Call σ) → World σ → Prop
  | nil (w : World σ) : TakesTurns action id [] w [] [] w
  | snoc {keys : List Text} {key : Text} {w w₁ w₂ : World σ} {offers last : List (Text × Call σ)}
      {calls later : List (Call σ)} (earlier : TakesTurns action id keys w offers calls w₁)
      (turn : Turn action id key w₁ last later w₂) :
      TakesTurns action id (keys ++ [key]) w (offers ++ last) (calls ++ later) w₂

/-- The turn of a key is not over: a node is settled, and what is below it is still to be walked. -/
inductive Underway (action : NodeId → Effect ε σ Reply) (id : MappingId) (keys : List Text) (w : World σ) :
    List Text → List (Text × Call σ) → List (Call σ) → NodeId → World σ → Prop
  | intro {done todo : List Text} {key : Text} {offers : List (Text × Call σ)} {calls : List (Call σ)}
      {n m : NodeId} {given : Option (List NodeId)} {w₁ w₂ : World σ} (all : keys = done ++ key :: todo)
      (earlier : TakesTurns action id done w offers calls w₁)
      (held : (w₁.store.mapping id).get? key = some n) (sets : Sets action id key n w₁ given w₂)
      (one : given.getD [n] = [m]) :
      Underway action id keys w todo (offers ++ [(key, ⟨n, w₁⟩)]) (calls ++ [⟨n, w₁⟩]) m w₂

/-- Where a walk through a mapping may be: a key is to have its turn, the turn of a key is not over, or all
keys had their turns and the walk goes on elsewhere. -/
inductive Stage (action : NodeId → Effect ε σ Reply) (errands : List Errand) (rest : List Frame)
    (id : MappingId) (keys : List Text) (w : World σ) :
    List (Text × Call σ) → List (Call σ) → List Frame → World σ → Prop
  | turn {done todo : List Text} {offers : List (Text × Call σ)} {calls : List (Call σ)} {w₁ : World σ}
      (all : keys = done ++ todo) (earlier : TakesTurns action id done w offers calls w₁) :
      Stage action errands rest id keys w offers calls
        (⟨errands, some (.mapping id todo [])⟩ :: rest) w₁
  | settled {todo : List Text} {offers : List (Text × Call σ)} {calls : List (Call σ)} {m : NodeId}
      {w₁ : World σ} (underway : Underway action id keys w todo offers calls m w₁) :
      Stage action errands rest id keys w offers calls
        (⟨errands, some (.mapping id todo [m])⟩ :: rest) w₁
  | below {todo : List Text} {offers : List (Text × Call σ)} {calls inner : List (Call σ)} {m : NodeId}
      {k : Nat} {frame : Frame} {above : List Frame} {w₁ w₂ : World σ}
      (underway : Underway action id keys w todo offers calls m w₁)
      (course : Reaches ⟨action, ignore⟩ k [.below m] w₁ inner (frame :: above) w₂) :
      Stage action errands rest id keys w offers (calls ++ inner)
        (frame :: (above ++ ⟨errands, some (.mapping id todo [])⟩ :: rest)) w₂
  | past {offers : List (Text × Call σ)} {calls later : List (Call σ)} {k : Nat} {stack : List Frame}
      {w₁ w₂ : World σ} (earlier : TakesTurns action id keys w offers calls w₁)
      (course : Reaches ⟨action, ignore⟩ k (⟨errands, none⟩ :: rest) w₁ later stack w₂) :
      Stage action errands rest id keys w offers (calls ++ later) stack w₂

section

variable {action : NodeId → Effect ε σ Reply} {errands : List Errand} {frame : Frame}
  {rest stack stack' : List Frame} {id : MappingId} {keys todo : List Text} {key : Text} {n m : NodeId}
  {w w₁ w₂ : World σ} {offers : List (Text × Call σ)} {calls later : List (Call σ)}

/-- The step in which a value is offered sets the key, and leaves what is settled to be visited. -/
theorem value_step_iff (errands : List Errand) (rest : List Frame) (todo : List Text)
    (held : (w.store.mapping id).get? key = some n) :
    step ⟨action, ignore⟩ ⟨errands, some (.mapping id (key :: todo) [])⟩ rest w = (.ok stack, w₁) ↔
      ∃ given, Sets action id key n w given w₁ ∧
        stack = ⟨errands, some (.mapping id todo (given.getD [n]))⟩ :: rest := by
  rw [step_offer_iff (move_value held)]
  constructor
  · rintro ⟨reply, given, w', cursor, s, answer, usable, settled, rfl, rfl⟩
    match given with
    | none =>
      cases settled
      exact ⟨none, .kept answer usable, rfl⟩
    | some [] =>
      cases settled
      exact ⟨some [], .removed answer usable, rfl⟩
    | some [m] =>
      cases settled
      exact ⟨some [m], .replaced answer usable, rfl⟩
    | some (_ :: _ :: _) => cases settled
  · rintro ⟨given, sets, rfl⟩
    cases sets with
    | kept answer usable => exact ⟨_, _, _, _, _, answer, usable, rfl, rfl, rfl⟩
    | removed answer usable => exact ⟨_, _, _, _, _, answer, usable, rfl, rfl, rfl⟩
    | replaced answer usable => exact ⟨_, _, _, _, _, answer, usable, rfl, rfl, rfl⟩

theorem Sets.settled {given : Option (List NodeId)} (sets : Sets action id key n w given w₁) :
    given.getD [n] = [] ∨ ∃ m, given.getD [n] = [m] := by
  cases sets with
  | kept => exact .inr ⟨n, rfl⟩
  | removed => exact .inl rfl
  | replaced => exact .inr ⟨_, rfl⟩

theorem Turn.reaches (turn : Turn action id key w offers calls w₁) (errands : List Errand)
    (rest : List Frame) (todo : List Text) : ∃ k, Reaches ⟨action, ignore⟩ k
      (⟨errands, some (.mapping id (key :: todo) [])⟩ :: rest) w calls
      (⟨errands, some (.mapping id todo [])⟩ :: rest) w₁ := by
  cases turn with
  | absent missing => exact ⟨1, .of_go (move_skip missing)⟩
  | @present n given _ w₁ _ inner held sets inside =>
    have first := (value_step_iff errands rest todo held).mpr ⟨given, sets, rfl⟩
    have next : offered? w.store ⟨errands, some (.mapping id (key :: todo) [])⟩ rest = some n :=
      offered?_of_move (move_value held)
    have offer := callsAt_offered next
    generalize given.getD [n] = settled at first inside
    cases inside with
    | nothing =>
      have course := Reaches.step first (.refl _ _)
      rw [offer] at course
      exact ⟨1, course⟩
    | @below m k _ _ _ course =>
      have visit : Reaches ⟨action, ignore⟩ 1 _ w₁ [] _ w₁ :=
        .of_visit (move_withSettled errands rest (.mapping id todo []) m []) rfl
      have down := visit.trans (course.append (⟨errands, some (.mapping id todo [])⟩ :: rest))
      have whole := Reaches.step first down
      rw [offer] at whole
      exact ⟨_, whole⟩

theorem TakesTurns.reaches (turns : TakesTurns action id keys w offers calls w₁) (errands : List Errand)
    (rest : List Frame) (todo : List Text) : ∃ k, Reaches ⟨action, ignore⟩ k
      (⟨errands, some (.mapping id (keys ++ todo) [])⟩ :: rest) w calls
      (⟨errands, some (.mapping id todo [])⟩ :: rest) w₁ := by
  induction turns generalizing todo with
  | nil => exact ⟨0, .refl _ _⟩
  | @snoc keys key _ _ _ _ _ _ _ _ turn ih =>
    obtain ⟨k, before⟩ := ih (key :: todo)
    obtain ⟨l, last⟩ := turn.reaches errands rest todo
    rw [List.append_assoc, List.singleton_append]
    exact ⟨k + l, before.trans last⟩

theorem Underway.turns {inner : List (Call σ)} (underway : Underway action id keys w todo offers calls m w₁)
    {k : Nat} (course : Reaches ⟨action, ignore⟩ k [.below m] w₁ inner [] w₂) :
    ∃ done, keys = done ++ todo ∧ TakesTurns action id done w offers (calls ++ inner) w₂ := by
  cases underway with
  | @intro done _ key _ _ n _ given _ _ all earlier held sets one =>
    have inside : Inside action (given.getD [n]) w₁ inner w₂ := one ▸ .below course
    have turn := Turn.present held sets inside
    refine ⟨done ++ [key], ?_, ?_⟩
    · rw [all, List.append_assoc, List.singleton_append]
    · rw [List.append_assoc, List.singleton_append]
      exact earlier.snoc turn

theorem TakesTurns.step {done : List Text} (earlier : TakesTurns action id done w offers calls w₁)
    (all : keys = done ++ key :: todo)
    (first : Walk.step ⟨action, ignore⟩ ⟨errands, some (.mapping id (key :: todo) [])⟩ rest w₁ =
      (.ok stack', w₂)) :
    ∃ offers', Stage action errands rest id keys w offers'
      (calls ++ callsAt ⟨errands, some (.mapping id (key :: todo) [])⟩ rest w₁) stack' w₂ := by
  have rest_all : keys = (done ++ [key]) ++ todo := by
    rw [all, List.append_assoc, List.singleton_append]
  cases value : (w₁.store.mapping id).get? key with
  | none =>
    have quiet : offered? w₁.store ⟨errands, some (.mapping id (key :: todo) [])⟩ rest = none := by
      rw [offered?, move_skip value]
    rw [step_eq, move_skip value] at first
    cases first
    rw [callsAt_quiet quiet]
    exact ⟨_, .turn rest_all (earlier.snoc (.absent value))⟩
  | some n =>
    rw [callsAt_offered (offered?_of_move (move_value value))]
    obtain ⟨given, sets, rfl⟩ := (value_step_iff errands rest todo value).mp first
    rcases sets.settled with nothing | ⟨m, one⟩
    · have inside : Inside action (given.getD [n]) w₂ [] w₂ := by
        rw [nothing]
        exact .nothing w₂
      rw [nothing]
      exact ⟨_, .turn rest_all (earlier.snoc (.present value sets inside))⟩
    · rw [one]
      exact ⟨_, .settled (.intro all earlier value sets one)⟩

theorem Underway.step {k : Nat} {above : List Frame} {inner : List (Call σ)} {w₀ : World σ}
    (underway : Underway action id keys w todo offers calls m w₀)
    (course : Reaches ⟨action, ignore⟩ k [.below m] w₀ inner (frame :: above) w₁)
    (first : Walk.step ⟨action, ignore⟩ frame (above ++ ⟨errands, some (.mapping id todo [])⟩ :: rest) w₁ =
      (.ok stack', w₂)) :
    ∃ offers', Stage action errands rest id keys w offers' (calls ++ inner ++
      callsAt frame (above ++ ⟨errands, some (.mapping id todo [])⟩ :: rest) w₁) stack' w₂ := by
  rw [step_append] at first
  rw [callsAt_append, List.append_assoc]
  generalize stepped : Walk.step ⟨action, ignore⟩ frame above w₁ = x at first
  obtain ⟨_ | above', w'⟩ := x
  · cases first
  cases first
  have further := course.snoc stepped
  cases above' with
  | nil =>
    obtain ⟨done, all, turns⟩ := underway.turns further
    exact ⟨offers, .turn all turns⟩
  | cons frame' above' => exact ⟨offers, .below underway further⟩

/-- The next step of a walk through a mapping leads to the next stage. -/
theorem Stage.step (stage : Stage action errands rest id keys w offers calls (frame :: stack) w₁)
    (first : Walk.step ⟨action, ignore⟩ frame stack w₁ = (.ok stack', w₂)) :
    ∃ offers', Stage action errands rest id keys w offers' (calls ++ callsAt frame stack w₁) stack' w₂ := by
  generalize before : frame :: stack = whole at stage
  cases stage with
  | @turn done todo _ _ _ all earlier =>
    cases before
    cases todo with
    | nil =>
      cases first
      rw [List.append_nil] at all
      exact ⟨offers, .past (all ▸ earlier) (.refl _ _)⟩
    | cons key todo => exact earlier.step all first
  | @settled todo _ _ m _ underway =>
    cases before
    cases first
    rw [callsAt_quiet rfl]
    exact ⟨offers, .below underway (.refl [.below m] w₁)⟩
  | below underway course =>
    cases before
    exact underway.step course first
  | past earlier course =>
    subst before
    rw [List.append_assoc]
    exact ⟨offers, .past earlier (course.snoc first)⟩

theorem Stage.course {k : Nat} (stage : Stage action errands rest id keys w offers calls stack w₁)
    (course : Reaches ⟨action, ignore⟩ k stack w₁ later stack' w₂) :
    ∃ offers', Stage action errands rest id keys w offers' (calls ++ later) stack' w₂ := by
  induction course generalizing offers calls with
  | refl => exact ⟨offers, by simpa using stage⟩
  | step first _ ih =>
    obtain ⟨_, next⟩ := stage.step first
    obtain ⟨offers', last⟩ := ih next
    exact ⟨offers', by simpa using last⟩

/-- What was offered in the turns of some keys: values of these keys, in their order and once each, from the
moment of the call. -/
structure Offered (id : MappingId) (keys : List Text) (offers : List (Text × Call σ)) (calls : List (Call σ)) :
    Prop where
  order : (offers.map (·.1)).Sublist keys
  calls : ∀ offer ∈ offers, offer.2 ∈ calls
  values : ∀ offer ∈ offers, (offer.2.world.store.mapping id).get? offer.1 = some offer.2.node

theorem Offered.append {keys' : List Text} {offers' : List (Text × Call σ)} (h : Offered id keys offers calls)
    (h' : Offered id keys' offers' later) : Offered id (keys ++ keys') (offers ++ offers') (calls ++ later) where
  order := by
    rw [List.map_append]
    exact h.order.append h'.order
  calls := List.forall_mem_append.mpr ⟨fun offer member => List.mem_append_left _ (h.calls offer member),
    fun offer member => List.mem_append_right _ (h'.calls offer member)⟩
  values := List.forall_mem_append.mpr ⟨h.values, h'.values⟩

theorem offered_none (id : MappingId) (keys : List Text) (calls : List (Call σ)) : Offered id keys [] calls :=
  ⟨List.nil_sublist keys, by simp, by simp⟩

theorem offered_one (held : (w.store.mapping id).get? key = some n) (todo : List Text) (calls : List (Call σ)) :
    Offered id (key :: todo) [(key, ⟨n, w⟩)] (⟨n, w⟩ :: calls) where
  order := List.singleton_sublist.mpr List.mem_cons_self
  calls := List.forall_mem_singleton.mpr List.mem_cons_self
  values := List.forall_mem_singleton.mpr held

theorem Offered.then (h : Offered id keys offers calls) (todo : List Text) (later : List (Call σ)) :
    Offered id (keys ++ todo) offers (calls ++ later) := by
  have more := h.append (offered_none id todo later)
  rwa [List.append_nil] at more

theorem TakesTurns.offered (turns : TakesTurns action id keys w offers calls w₁) :
    Offered id keys offers calls := by
  induction turns with
  | nil => exact offered_none id [] []
  | snoc _ turn ih =>
    cases turn with
    | absent => exact ih.append (offered_none id _ [])
    | present held => exact ih.append (offered_one held [] _)

theorem Underway.offered (underway : Underway action id keys w todo offers calls m w₁) :
    Offered id keys offers calls := by
  cases underway with
  | intro all earlier held =>
    rw [all]
    exact earlier.offered.append (offered_one held todo [])

theorem Stage.offered (stage : Stage action errands rest id keys w offers calls stack w₁) :
    Offered id keys offers calls := by
  cases stage with
  | @turn _ todo _ _ _ all earlier =>
    have sofar := earlier.offered.then todo []
    rwa [List.append_nil, ← all] at sofar
  | settled underway => exact underway.offered
  | @below _ _ _ inner _ _ _ _ _ _ underway _ =>
    have sofar := underway.offered.then [] inner
    rwa [List.append_nil] at sofar
  | @past _ _ later _ _ _ _ earlier _ =>
    have sofar := earlier.offered.then [] later
    rwa [List.append_nil] at sofar

/-- Why a walk fails where a value is offered: the action does, or its answer is no nodes, or it is more nodes
than one. -/
inductive Fault (action : NodeId → Effect ε σ Reply) (key : Text) (n : NodeId) (w : World σ) :
    Halt ε → World σ → Prop
  | raised {e : Thrown ε} {w' : World σ} (answer : (action n).run w = (.error e, w')) :
      Fault action key n w (.ofOffer e) w'
  | unusable {reply : Reply} {r : Rejection} {w' : World σ} (answer : (action n).run w = (.ok reply, w'))
      (bad : reply.replacement (w.store.element n).kind = .error r) : Fault action key n w (.rejected r) w'
  | crowded {reply : Reply} {ns : List NodeId} {w' : World σ} (answer : (action n).run w = (.ok reply, w'))
      (usable : reply.replacement (w.store.element n).kind = .ok (some ns)) (many : 1 < ns.length) :
      Fault action key n w (.rejected (.tooMany (w.store.element n).kind key ns.length)) w'

/-- A walk does not fail in a mapping but for what it is answered: not for a key that is missing, nor for one
that is new. -/
theorem fault_of_error {settled : List NodeId} {h : Halt ε}
    (failed : step ⟨action, ignore⟩ ⟨errands, some (.mapping id keys settled)⟩ rest w = (.error h, w₁)) :
    ∃ key todo n, keys = key :: todo ∧ settled = [] ∧ (w.store.mapping id).get? key = some n ∧
      Fault action key n w h w₁ := by
  match keys, settled with
  | _, m :: settled => cases failed
  | [], [] => cases failed
  | key :: todo, [] =>
    cases value : (w.store.mapping id).get? key with
    | none =>
      rw [step_eq, move_skip value] at failed
      cases failed
    | some n =>
      refine ⟨key, todo, n, rfl, rfl, value, ?_⟩
      rw [step_eq, move_value value] at failed
      simp only [perform, offer] at failed
      cases answer : (action n).run w with
      | mk result w' =>
        rw [answer] at failed
        cases result with
        | error e =>
          cases failed
          exact .raised answer
        | ok reply =>
          cases usable : reply.replacement (w.store.element n).kind with
          | error r =>
            simp only [usable, bind, Except.bind] at failed
            cases failed
            exact .unusable answer usable
          | ok given =>
            simp only [usable, bind, Except.bind] at failed
            rcases given with _ | _ | ⟨m, _ | ⟨m', ns⟩⟩
            · cases failed
            · cases failed
            · cases failed
            · cases failed
              exact .crowded answer usable (by simp)

end

/-- On a walk an action takes no mapping out of the store, and leaves none that has a key twice. -/
structure KeepsMappings (action : NodeId → Effect ε σ Reply) (root : Root) (w₀ : World σ) : Prop where
  known : ∀ frame rest w n id, Reached action root w₀ (frame :: rest) w →
    offered? w.store frame rest = some n → w.store.Knows (.mapping id) →
    ((action n).run w).2.store.Knows (.mapping id)
  keyed : ∀ frame rest w n, Reached action root w₀ (frame :: rest) w →
    offered? w.store frame rest = some n → w.store.Keyed → ((action n).run w).2.store.Keyed

section

variable {action : NodeId → Effect ε σ Reply} {root : Root} {errands more : List Errand}
  {frame : Frame} {rest stack : List Frame} {id : MappingId} {keys todo : List Text} {key : Text}
  {n : NodeId} {w₀ w w₁ w₂ w' : World σ}

theorem settleMapping_keyed {s s' : Store} {kind : Kind} {given : Option (List NodeId)} {cursor : Cursor}
    (keyed : s.Keyed) (settled : settleMapping s id kind key keys n given = .ok (cursor, s')) : s'.Keyed := by
  match given with
  | none =>
    cases settled
    exact keyed
  | some [] =>
    cases settled
    exact keyed.setMapping (Mapping.nodup_erase (keyed.mapping id))
  | some [m] =>
    cases settled
    exact keyed.setMapping (Mapping.nodup_put (keyed.mapping id))
  | some (_ :: _ :: _) => cases settled

theorem KeepsMappings.step_keyed (keeps : KeepsMappings action root w₀)
    (reached : Reached action root w₀ (frame :: rest) w) (keyed : w.store.Keyed)
    (first : step ⟨action, ignore⟩ frame rest w = (.ok stack, w')) : w'.store.Keyed := by
  cases next : offered? w.store frame rest with
  | none => exact step_quiet next first ▸ keyed
  | some n =>
    have after := keeps.keyed _ _ _ _ reached next keyed
    obtain ⟨errands, cursor⟩ := frame
    rcases offered?_cases next with ⟨id, index, rfl, member⟩ | ⟨id, key, keys, rfl, value⟩
    · obtain ⟨reply, given, w₁, cursor, s, answer, _, settled, _, rfl⟩ :=
        (step_offer_iff (move_member member)).mp first
      rw [answer] at after
      cases given with
      | none =>
        cases settled
        exact after
      | some ns =>
        cases settled
        exact after
    · obtain ⟨reply, given, w₁, cursor, s, answer, _, settled, _, rfl⟩ :=
        (step_offer_iff (move_value value)).mp first
      rw [answer] at after
      exact settleMapping_keyed after settled

theorem KeepsMappings.reached_keyed (keeps : KeepsMappings action root w₀) (keyed : w₀.store.Keyed)
    (reached : Reached action root w₀ stack w) : w.store.Keyed := by
  refine (reached.invariant (fun stack w => Reached action root w₀ stack w ∧ w.store.Keyed)
    ⟨⟨0, [], .refl _ _⟩, keyed⟩ ?_).2
  rintro frame rest w stack w' ⟨here, before⟩ first
  exact ⟨here.trans (.step first (.refl _ _)), keeps.step_keyed here before first⟩

/-- Right after an offer the key is not there if nothing is given for its value, and has what is given if that
is one node, whatever the call did to the mapping. -/
theorem KeepsMappings.sets (keeps : KeepsMappings action root w₀) (keyed : w₀.store.Keyed)
    (reached : Reached action root w₀ (⟨errands, some (.mapping id (key :: todo) [])⟩ :: rest) w)
    (held : (w.store.mapping id).get? key = some n) {given : Option (List NodeId)}
    (sets : Sets action id key n w given w₁) :
    (given = some [] → (w₁.store.mapping id).get? key = none) ∧
      ∀ m, given = some [m] → (w₁.store.mapping id).get? key = some m := by
  have next : offered? w.store ⟨errands, some (.mapping id (key :: todo) [])⟩ rest = some n :=
    offered?_of_move (move_value held)
  have known := keeps.known _ _ _ _ id reached next (Store.knows_of_get? held)
  have after := keeps.keyed _ _ _ _ reached next (keeps.reached_keyed keyed reached)
  cases sets with
  | kept => exact ⟨nofun, nofun⟩
  | removed answer =>
    rw [answer] at known after
    refine ⟨fun _ => ?_, nofun⟩
    rw [World.withMapping, Store.mapping_set known, Mapping.get?_erase (after.mapping id)]
  | replaced answer =>
    rw [answer] at known
    refine ⟨nofun, fun m same => ?_⟩
    cases same
    rw [World.withMapping, Store.mapping_set known, Mapping.get?_put]

theorem Sets.usable {given : Option (List NodeId)} {reply : Reply} (sets : Sets action id key n w given w₁)
    (answer : (action n).run w = (.ok reply, w')) :
    reply.replacement (w.store.element n).kind = .ok given := by
  cases sets with
  | kept answer' usable | removed answer' usable | replaced answer' usable =>
    cases answer.symm.trans answer'
    exact usable

/-- How a walk goes through a mapping, from the world in which it opens it. -/
structure GoesThrough (action : NodeId → Effect ε σ Reply) (root : Root) (w₀ : World σ)
    (errands more : List Errand) (rest : List Frame) (id : MappingId) (keys : List Text) (w : World σ) : Prop where
  distinct : keys.Nodup
  opens : step ⟨action, ignore⟩ ⟨errands, none⟩ rest w =
    (.ok (⟨more, some (.mapping id keys [])⟩ :: rest), w)
  /-- Wherever the walk comes, the keys have had turns in their order. -/
  stages : ∀ k calls stack w₁, Reaches ⟨action, ignore⟩ k
      (⟨more, some (.mapping id keys [])⟩ :: rest) w calls stack w₁ →
    ∃ offers, Stage action more rest id keys w offers calls stack w₁ ∧ Offered id keys offers calls
  /-- Where all keys can have their turns, they have them. -/
  turns : ∀ offers calls w₁, TakesTurns action id keys w offers calls w₁ →
    ∃ k, Reaches ⟨action, ignore⟩ k (⟨more, some (.mapping id keys [])⟩ :: rest) w calls
      (⟨more, some (.mapping id [] [])⟩ :: rest) w₁
  /-- A key that has its turn is offered just if it is there. -/
  offers : ∀ key todo s, offered? s ⟨more, some (.mapping id (key :: todo) [])⟩ rest =
    (s.mapping id).get? key
  /-- Right after an offer the key is not there if nothing is given, and else has the node that is given. -/
  sets : ∀ key todo w₁ n reply w₂ stack w₃,
    Reached action root w₀ (⟨more, some (.mapping id (key :: todo) [])⟩ :: rest) w₁ →
    (w₁.store.mapping id).get? key = some n → (action n).run w₁ = (.ok reply, w₂) →
    step ⟨action, ignore⟩ ⟨more, some (.mapping id (key :: todo) [])⟩ rest w₁ = (.ok stack, w₃) →
    (reply.replacement (w₁.store.element n).kind = .ok (some []) → (w₃.store.mapping id).get? key = none) ∧
      ∀ m, reply.replacement (w₁.store.element n).kind = .ok (some [m]) →
        (w₃.store.mapping id).get? key = some m
  /-- A walk does not fail in the mapping but for what it is answered. -/
  faults : ∀ todo settled w₁ h w₂,
    step ⟨action, ignore⟩ ⟨more, some (.mapping id todo settled)⟩ rest w₁ = (.error h, w₂) →
    ∃ key later n, todo = key :: later ∧ settled = [] ∧ (w₁.store.mapping id).get? key = some n ∧
      Fault action key n w₁ h w₂

/-- However an action edits a mapping that is being walked, the walk goes through it: the keys are those that it
had in the beginning; each that is there when its turn comes is offered, with its value of that moment; what is
given is set whether or not the key is still there; and nothing but an answer makes the walk fail. -/
theorem mapping_survives (keyed : w₀.store.Keyed) (keeps : KeepsMappings action root w₀)
    (reached : Reached action root w₀ (⟨errands, none⟩ :: rest) w)
    (next : Errand.resume w.store errands = some (.mapping id, more)) :
    GoesThrough action root w₀ errands more rest id (w.store.mapping id).keys w where
  distinct := (keeps.reached_keyed keyed reached).mapping id
  opens := by
    rw [step_eq, move_enter next]
    rfl
  stages := by
    intro k calls stack w₁ course
    have start : Stage action more rest id (w.store.mapping id).keys w [] []
        (⟨more, some (.mapping id (w.store.mapping id).keys [])⟩ :: rest) w :=
      .turn (List.nil_append _).symm (.nil w)
    obtain ⟨offers, stage⟩ := start.course course
    exact ⟨offers, stage, stage.offered⟩
  turns := by
    intro offers calls w₁ turns
    obtain ⟨k, course⟩ := turns.reaches more rest []
    rw [List.append_nil] at course
    exact ⟨k, course⟩
  offers := by
    intro key todo s
    cases value : (s.mapping id).get? key with
    | none => rw [offered?, move_skip value]
    | some n => exact offered?_of_move (move_value value)
  sets := by
    intro key todo w₁ n reply w₂ stack w₃ there held answer first
    obtain ⟨given, sets, _⟩ := (value_step_iff more rest todo held).mp first
    obtain ⟨removed, replaced⟩ := keeps.sets keyed there held sets
    rw [sets.usable answer]
    exact ⟨fun nothing => removed (Except.ok.inj nothing), fun m one => replaced m (Except.ok.inj one)⟩
  faults := fun _ _ _ _ _ failed => fault_of_error failed

end

/-! A document with a title, a subtitle and a date. When the title is offered, the subtitle goes, and a new key
comes. When the date is offered, it goes, and the title comes back. Nothing is given for either. -/

def dated : Store :=
  .ofElements [.document [1, 23] ⟨0⟩ ⟨0⟩, .text .str "title", .text .str "subtitle", .text .str "date"] [[]]
    [[("title", ⟨1⟩), ("subtitle", ⟨2⟩), ("date", ⟨3⟩)]]

def rearrange (n : NodeId) : Effect Empty Nat Reply :=
  .ofFunction fun w =>
    let entries := w.store.mapping ⟨0⟩
    let edited :=
      if n = ⟨1⟩ then (entries.erase "subtitle").put "extra" ⟨2⟩ else (entries.erase "date").put "title" ⟨1⟩
    (.ok (.several []), ⟨w.store.setMapping ⟨0⟩ edited, w.state + 1⟩)

theorem rearrange_keepsMappings : KeepsMappings rearrange (.node ⟨0⟩) ⟨dated, 0⟩ where
  known := fun _ _ _ _ _ _ _ known => known.setMapping
  keyed := by
    intro _ _ w n _ _ keyed
    refine keyed.setMapping ?_
    have distinct := keyed.mapping ⟨0⟩
    split
    · exact Mapping.nodup_put (Mapping.nodup_erase distinct)
    · exact Mapping.nodup_put (Mapping.nodup_erase distinct)

theorem dated_survives :
    dated.Keyed ∧ KeepsMappings rearrange (.node ⟨0⟩) ⟨dated, 0⟩ ∧
      GoesThrough rearrange (.node ⟨0⟩) ⟨dated, 0⟩ [.node ⟨0⟩] [.containers [], .blocks ⟨0⟩] [] ⟨0⟩
        ["title", "subtitle", "date"] ⟨dated, 0⟩ ∧
      (transform 20 rearrange (.node ⟨0⟩) ⟨dated, 0⟩).2.state = 2 ∧
      (transform 20 rearrange (.node ⟨0⟩) ⟨dated, 0⟩).2.store.mapping ⟨0⟩ =
        ([("extra", ⟨2⟩), ("title", ⟨1⟩)] : Mapping NodeId) := by
  have keyed : dated.Keyed := by decide
  have reached : Reached rearrange (.node ⟨0⟩) ⟨dated, 0⟩ [.below ⟨0⟩] ⟨dated, 0⟩ := ⟨0, [], .refl _ _⟩
  exact ⟨keyed, rearrange_keepsMappings, mapping_survives keyed rearrange_keepsMappings reached rfl, rfl, rfl⟩

end Walk

end DocTree
