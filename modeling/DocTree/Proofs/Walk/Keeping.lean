import DocTree.Proofs.Walk.Lockstep
import DocTree.Proofs.Walk.Turning
/-!
The ways to keep a node: an action says nothing, names the node, or gives a list or a tuple of it alone. The
last two are written into the container, which changes nothing there as long as the node has its place, and
brings the cursor to where it is after the first. So actions that differ in nothing else walk alike.
-/

namespace DocTree

theorem Mapping.put_held {α : Type} {m : Mapping α} {key : Text} {a : α} (held : m.get? key = some a) :
    m.put key a = m := by
  induction m with
  | nil => cases held
  | cons entry rest ih =>
    obtain ⟨other, b⟩ := entry
    rw [get?] at held
    rw [put]
    split at held
    · next here =>
      obtain rfl := Option.some.inj held
      rw [if_pos here]
    · next elsewhere => rw [if_neg elsewhere, ih held]

theorem Store.splice_held {s : Store} {id : SequenceId} {index : Nat} {n : NodeId}
    (held : (s.sequence id)[index]? = some n) : s.splice id index [n] = s := by
  obtain ⟨inside, rfl⟩ := List.getElem?_eq_some_iff.mp held
  have same : (s.sequence id).take index ++ [(s.sequence id)[index]] ++ (s.sequence id).drop (index + 1) =
      s.sequence id := by
    rw [List.append_assoc, List.singleton_append, ← List.drop_eq_getElem_cons inside, List.take_append_drop]
  rw [Store.splice, same, Store.setSequence_sequence]

namespace Walk

inductive Keeps (n : NodeId) : Reply → Prop
  | silent : Keeps n .keep
  | named : Keeps n (.node n)
  | alone : Keeps n (.several [.node n])

def Cursor.past (n : NodeId) : Cursor → Cursor
  | .sequence id index _ => .sequence id (index + 1) [n]
  | .mapping id keys _ => .mapping id keys.tail [n]

variable {ε σ σ' : Type}

theorem Keeps.replacement {n : NodeId} {reply : Reply} (keeps : Keeps n reply) (kind : Kind) :
    reply.replacement kind = .ok none ∨ reply.replacement kind = .ok (some [n]) := by
  cases keeps with
  | silent => exact .inl rfl
  | named => exact .inr rfl
  | alone => exact .inr rfl

section

variable {action : NodeId → Effect ε σ Reply} {frame : Frame} {rest : List Frame} {w w₁ : World σ}
  {n : NodeId} {reply : Reply}

/-- A node that is kept, whichever way, is settled where it is, and the containers are as the call left
them. -/
theorem step_kept (next : offered? w.store frame rest = some n) (answer : (action n).run w = (.ok reply, w₁))
    (keeps : Keeps n reply) (held : offered? w₁.store frame rest = some n) :
    step ⟨action, ignore⟩ frame rest w =
      (.ok ({ frame with cursor := frame.cursor.map (·.past n) } :: rest), w₁) := by
  obtain ⟨errands, cursor⟩ := frame
  rcases offered?_cases next with ⟨id, index, rfl, member⟩ | ⟨id, key, keys, rfl, value⟩
  · have place : (w₁.store.sequence id)[index]? = some n := by
      rcases offered?_cases held with ⟨_, _, same, place⟩ | ⟨_, _, _, same, _⟩
      · cases same
        exact place
      · cases same
    -- Of the answers that keep a node, some put it into the place that it has.
    have settled : ∀ given, given = none ∨ given = some [n] →
        settleSequence w₁.store id index n given = (.sequence id (index + 1) [n], w₁.store) := by
      rintro _ (rfl | rfl)
      · rfl
      · rw [settleSequence, Store.splice_held place, List.length_singleton]
    rw [step_offer_iff (move_member member)]
    rcases keeps.replacement (w.store.element n).kind with usable | usable
    · exact ⟨reply, _, w₁, _, _, answer, usable, congrArg _ (settled _ (.inl rfl)), rfl, rfl⟩
    · exact ⟨reply, _, w₁, _, _, answer, usable, congrArg _ (settled _ (.inr rfl)), rfl, rfl⟩
  · have place : (w₁.store.mapping id).get? key = some n := by
      rcases offered?_cases held with ⟨_, _, same, _⟩ | ⟨_, _, _, same, place⟩
      · cases same
      · cases same
        exact place
    have settled : ∀ given, given = none ∨ given = some [n] →
        settleMapping w₁.store id (w.store.element n).kind key keys n given =
          .ok (.mapping id keys [n], w₁.store) := by
      rintro _ (rfl | rfl)
      · rfl
      · rw [settleMapping, Mapping.put_held place, Store.setMapping_mapping]
    rw [step_offer_iff (move_value value)]
    rcases keeps.replacement (w.store.element n).kind with usable | usable
    · exact ⟨reply, _, w₁, _, _, answer, usable, settled _ (.inl rfl), rfl, rfl⟩
    · exact ⟨reply, _, w₁, _, _, answer, usable, settled _ (.inr rfl), rfl, rfl⟩

end

def Call.Alike (S : σ → σ' → Prop) (call : Call σ) (call' : Call σ') : Prop :=
  call'.node = call.node ∧ call.world.Alike S call'.world

/-- How two calls may come out: alike, or both with an answer that keeps the node, which still has its place
in its list or under its key. -/
inductive KeptAlike (S : σ → σ' → Prop) (frame : Frame) (rest : List Frame) (n : NodeId) :
    Except ε Reply × World σ → Except ε Reply × World σ' → Prop
  | same {x : Except ε Reply × World σ} {y : Except ε Reply × World σ'} (alike : Matches S x y) :
      KeptAlike S frame rest n x y
  | kept {reply reply' : Reply} {w : World σ} {w' : World σ'} (keeps : Keeps n reply)
      (keeps' : Keeps n reply') (alike : w.Alike S w') (held : offered? w.store frame rest = some n) :
      KeptAlike S frame rest n (.ok reply, w) (.ok reply', w')

/-- Wherever two walks come side by side, their actions do the same, but for how they keep a node. -/
def KeepAlike (S : σ → σ' → Prop) (action : NodeId → Effect ε σ Reply)
    (action' : NodeId → Effect ε σ' Reply) (root : Root) (w₀ : World σ) (w₀' : World σ') : Prop :=
  ∀ frame rest w w' n, Reached action root w₀ (frame :: rest) w →
    Reached action' root w₀' (frame :: rest) w' → w.Alike S w' →
    offered? w.store frame rest = some n →
    KeptAlike S frame rest n ((action n).run w) ((action' n).run w')

section

variable {S : σ → σ' → Prop} {action : NodeId → Effect ε σ Reply} {action' : NodeId → Effect ε σ' Reply}
  {root : Root} {w₀ w : World σ} {w₀' w' : World σ'} {frame : Frame} {rest stack : List Frame}

theorem KeepAlike.step_matches (keeps : KeepAlike S action action' root w₀ w₀')
    (reached : Reached action root w₀ (frame :: rest) w)
    (reached' : Reached action' root w₀' (frame :: rest) w') (alike : w.Alike S w') :
    Matches S (step ⟨action, ignore⟩ frame rest w) (step ⟨action', ignore⟩ frame rest w') := by
  have visits : ∀ n depth, Matches S ((ignore n depth : Effect ε σ Unit).run w)
      ((ignore n depth : Effect ε σ' Unit).run w') := fun _ _ => ⟨rfl, alike⟩
  cases next : offered? w.store frame rest with
  | none =>
    refine Walk.step_matches alike (fun n offer => ?_) (fun _ => visits) fun _ => alike.2
    rw [next] at offer
    cases offer
  | some n =>
    have agree := keeps frame rest w w' n reached reached' alike next
    generalize answer : (action n).run w = x at agree
    generalize answer' : (action' n).run w' = y at agree
    cases agree with
    | same same =>
      refine Walk.step_matches alike (fun m offer => ?_) (fun _ => visits) fun _ => alike.2
      obtain rfl := Option.some.inj (next.symm.trans offer)
      change Matches S ((action n).run w) ((action' n).run w')
      rwa [answer, answer']
    | kept keeps keeps' after held =>
      have next' : offered? w'.store frame rest = some n := alike.1 ▸ next
      have held' : offered? _ frame rest = some n := after.1 ▸ held
      rw [step_kept next answer keeps held, step_kept next' answer' keeps' held']
      exact ⟨rfl, after⟩

theorem callsAt_alike (frame : Frame) (rest : List Frame) (alike : w.Alike S w') :
    List.Forall₂ (Call.Alike S) (callsAt frame rest w) (callsAt frame rest w') := by
  have same : offered? w'.store frame rest = offered? w.store frame rest := by rw [alike.1]
  cases next : offered? w.store frame rest with
  | none =>
    rw [callsAt_quiet next, callsAt_quiet (same.trans next)]
    exact .nil
  | some n =>
    rw [callsAt_offered next, callsAt_offered (same.trans next)]
    exact .cons ⟨rfl, alike⟩ .nil

/-- Two runs side by side: they come out alike, and their calls are alike one by one. -/
theorem KeepAlike.run_matches (keeps : KeepAlike S action action' root w₀ w₀') (fuel : Nat)
    (reached : Reached action root w₀ stack w) (reached' : Reached action' root w₀' stack w')
    (alike : w.Alike S w') :
    Matches S (run ⟨action, ignore⟩ fuel stack w) (run ⟨action', ignore⟩ fuel stack w') ∧
      List.Forall₂ (Call.Alike S) (callsOf action fuel stack w) (callsOf action' fuel stack w') := by
  induction fuel generalizing stack w w' with
  | zero => cases stack <;> exact ⟨⟨rfl, alike⟩, .nil⟩
  | succ fuel ih =>
    cases stack with
    | nil => exact ⟨⟨rfl, alike⟩, .nil⟩
    | cons frame rest =>
      have first := keeps.step_matches reached reached' alike
      have called := callsAt_alike frame rest alike
      rw [run, run, callsOf, callsOf]
      generalize stepped : step ⟨action, ignore⟩ frame rest w = x at first ⊢
      generalize stepped' : step ⟨action', ignore⟩ frame rest w' = y at first ⊢
      obtain ⟨result, w₁⟩ := x
      obtain ⟨result', w₁'⟩ := y
      obtain ⟨same, after⟩ := first
      obtain rfl : result' = result := same
      cases result' with
      | error h => exact ⟨⟨rfl, after⟩, List.rel_append called .nil⟩
      | ok stack =>
        have there := reached.trans (.step stepped (.refl stack w₁))
        have there' := reached'.trans (.step stepped' (.refl stack w₁'))
        obtain ⟨alikes, later⟩ := ih there there' after
        exact ⟨alikes, List.rel_append called later⟩

/-- Two actions that do the same but for how they keep a node, whose place they do not edit then, walk alike:
they make the same calls and end in the same way, with the same tree. A call that keeps the node, whichever
way, leaves every list and every mapping as it is, with the keys in their order. -/
theorem keeping_alike (alike : w₀.Alike S w₀') (keeps : KeepAlike S action action' root w₀ w₀') :
    (∀ fuel, Matches S (transform fuel action root w₀) (transform fuel action' root w₀') ∧
      ∃ calls calls', List.Forall₂ (Call.Alike S) calls calls' ∧
        transform fuel (logged action) root (w₀.logging []) =
          ((transform fuel action root w₀).1, (transform fuel action root w₀).2.logging calls) ∧
        transform fuel (logged action') root (w₀'.logging []) =
          ((transform fuel action' root w₀').1, (transform fuel action' root w₀').2.logging calls')) ∧
    ∀ frame rest w n reply w₁, offered? w.store frame rest = some n →
      (action n).run w = (.ok reply, w₁) → Keeps n reply → offered? w₁.store frame rest = some n →
      step ⟨action, ignore⟩ frame rest w =
        (.ok ({ frame with cursor := frame.cursor.map (·.past n) } :: rest), w₁) := by
  constructor
  · intro fuel
    have start : Reached action root w₀ [.ofRoot root] w₀ := ⟨0, [], .refl _ _⟩
    have start' : Reached action' root w₀' [.ofRoot root] w₀' := ⟨0, [], .refl _ _⟩
    obtain ⟨alikes, calls⟩ := keeps.run_matches fuel start start' alike
    exact ⟨alikes, _, _, calls, run_logged_eq fuel _ w₀ [], run_logged_eq fuel _ w₀' []⟩
  · exact fun _ _ _ _ _ _ next answer kept held => step_kept next answer kept held

end

/-! A document with a title, and twice the same paragraph. Two actions count the nodes that they are offered;
one keeps them with no word, the other one in every way there is. -/

def titled : Store :=
  .ofElements [.document [1, 23] ⟨0⟩ ⟨0⟩, .text .str "title", .wrap .para ⟨1⟩, .text .str "word"]
    [[⟨2⟩, ⟨2⟩], [⟨3⟩]] [[("title", ⟨1⟩), ("subtitle", ⟨1⟩)]]

def keepQuietly (_ : NodeId) : Effect Empty Nat Reply :=
  .ofFunction fun w => (.ok .keep, { w with state := w.state + 1 })

def keepVariously (n : NodeId) : Effect Empty Nat Reply :=
  .ofFunction fun w =>
    let reply : Reply :=
      if w.state % 3 = 0 then .several [.node n] else if w.state % 3 = 1 then .node n else .keep
    (.ok reply, { w with state := w.state + 1 })

theorem titled_keep_alike :
    KeepAlike Eq keepQuietly keepVariously (.node ⟨0⟩) ⟨titled, 0⟩ ⟨titled, 0⟩ := by
  rintro frame rest ⟨s, count⟩ ⟨s', count'⟩ n _ _ ⟨same, same'⟩ next
  obtain rfl : s' = s := same
  obtain rfl : count = count' := same'
  refine .kept .silent ?_ ⟨rfl, rfl⟩ next
  dsimp only
  split_ifs
  · exact .alone
  · exact .named
  · exact .silent

theorem titled_kept_alike :
    KeepAlike Eq keepQuietly keepVariously (.node ⟨0⟩) ⟨titled, 0⟩ ⟨titled, 0⟩ ∧
      Matches Eq (transform 30 keepQuietly (.node ⟨0⟩) ⟨titled, 0⟩)
        (transform 30 keepVariously (.node ⟨0⟩) ⟨titled, 0⟩) ∧
      (transform 30 keepVariously (.node ⟨0⟩) ⟨titled, 0⟩).2.state = 6 :=
  ⟨titled_keep_alike, ((keeping_alike ⟨rfl, rfl⟩ titled_keep_alike).1 30).1, rfl⟩

end Walk

end DocTree
