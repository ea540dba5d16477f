import DocTree.Proofs.Store.Weight
import DocTree.Proofs.Walk.Rewriting
/-!
Where a walk may be that was ready for a task: it is ready for a part of the task, and has edited nothing around
it, or the task is done. This holds of every walk, whether or not it comes to its end. In a document it tells
the two containers apart: while the walk is in the one, the other is as it is before or after.
-/

namespace DocTree.Walk

open Store (Object Same Hole)

variable {ε σ : Type}

theorem Reaches.of_mem {v : Visitor ε σ} {n : Nat} {stack stack' : List Frame} {w w' : World σ}
    {calls : List (Call σ)} (h : Reaches v n stack w calls stack' w') {call : Call σ} (member : call ∈ calls) :
    ∃ k m frame rest earlier later, Reaches v k stack w earlier (frame :: rest) call.world ∧
      offered? call.world.store frame rest = some call.node ∧
      Reaches v m (frame :: rest) call.world later stack' w' := by
  induction h with
  | refl => cases member
  | @step n frame rest _ _ w _ _ calls first later ih =>
    rcases List.mem_append.mp member with here | after
    · cases next : offered? w.store frame rest with
      | none =>
        rw [callsAt_quiet next] at here
        cases here
      | some m =>
        rw [callsAt_offered next] at here
        obtain rfl := List.mem_singleton.mp here
        exact ⟨0, n + 1, frame, rest, [], _, .refl _ _, next, .step first later⟩
    · obtain ⟨k, m, frame', rest', _, _, before, next, behind⟩ := ih after
      exact ⟨k + 1, m, frame', rest', _, _, .step first before, next, behind⟩

section

variable {action : NodeId → Effect ε σ Reply} {root : Root} {w₀ w : World σ} {stack : List Frame}

theorem callsOf_reached (fuel : Nat) (reached : Reached action root w₀ stack w) {call : Call σ}
    (member : call ∈ callsOf action fuel stack w) : ∃ frame rest,
      Reached action root w₀ (frame :: rest) call.world ∧
      offered? call.world.store frame rest = some call.node := by
  induction fuel generalizing stack w with
  | zero => cases stack <;> cases member
  | succ fuel ih =>
    cases stack with
    | nil => cases member
    | cons frame rest =>
      rcases List.mem_append.mp member with here | after
      · cases next : offered? w.store frame rest with
        | none =>
          rw [callsAt_quiet next] at here
          cases here
        | some m =>
          rw [callsAt_offered next] at here
          obtain rfl := List.mem_singleton.mp here
          exact ⟨frame, rest, reached, next⟩
      · cases first : step ⟨action, ignore⟩ frame rest w with
        | mk result w₁ =>
          rw [first] at after
          cases result with
          | error h => cases after
          | ok stack => exact ih (reached.trans (.step first (.refl stack w₁))) after

end

section

variable (action : NodeId → Effect ε σ Reply) (root : Root) (w₀ : World σ)

/-- A walk with a task is ready for a part of it, be it the whole, or it has done the task and gone on; either
way it has edited nothing around the task. -/
inductive Progress (around : List Object) (stack : List Frame) (w : World σ) (stack' : List Frame) (n : Nat)
    (stack₁ : List Frame) (w₁ : World σ) : Prop
  | within {wider : List Object} {part : Task} {stack₂ : List Frame} (contained : around ⊆ wider)
      (left : part ≠ .below []) (ready : Ready action root w₀ wider part stack₁ stack₂ w₁)
      (same : ∀ o ∈ around, Same w.store w₁.store o)
  | past {k m : Nat} {inner outer : List (Call σ)} {w₂ : World σ} (few : m ≤ n)
      (done : Reaches ⟨action, ignore⟩ k stack w inner stack' w₂)
      (same : ∀ o ∈ around, Same w.store w₂.store o)
      (later : Reaches ⟨action, ignore⟩ m stack' w₂ outer stack₁ w₁)

end

section

variable {action : NodeId → Effect ε σ Reply} {root : Root} {w₀ w w₁ : World σ} {task : Task}
  {around : List Object} {stack stack' stack₁ rest : List Frame} {frame : Frame} {calls : List (Call σ)}
  {n : Nat}

/-- A task that is not over is turned to a part of it by the next step, if that does not fail. -/
theorem Ready.turns (tame : Tame action root w₀) (ready : Ready action root w₀ around task stack stack' w)
    (goes : ¬ task.Over) (course : Reaches ⟨action, ignore⟩ (n + 1) stack w calls stack₁ w₁) :
    ∃ first part w₂ others, Turns action root w₀ around stack stack' w first part w₂ others := by
  match task with
  | .below [] | .slots [] | .members _ _ [] | .entries _ _ [] => exact absurd rfl goes
  | .below (m :: ns) => exact ⟨_, _, _, _, below_turns tame ready⟩
  | .slots (container :: containers) => exact ⟨_, _, _, _, slots_turn tame ready⟩
  | .members id settled (m :: todo) =>
    obtain ⟨ns, w₂, gives⟩ := member_given tame ready course (Nat.succ_pos n)
    exact ⟨_, _, _, _, member_turns tame ready gives⟩
  | .entries id settled ((key, m) :: todo) =>
    obtain ⟨ns, w₂, gives, room⟩ := entry_given tame ready course (Nat.succ_pos n)
    exact ⟨_, _, _, _, entry_turns tame ready gives room⟩

theorem Ready.progress (tame : Tame action root w₀) (ready : Ready action root w₀ around task stack stack' w)
    (course : Reaches ⟨action, ignore⟩ n stack w calls stack₁ w₁) :
    Progress action root w₀ around stack w stack' n stack₁ w₁ := by
  -- The first step turns the task to a part. With fewer steps the walk is at that part or past it.
  induction n using Nat.strongRecOn generalizing around task stack stack' w calls with
  | ind n ih =>
    by_cases finished : task.Over
    · obtain ⟨k, few, none, done⟩ := over_reaches finished ready
      by_cases enough : k ≤ n
      · obtain ⟨m, rfl⟩ := Nat.exists_eq_add_of_le enough
        obtain ⟨_, _, later⟩ := done.split course
        exact .past (Nat.le_add_left m k) done (fun o _ => .refl _ o) later
      · obtain rfl : n = 0 := by omega
        cases course
        exact .within (List.Subset.refl _) (fun empty => enough (Nat.le_of_eq (none empty))) ready
          fun o _ => .refl _ o
    · cases n with
      | zero =>
        cases course
        have left : task ≠ .below [] := by
          rintro rfl
          exact finished rfl
        exact .within (List.Subset.refl _) left ready fun o _ => .refl _ o
      | succ n =>
        obtain ⟨_, part, w₂, others, turns⟩ := ready.turns tame finished course
        cases turns with
        | intro contained first same part_ready next =>
          rw [Nat.add_comm] at course
          obtain ⟨_, _, tail⟩ := first.split course
          cases ih n (by omega) part_ready tail with
          | within contained₁ left ready₁ same₁ =>
            exact .within (List.Subset.trans contained contained₁) left ready₁
              fun o member => (same o member).trans (same₁ o (contained member))
          | past few done same₁ later =>
            obtain ⟨wider₂, contained₂, ready₂⟩ := next _ (part_ready.reached.trans done) same₁
            have sofar : ∀ o ∈ around, Same w.store _ o :=
              fun o member => (same o member).trans (same₁ o (contained member))
            cases ih _ (by omega) ready₂ later with
            | within contained₃ left ready₃ same₃ =>
              exact .within (List.Subset.trans contained₂ contained₃) left ready₃
                fun o member => (sofar o member).trans (same₃ o (contained₂ member))
            | past few₃ done₃ same₃ later₃ =>
              exact .past (by omega) (first.trans (done.trans done₃))
                (fun o member => (sofar o member).trans (same₃ o (contained₂ member))) later₃

theorem Ready.keeps (tame : Tame action root w₀) (ready : Ready action root w₀ around task stack [] w)
    (course : Reaches ⟨action, ignore⟩ n stack w calls stack₁ w₁) : ∀ o ∈ around, Same w.store w₁.store o := by
  cases ready.progress tame course with
  | within _ _ _ same => exact same
  | past _ _ same later =>
    obtain ⟨_, _, _, rfl⟩ := later.of_empty
    exact same

theorem Ready.offered_apart {m : NodeId} (tame : Tame action root w₀)
    (ready : Ready action root w₀ around task (frame :: rest) stack' w) (left : task ≠ .below [])
    (next : offered? w.store frame rest = some m) : .node m ∉ around := by
  obtain ⟨reached, hole, position⟩ := ready
  have apart : ∀ container, task.objects = [container] → .node m ∈ w.store.parts container →
      .node m ∉ around := by
    intro container objects part near
    rw [objects] at hole
    exact hole.enter.separate (tame.unshared _ _ reached) part (List.mem_cons_of_mem _ near)
  cases position with
  | @below errands cursor ns rest =>
    cases ns with
    | nil => exact absurd rfl left
    | cons n ns =>
      rw [offered?, move_withSettled] at next
      cases next
  | slots _ _ _ =>
    obtain ⟨_, _, cursor, _⟩ | ⟨_, _, _, cursor, _⟩ := offered?_cases next
    · cases cursor
    · cases cursor
  | members rest content =>
    obtain ⟨_, _, cursor, member⟩ | ⟨_, _, _, cursor, _⟩ := offered?_cases next
    · cases cursor
      exact apart _ rfl (List.mem_map_of_mem (List.mem_of_getElem? member))
    · cases cursor
  | entries rest content =>
    obtain ⟨_, _, cursor, _⟩ | ⟨_, key, _, cursor, value⟩ := offered?_cases next
    · cases cursor
    · obtain ⟨rfl, _⟩ := Cursor.mapping.inj (Option.some.inj cursor)
      exact apart _ rfl (List.mem_map.mpr ⟨(key, m), Mapping.get?_mem value, rfl⟩)

end

section

variable {action : NodeId → Effect ε σ Reply} {document : NodeId} {w w₁ w' : World σ} {stack rest : List Frame}
  {frame : Frame} {version : List Int} {own : MappingId} {blocks : SequenceId}

theorem ready_ofNode (action : NodeId → Effect ε σ Reply) (n : NodeId) (w : World σ) :
    Ready action (.node n) w [.node n] (.slots (w.store.element n).slots) [.below n] [] w :=
  ⟨⟨0, [], .refl _ _⟩, (Hole.whole (.node n) w.store).enter,
    .slots [] (Errand.left_node w.store n) (List.forall_mem_singleton.mpr rfl) List.mem_cons_self⟩

theorem Tame.root_same {n : NodeId} (tame : Tame action (.node n) w)
    (reached : Reached action (.node n) w stack w₁) : w₁.store.element n = w.store.element n := by
  obtain ⟨_, _, course⟩ := reached
  exact ((ready_ofNode action n w).keeps tame course (.node n) List.mem_cons_self).element

theorem Tame.document_spans (tame : Tame action (.node document) w)
    (isDocument : w.store.element document = .document version own blocks)
    (reached : Reached action (.node document) w stack w₁) : ∃ all one two,
      w₁.store.Spans [(Root.node document).object] all ∧ w₁.store.Spans [.mapping own] one ∧
      w₁.store.Spans [.sequence blocks] two ∧ (∀ o ∈ one ++ two, o ∈ all) ∧ ∀ o ∈ one, o ∉ two := by
  obtain ⟨all, whole, nodup⟩ := tame.unshared _ _ reached
  obtain ⟨inside, rfl, _, spans⟩ := whole.of_single
  have parts : w₁.store.parts (.node document) = [.mapping own] ++ [.sequence blocks] := by
    rw [Store.parts, tame.root_same reached, isDocument]
    rfl
  rw [Root.object, parts] at spans
  obtain ⟨one, two, rfl, one_spans, two_spans⟩ := spans.of_append
  have apart := (List.nodup_append.mp (List.nodup_cons.mp nodup).2).2.2
  exact ⟨_, one, two, whole, one_spans, two_spans, fun o member => List.mem_cons_of_mem _ member,
    fun o first second => apart o first o second rfl⟩

/-- When something in the blocks of a document is offered, the metadata are as they are when the walk is over:
the walk has done with them. -/
theorem Tame.metadata_settled {n : NodeId} {k m : Nat} {earlier later : List (Call σ)} {below : List Object}
    (tame : Tame action (.node document) w)
    (isDocument : w.store.element document = .document version own blocks)
    (course : Reaches ⟨action, ignore⟩ k [.below document] w earlier (frame :: rest) w₁)
    (next : offered? w₁.store frame rest = some n)
    (ends : Reaches ⟨action, ignore⟩ m (frame :: rest) w₁ later [] w')
    (spans : w₁.store.Spans [.sequence blocks] below) (member : .node n ∈ below) :
    ∃ inside, w₁.store.Spans [.mapping own] inside ∧ ∀ o ∈ inside, Same w₁.store w'.store o := by
  have start := ready_ofNode action document w
  have slots : (w.store.element document).slots = [.mapping own, .sequence blocks] := by
    rw [isDocument]
    rfl
  rw [slots] at start
  obtain ⟨all, one, two, whole, one_spans, two_spans, inTree, apart⟩ :=
    tame.document_spans isDocument start.reached
  cases slots_turn tame start with
  | intro contained first same part_ready others =>
    -- Where the walk begins, nothing is offered yet.
    cases k with
    | zero =>
      cases course
      obtain ⟨_, _, cursor, _⟩ | ⟨_, _, _, cursor, _⟩ := offered?_cases next
      · cases cursor
      · cases cursor
    | succ k =>
      rw [Nat.add_comm] at course
      obtain ⟨_, _, tail⟩ := first.split course
      cases part_ready.progress tame tail with
      | within contained₁ left ready₁ same₁ =>
        -- In the metadata: what is offered is not in the blocks, which are around.
        exfalso
        have beside : two ⊆ _ := fun o inBlocks => part_ready.hole.beside one_spans whole
          (inTree o (List.mem_append_right _ inBlocks)) fun shared => apart o shared inBlocks
        obtain rfl := (two_spans.agree fun o inBlocks => same₁ o (beside inBlocks)).unique spans
        exact ready₁.offered_apart tame left next (contained₁ (beside member))
      | @past _ _ _ _ w₂ _ done same₁ later₁ =>
        -- In the blocks: the metadata are around.
        obtain ⟨wider₂, _, ready₂⟩ := others w₂ (part_ready.reached.trans done) same₁
        obtain ⟨all₂, one₂, two₂, whole₂, one_spans₂, two_spans₂, inTree₂, apart₂⟩ :=
          tame.document_spans isDocument ready₂.reached
        have beside : one₂ ⊆ wider₂ := fun o inMetadata => ready₂.hole.beside two_spans₂ whole₂
          (inTree₂ o (List.mem_append_left _ inMetadata)) (apart₂ o inMetadata)
        have now := ready₂.keeps tame later₁
        have atEnd := ready₂.keeps tame (later₁.trans ends)
        exact ⟨one₂, one_spans₂.agree fun o inMetadata => now o (beside inMetadata),
          fun o inMetadata => (now o (beside inMetadata)).symm.trans (atEnd o (beside inMetadata))⟩

end

end DocTree.Walk
