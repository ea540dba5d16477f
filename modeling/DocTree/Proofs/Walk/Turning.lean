import DocTree.Proofs.Store.Span
import DocTree.Proofs.Walk.Recursion
import DocTree.Proofs.Walk.Rest
/-!
Where a walk is when the recursion is at a task: which stack it has, to which stack the task leads, and
what of the tree is around it. Each rule of the recursion is one step of the walk, a part of the task, and
what is left of the task after that part.
-/

namespace DocTree.Walk

open Store (Object Same Hole)

variable {ε σ : Type}

section

variable {action : NodeId → Effect ε σ Reply} {w w' : World σ} {n : NodeId} {frame : Frame}
  {rest stack : List Frame}

theorem step_offer_iff {settle : Store → Option (List NodeId) → Except Rejection (Cursor × Store)}
    (next : move w.store frame rest = .offer n settle) :
    step ⟨action, ignore⟩ frame rest w = (.ok stack, w') ↔
      ∃ reply given w₁ cursor s, (action n).run w = (.ok reply, w₁) ∧
        reply.replacement (w.store.element n).kind = .ok given ∧
        settle w₁.store given = .ok (cursor, s) ∧
        stack = { frame with cursor := some cursor } :: rest ∧ w' = { w₁ with store := s } := by
  rw [step_eq, next]
  simp only [perform, offer]
  cases answer : (action n).run w with
  | mk result w₁ =>
    cases result with
    | error e => simp [Except.map]
    | ok reply =>
      cases usable : reply.replacement (w.store.element n).kind with
      | error r => simp [Except.map, bind, Except.bind, usable]
      | ok given =>
        cases settled : settle w₁.store given with
        | error r => simp [Except.map, bind, Except.bind, settled, usable]
        | ok place =>
          obtain ⟨cursor, s⟩ := place
          simp [Except.map, bind, Except.bind, settled, usable, eq_comm]

end

theorem settleSequence_eq {s : Store} {id : SequenceId} {settled todo : List NodeId} {n : NodeId}
    (content : s.sequence id = settled ++ n :: todo) (given : Option (List NodeId)) :
    settleSequence s id settled.length n given =
      (.sequence id (settled ++ given.getD [n]).length (given.getD [n]),
        s.setSequence id (settled ++ given.getD [n] ++ todo)) := by
  cases given with
  | none =>
    have same : s.setSequence id (settled ++ [n] ++ todo) = s := by
      rw [List.append_assoc, List.singleton_append, ← content]
      exact Store.setSequence_sequence s id
    rw [Option.getD_none, same, List.length_append]
    rfl
  | some ns => simp [settleSequence, Store.splice, content]

theorem settleMapping_eq_ok_iff {s s' : Store} {id : MappingId} {settled todo : Mapping NodeId}
    {key : Text} {n : NodeId} (content : s.mapping id = settled ++ (key, n) :: todo)
    (distinct : (s.mapping id).keys.Nodup) {kind : Kind} {keys : List Text}
    {given : Option (List NodeId)} {cursor : Cursor} :
    settleMapping s id kind key keys n given = .ok (cursor, s') ↔
      (given.getD [n]).length ≤ 1 ∧ cursor = .mapping id keys (given.getD [n]) ∧
        s' = s.setMapping id (settled ++ (given.getD [n]).map (key, ·) ++ todo) := by
  rw [content] at distinct
  have fresh := Mapping.fresh_of_nodup distinct
  match given with
  | none =>
    have same : s.setMapping id (settled ++ [n].map (key, ·) ++ todo) = s := by
      rw [List.append_assoc, List.map_singleton, List.singleton_append, ← content]
      exact Store.setMapping_mapping s id
    simp only [settleMapping, Option.getD_none, same]
    simp [eq_comm]
  | some [] => simp [settleMapping, content, Mapping.erase_middle fresh, eq_comm]
  | some [m] => simp [settleMapping, content, Mapping.put_middle fresh, eq_comm]
  | some (m :: m' :: ns) => simp [settleMapping]

def Task.objects : Task → List Object
  | below ns => ns.map .node
  | slots containers => containers.map .ofSlot
  | members id _ _ => [.sequence id]
  | entries id _ _ => [.mapping id]

/-- The stack from which a walk does a task, and the one to which this leads. -/
inductive Position (s : Store) (around : List Object) : Task → List Frame → List Frame → Prop
  | below {errands : List Errand} (cursor : Cursor) (ns : List NodeId)
      (rest : List Frame) :
      Position s around (.below ns) (⟨errands, some (cursor.withSettled ns)⟩ :: rest)
        (⟨errands, some (cursor.withSettled [])⟩ :: rest)
  | slots {n : NodeId} {errands : List Errand} {containers : List Container}
      (rest : List Frame) (left : Errand.left s errands = containers) (own : ∀ e ∈ errands, e.Of s n)
      (opened : .node n ∈ around) :
      Position s around (.slots containers) (⟨errands, none⟩ :: rest) rest
  | members {errands : List Errand} {id : SequenceId} {settled todo : List NodeId}
      (rest : List Frame) (content : s.sequence id = settled ++ todo) :
      Position s around (.members id settled todo)
        (⟨errands, some (.sequence id settled.length [])⟩ :: rest) (⟨errands, none⟩ :: rest)
  | entries {errands : List Errand} {id : MappingId} {settled todo : Mapping NodeId}
      (rest : List Frame) (content : s.mapping id = settled ++ todo) :
      Position s around (.entries id settled todo)
        (⟨errands, some (.mapping id todo.keys [])⟩ :: rest) (⟨errands, none⟩ :: rest)

section

variable (action : NodeId → Effect ε σ Reply) (root : Root) (w₀ : World σ)

/-- A walk has come to where it does a task, and what else is in the tree is around the task. -/
structure Ready (around : List Object) (task : Task) (stack stack' : List Frame) (w : World σ) :
    Prop where
  reached : Reached action root w₀ stack w
  hole : Hole root w.store around task.objects
  position : Position w.store around task stack stack'

/-- With one step a walk comes to a part of its task, and after that part it is ready for the others. What
is around the task is not edited. -/
inductive Turns (around : List Object) (stack stack' : List Frame) (w : World σ)
    (calls : List (Call σ)) (part : Task) (w₁ : World σ) (others : Task) : Prop
  | intro {wider : List Object} {stack₁ stack₂ : List Frame} (contained : around ⊆ wider)
      (first : Reaches ⟨action, ignore⟩ 1 stack w calls stack₁ w₁)
      (same : ∀ o ∈ around, Same w.store w₁.store o)
      (ready : Ready action root w₀ wider part stack₁ stack₂ w₁)
      (later : ∀ w₂, Reached action root w₀ stack₂ w₂ → (∀ o ∈ wider, Same w₁.store w₂.store o) →
        ∃ wider₂, around ⊆ wider₂ ∧ Ready action root w₀ wider₂ others stack₂ stack' w₂)

end

section

variable {action : NodeId → Effect ε σ Reply} {root : Root} {w₀ w w₁ w₂ w₃ : World σ}
  {around : List Object} {stack stack' stack₁ stack₂ : List Frame} {calls inner outer : List (Call σ)}
  {part others : Task}

theorem below_turns {n : NodeId} {ns : List NodeId} (tame : Tame action root w₀)
    (ready : Ready action root w₀ around (.below (n :: ns)) stack stack' w) :
    Turns action root w₀ around stack stack' w [] (.slots (w.store.element n).slots) w (.below ns) := by
  obtain ⟨reached, hole, position⟩ := ready
  cases position with
  | @below errands cursor _ rest =>
    have first : Reaches ⟨action, ignore⟩ 1 _ w [] _ w :=
      .of_visit (move_withSettled errands rest cursor n ns) rfl
    obtain ⟨wider, contained, one⟩ := Hole.first hole (tame.unshared _ _ reached)
    have own : ∀ e ∈ [Errand.node n], e.Of w.store n := List.forall_mem_singleton.mpr rfl
    refine .intro (List.subset_cons_of_subset _ contained) first (fun o _ => .refl _ o)
      ⟨reached.trans first, one.enter, .slots _ (Errand.left_node w.store n) own List.mem_cons_self⟩
      fun w₂ reached₂ same => ?_
    have hole₂ := hole.agree fun o member => same o (List.mem_cons_of_mem _ (contained member))
    obtain ⟨wider₂, contained₂, left⟩ := Hole.others hole₂ (tame.unshared _ _ reached₂)
    exact ⟨wider₂, contained₂, reached₂, left, .below cursor ns rest⟩

theorem position_enter {s : Store} {errands : List Errand} (container : Container) (rest : List Frame) :
    Position s around (.ofSlot s container) (⟨errands, some (.enter s container)⟩ :: rest)
      (⟨errands, none⟩ :: rest) := by
  cases container with
  | sequence id => exact .members rest rfl
  | mapping id => exact .entries rest rfl

theorem objects_ofSlot (s : Store) (container : Container) :
    (Task.ofSlot s container).objects = [.ofSlot container] := by
  cases container <;> rfl

theorem slots_turn {container : Container}
    {containers : List Container} (tame : Tame action root w₀)
    (ready : Ready action root w₀ around (.slots (container :: containers)) stack stack' w) :
    Turns action root w₀ around stack stack' w [] (.ofSlot w.store container) w (.slots containers) := by
  obtain ⟨reached, hole, position⟩ := ready
  cases position with
  | @slots n errands _ _ left own opened =>
    obtain ⟨more, next, remaining, kept⟩ := Errand.resume_some left n
    have first : Reaches ⟨action, ignore⟩ 1 (⟨errands, none⟩ :: stack') w [] _ w := .of_go (move_enter next)
    obtain ⟨wider, contained, one⟩ := Hole.first hole (tame.unshared _ _ reached)
    rw [← objects_ofSlot w.store] at one
    refine .intro contained first (fun o _ => .refl _ o)
      ⟨reached.trans first, one, position_enter container stack'⟩ fun w₂ reached₂ same => ?_
    have hole₂ := hole.agree fun o member => same o (contained member)
    obtain ⟨wider₂, contained₂, left₂⟩ := Hole.others hole₂ (tame.unshared _ _ reached₂)
    -- Nobody has edited the node, so what the errands lead to is the same.
    have owner := same _ (contained opened)
    have stays := (Errand.left_same owner (kept own)).trans remaining
    have still : ∀ e ∈ more, e.Of w₂.store n := fun e member => Errand.of_same owner (kept own e member)
    exact ⟨wider₂, contained₂, reached₂, left₂, .slots stack' stays still (contained₂ opened)⟩

/-- An action that is offered a member of a container leaves that container and what is around it. -/
theorem offer_leaves {frame : Frame} {rest : List Frame} {n : NodeId} {container o : Object}
    (tame : Tame action root w₀) (reached : Reached action root w₀ (frame :: rest) w)
    (next : offered? w.store frame rest = some n) (hole : Hole root w.store around [container])
    (member : .node n ∈ w.store.parts container) (near : o ∈ container :: around) :
    Same w.store ((action n).run w).2.store o := by
  have unshared := tame.unshared _ _ reached
  obtain ⟨inside, spans, nodup, whole⟩ := hole.below unshared
  obtain ⟨all, all_spans, _⟩ := unshared
  obtain ⟨inner, rfl, _, inner_spans⟩ := spans.of_single
  obtain ⟨below, below_spans, contained⟩ := inner_spans.of_mem member
  have place : o ∈ all := by
    rw [(whole all all_spans).mem_iff]
    rcases List.mem_cons.mp near with rfl | near
    · exact List.mem_append_right _ List.mem_cons_self
    · exact List.mem_append_left _ near
  have apart : o ∉ inner := by
    obtain ⟨_, inside_nodup, disjoint⟩ := List.nodup_append.mp nodup
    intro inner_member
    rcases List.mem_cons.mp near with rfl | near
    · exact (List.nodup_cons.mp inside_nodup).1 inner_member
    · exact disjoint o near o (List.mem_cons_of_mem _ inner_member) rfl
  exact tame.inside _ _ _ _ _ _ reached next all_spans below_spans o place
    fun below_member => apart (contained below_member)

/-- Where a member is offered, and what is given for it has its place, a walk goes on below that, and then
to the members that are to do. -/
theorem offer_turns {container : Object} {before after : List Object} {ns : List NodeId} {n : NodeId}
    (tame : Tame action root w₀) (ready : Ready action root w₀ around part stack stack' w)
    (objects : part.objects = [container])
    (leaves : ∀ o ∈ container :: around, Same w.store w₁.store o)
    (edits : ∀ o, o ≠ container → Same w₁.store w₂.store o)
    (first : Reaches ⟨action, ignore⟩ 1 stack w [⟨n, w⟩] stack₁ w₂)
    (parts : w₂.store.parts container = before ++ ns.map .node ++ after)
    (inside : ∀ wider, Position w₂.store wider (.below ns) stack₁ stack₂)
    (left : others.objects = [container])
    (later : ∀ w₃ : World σ, Same w₂.store w₃.store container →
      Position w₃.store around others stack₂ stack') :
    Turns action root w₀ around stack stack' w [⟨n, w⟩] (.below ns) w₂ others := by
  have reached := ready.reached.trans first
  have fresh : container ∉ around := by
    apply ready.hole.separate (tame.unshared _ _ ready.reached)
    rw [objects]
    exact List.mem_singleton_self container
  have same : ∀ o ∈ around, Same w.store w₂.store o := by
    intro o member
    have other : o ≠ container := fun eq => fresh (eq ▸ member)
    exact (leaves o (List.mem_cons_of_mem _ member)).trans (edits o other)
  have whole : Hole root w₂.store around [container] := (objects ▸ ready.hole).agree same
  -- What was given is walked with the container around it, which nobody edits from then on.
  have opened := whole.enter
  rw [parts] at opened
  obtain ⟨wider, contained, narrowed⟩ := opened.narrow (tame.unshared _ _ reached)
  obtain ⟨own, outer⟩ := List.cons_subset.mp contained
  refine .intro outer first same ⟨reached, narrowed, inside wider⟩ fun w₃ reached₃ kept => ?_
  have whole₃ := whole.agree fun o member => kept o (outer member)
  exact ⟨around, List.Subset.refl _, reached₃, left ▸ whole₃, later w₃ (kept _ own)⟩

section

variable {id : SequenceId} {settled todo ns : List NodeId} {n : NodeId} {errands : List Errand} {rest : List Frame}

theorem offered_member (content : w.store.sequence id = settled ++ n :: todo) :
    offered? w.store ⟨errands, some (.sequence id settled.length [])⟩ rest = some n := by
  have here : (w.store.sequence id)[settled.length]? = some n := by simp [content]
  exact offered?_of_move (move_member here)

theorem member_leaves (tame : Tame action root w₀)
    (ready : Ready action root w₀ around (.members id settled (n :: todo))
      (⟨errands, some (.sequence id settled.length [])⟩ :: rest) stack' w)
    (content : w.store.sequence id = settled ++ n :: todo) :
    ∀ o ∈ .sequence id :: around, Same w.store ((action n).run w).2.store o := by
  have member : .node n ∈ w.store.parts (.sequence id) := by simp [Store.parts, content]
  exact fun o near => offer_leaves tame ready.reached (offered_member content) ready.hole member near

/-- A walk offers the next member of a sequence, and puts what it is given in its place. -/
theorem member_step_iff (content : w.store.sequence id = settled ++ n :: todo)
    (kept : Same w.store ((action n).run w).2.store (.sequence id)) :
    step ⟨action, ignore⟩ ⟨errands, some (.sequence id settled.length [])⟩ rest w = (.ok stack, w₂) ↔
      ∃ ns w₁, Gives action n w ns w₁ ∧
        stack = ⟨errands, some (.sequence id (settled ++ ns).length ns)⟩ :: rest ∧
        w₂ = w₁.withSequence id (settled ++ ns ++ todo) := by
  have here : (w.store.sequence id)[settled.length]? = some n := by simp [content]
  have content₁ : ((action n).run w).2.store.sequence id = settled ++ n :: todo := content ▸ kept
  rw [step_offer_iff (move_member here)]
  constructor
  · rintro ⟨reply, given, w₁, cursor, s, answer, usable, place, rfl, rfl⟩
    rw [answer] at content₁
    rw [settleSequence_eq content₁] at place
    simp only [Except.ok.injEq, Prod.mk.injEq] at place
    obtain ⟨rfl, rfl⟩ := place
    exact ⟨_, w₁, ⟨reply, given, answer, usable, rfl⟩, rfl, rfl⟩
  · rintro ⟨ns, w₁, ⟨reply, given, answer, usable, rfl⟩, rfl, rfl⟩
    rw [answer] at content₁
    exact ⟨reply, given, w₁, _, _, answer, usable, congrArg _ (settleSequence_eq content₁ given), rfl, rfl⟩

theorem member_placed (content : w.store.sequence id = settled ++ n :: todo)
    (kept : Same w.store w₁.store (.sequence id)) (ns : List NodeId) :
    (w₁.withSequence id (settled ++ ns ++ todo)).store.sequence id = settled ++ ns ++ todo := by
  have content₁ : w₁.store.sequence id = settled ++ n :: todo := content ▸ kept
  exact Store.sequence_setSequence (by simp [content₁])

theorem member_parts (content : w.store.sequence id = settled ++ n :: todo)
    (kept : Same w.store w₁.store (.sequence id)) (ns : List NodeId) :
    (w₁.withSequence id (settled ++ ns ++ todo)).store.parts (.sequence id) =
      settled.map .node ++ ns.map .node ++ todo.map .node := by
  simp only [Store.parts, member_placed content kept ns, List.map_append]

theorem member_turns (tame : Tame action root w₀)
    (ready : Ready action root w₀ around (.members id settled (n :: todo)) stack stack' w)
    (gives : Gives action n w ns w₁) :
    Turns action root w₀ around stack stack' w [⟨n, w⟩] (.below ns)
      (w₁.withSequence id (settled ++ ns ++ todo)) (.members id (settled ++ ns) todo) := by
  cases ready.position with
  | @members errands _ _ _ rest content =>
    have leaves := member_leaves tame ready content
    have kept := leaves _ List.mem_cons_self
    have first : Reaches ⟨action, ignore⟩ 1
        (⟨errands, some (.sequence id settled.length [])⟩ :: rest) w _ _ _ :=
      .step ((member_step_iff content kept).mpr ⟨ns, w₁, gives, rfl, rfl⟩) (.refl _ _)
    rw [callsAt_offered (offered_member content)] at first
    obtain ⟨reply, given, answer, _⟩ := gives
    rw [answer] at leaves
    have kept₁ := leaves _ List.mem_cons_self
    have parts := member_parts content kept₁ ns
    have placed := member_placed content kept₁ ns
    exact offer_turns tame ready rfl leaves (fun _ => Store.same_setSequence) first parts
      (fun _ => .below (.sequence id (settled ++ ns).length []) ns rest) rfl
      fun _ same => .members rest (Eq.trans same placed)

end

section

variable {id : MappingId} {settled todo : Mapping NodeId} {ns : List NodeId} {n : NodeId} {key : Text}
  {errands : List Errand} {rest : List Frame}

theorem value_here (content : w.store.mapping id = settled ++ (key, n) :: todo)
    (sound : w.store.Sound (.mapping id)) : (w.store.mapping id).get? key = some n := by
  have distinct : (w.store.mapping id).keys.Nodup := sound
  rw [content] at distinct ⊢
  exact Mapping.get?_middle (Mapping.fresh_of_nodup distinct)

/-- A walk offers the next value of a mapping, and puts what it is given in its place, if that is not more
than one node. -/
theorem entry_step_iff (content : w.store.mapping id = settled ++ (key, n) :: todo)
    (sound : w.store.Sound (.mapping id))
    (kept : Same w.store ((action n).run w).2.store (.mapping id)) :
    step ⟨action, ignore⟩ ⟨errands, some (.mapping id (key :: todo.keys) [])⟩ rest w =
        (.ok stack, w₂) ↔
      ∃ ns w₁, Gives action n w ns w₁ ∧ ns.length ≤ 1 ∧
        stack = ⟨errands, some (.mapping id todo.keys ns)⟩ :: rest ∧
        w₂ = w₁.withMapping id (settled ++ ns.map (key, ·) ++ todo) := by
  have content₁ : ((action n).run w).2.store.mapping id = settled ++ (key, n) :: todo := content ▸ kept
  have distinct : (((action n).run w).2.store.mapping id).keys.Nodup := kept.sound sound
  rw [step_offer_iff (move_value (value_here content sound))]
  constructor
  · rintro ⟨reply, given, w₁, cursor, s, answer, usable, place, rfl, rfl⟩
    rw [answer] at content₁ distinct
    obtain ⟨room, rfl, rfl⟩ := (settleMapping_eq_ok_iff content₁ distinct).mp place
    exact ⟨_, w₁, ⟨reply, given, answer, usable, rfl⟩, room, rfl, rfl⟩
  · rintro ⟨ns, w₁, ⟨reply, given, answer, usable, rfl⟩, room, rfl, rfl⟩
    rw [answer] at content₁ distinct
    exact ⟨reply, given, w₁, _, _, answer, usable,
      (settleMapping_eq_ok_iff content₁ distinct).mpr ⟨room, rfl, rfl⟩, rfl, rfl⟩

theorem offered_value (content : w.store.mapping id = settled ++ (key, n) :: todo)
    (sound : w.store.Sound (.mapping id)) :
    offered? w.store ⟨errands, some (.mapping id (key :: todo.keys) [])⟩ rest = some n :=
  offered?_of_move (move_value (value_here content sound))

theorem entry_leaves (tame : Tame action root w₀)
    (ready : Ready action root w₀ around (.entries id settled ((key, n) :: todo))
      (⟨errands, some (.mapping id (key :: todo.keys) [])⟩ :: rest) stack' w)
    (content : w.store.mapping id = settled ++ (key, n) :: todo)
    (sound : w.store.Sound (.mapping id)) :
    ∀ o ∈ .mapping id :: around, Same w.store ((action n).run w).2.store o := by
  have member : .node n ∈ w.store.parts (.mapping id) := by simp [Store.parts, content]
  exact fun o near =>
    offer_leaves tame ready.reached (offered_value content sound) ready.hole member near

theorem entry_placed (content : w.store.mapping id = settled ++ (key, n) :: todo)
    (kept : Same w.store w₁.store (.mapping id)) (ns : List NodeId) :
    (w₁.withMapping id (settled ++ ns.map (key, ·) ++ todo)).store.mapping id =
      settled ++ ns.map (key, ·) ++ todo := by
  have content₁ : w₁.store.mapping id = settled ++ (key, n) :: todo := content ▸ kept
  exact Store.mapping_setMapping (by simp [content₁])

theorem entry_parts (content : w.store.mapping id = settled ++ (key, n) :: todo)
    (kept : Same w.store w₁.store (.mapping id)) (ns : List NodeId) :
    (w₁.withMapping id (settled ++ ns.map (key, ·) ++ todo)).store.parts (.mapping id) =
      settled.map (fun entry => .node entry.2) ++ ns.map .node ++
        todo.map (fun entry => .node entry.2) := by
  simp only [Store.parts, entry_placed content kept ns, List.map_append, List.map_map]
  rfl

theorem entry_turns (tame : Tame action root w₀)
    (ready : Ready action root w₀ around (.entries id settled ((key, n) :: todo)) stack stack' w)
    (gives : Gives action n w ns w₁) (room : ns.length ≤ 1) :
    Turns action root w₀ around stack stack' w [⟨n, w⟩] (.below ns)
      (w₁.withMapping id (settled ++ ns.map (key, ·) ++ todo))
      (.entries id (settled ++ ns.map (key, ·)) todo) := by
  have sound : w.store.Sound (.mapping id) := ready.hole.sound (tame.unshared _ _ ready.reached)
  cases ready.position with
  | @entries errands _ _ _ rest content =>
    have leaves := entry_leaves tame ready content sound
    have kept := leaves _ List.mem_cons_self
    have first : Reaches ⟨action, ignore⟩ 1
        (⟨errands, some (.mapping id (key :: todo.keys) [])⟩ :: rest) w _ _ _ :=
      .step ((entry_step_iff content sound kept).mpr ⟨ns, w₁, gives, room, rfl, rfl⟩) (.refl _ _)
    rw [callsAt_offered (offered_value content sound)] at first
    obtain ⟨reply, given, answer, _⟩ := gives
    rw [answer] at leaves
    have kept₁ := leaves _ List.mem_cons_self
    have parts := entry_parts content kept₁ ns
    have placed := entry_placed content kept₁ ns
    exact offer_turns tame ready rfl leaves (fun _ => Store.same_setMapping) first parts
      (fun _ => .below (.mapping id todo.keys []) ns rest) rfl
      fun _ same => .entries rest (Eq.trans same placed)

end

end

end DocTree.Walk
