import DocTree.Proofs.Store.Weight
import DocTree.Proofs.Walk.Rewriting
/-!
When a walk comes to an end. Each call takes away what the offered node weighs with all that is below it,
and brings what is below the nodes that are given for it; where the latter is always less, the weight of
all that is still to be offered bounds the number of calls. It is counted along the recursion: the weight
goes down with each call, and between two calls the part of the tree that is still to be gone through.
-/

namespace DocTree.Walk

open Store (Object Same Hole Weighting)

variable {ε σ : Type}

/-- The objects that are still to be gone through for a task. -/
def Task.pending (s : Store) : Task → List Object
  | below ns => ns.flatMap fun n => s.parts (.node n)
  | slots containers => containers.map .ofSlot
  | members _ _ todo => todo.map .node
  | entries _ _ todo => todo.map fun entry => .node entry.2

def Task.queue : Task → Nat
  | below ns => ns.length
  | slots _ | members _ _ _ | entries _ _ _ => 0

theorem Task.pending_ofSlot (s : Store) (container : Slot SequenceId MappingId) :
    (Task.ofSlot s container).pending s = s.parts (.ofSlot container) := by
  cases container <;> rfl

theorem Task.pending_ofRoot (s : Store) (root : Root) :
    (Task.ofRoot s root).pending s = s.parts root.object := by
  cases root <;> rfl

theorem Gives.world {action : NodeId → Effect ε σ Reply} {n : NodeId} {w w' : World σ} {ns : List NodeId}
    (gives : Gives action n w ns w') : ((action n).run w).2 = w' := by
  obtain ⟨_, _, answer, _⟩ := gives
  rw [answer]

/-- On a walk, what is below the nodes that an action gives for a node, when it has given them, weighs
less than that node and what was below it before. -/
def Lessens (W : Weighting) (action : NodeId → Effect ε σ Reply) (root : Root) (w₀ : World σ) : Prop :=
  ∀ frame rest w n ns w₁ before after, Reached action root w₀ (frame :: rest) w →
    offered? w.store frame rest = some n → Gives action n w ns w₁ →
    w.store.Spans (w.store.parts (.node n)) before → (Object.node n :: before).Nodup →
    w₁.store.Spans (ns.flatMap fun m => w₁.store.parts (.node m)) after →
    W.weigh w₁.store after < W.weight w.store n + W.weigh w.store before

/-- The same of what a walk comes upon in the tree. -/
def Lightens (W : Weighting) (action : NodeId → Effect ε σ Reply) (root : Root) (w₀ : World σ) : Prop :=
  ∀ frame rest w n ns w₁ all before after, Reached action root w₀ (frame :: rest) w →
    offered? w.store frame rest = some n → Gives action n w ns w₁ →
    w.store.Spans [root.object] all → .node n ∈ all →
    w.store.Spans (w.store.parts (.node n)) before → (Object.node n :: before).Nodup →
    w₁.store.Spans (ns.flatMap fun m => w₁.store.parts (.node m)) after →
    W.weigh w₁.store after < W.weight w.store n + W.weigh w.store before

theorem Lessens.lightens {W : Weighting} {action : NodeId → Effect ε σ Reply} {root : Root} {w₀ : World σ}
    (lessens : Lessens W action root w₀) : Lightens W action root w₀ :=
  fun _ _ _ _ _ _ _ _ _ reached next gives _ _ => lessens _ _ _ _ _ _ _ _ reached next gives

def Cursor.object : Cursor → Object
  | .sequence id _ _ => .sequence id
  | .mapping id _ _ => .mapping id

def Within (root : Root) (s : Store) (frame : Frame) : Prop :=
  ∃ cursor all, frame.cursor = some cursor ∧ s.Spans [root.object] all ∧ cursor.object ∈ all

section

variable (action : NodeId → Effect ε σ Reply) (root : Root) (w₀ : World σ)

/-- A walk goes on from one stack to another and edits nothing around, or fails on its way, at a call for a
member of a container in the tree; either way it makes no more calls than some number. -/
inductive Passes (around : List Object) (stack : List Frame) (w : World σ) (stack' : List Frame)
    (most : Nat) : Prop
  | through {k : Nat} {calls : List (Call σ)} {w' : World σ}
      (course : Reaches ⟨action, ignore⟩ k stack w calls stack' w') (few : calls.length ≤ most)
      (same : ∀ o ∈ around, Same w.store w'.store o)
  | broken {k : Nat} {calls : List (Call σ)} {frame : Frame} {rest : List Frame} {w₁ w' : World σ}
      {h : Halt ε} (course : Reaches ⟨action, ignore⟩ k stack w calls (frame :: rest) w₁)
      (fails : step ⟨action, ignore⟩ frame rest w₁ = (.error h, w')) (within : Within root w₁.store frame)
      (few : (calls ++ callsAt frame rest w₁).length ≤ most)

/-- Wherever a walk is ready for the task and finds what is pending for it as in the store, it makes no
more calls for it than some number. -/
def Bounded (task : Task) (s : Store) (pending : List Object) (most : Nat) : Prop :=
  ∀ w around stack stack', w.store.Spans (task.pending w.store) pending →
    (∀ o ∈ pending, Same s w.store o) → Ready action root w₀ around task stack stack' w →
    Passes action root around stack w stack' most

end

section

variable {W : Weighting} {action : NodeId → Effect ε σ Reply} {root : Root} {w₀ w w₁ w₂ : World σ}
  {around all inside one two before after : List Object} {frame : Frame}
  {stack stack' stack₂ rest : List Frame} {calls : List (Call σ)} {part others task : Task}
  {most first later load : Nat} {container : Object} {n : NodeId} {ns : List NodeId}

theorem Passes.mono (h : Passes action root around stack w stack' first) (less : first ≤ most) :
    Passes action root around stack w stack' most := by
  cases h with
  | through course few same => exact .through course (Nat.le_trans few less) same
  | broken course fails within few => exact .broken course fails within (Nat.le_trans few less)

/-- The calls for the part and for the others are the calls for the task. What is in the tree beside the
part is as it was when the others come. -/
theorem Turns.passes (turns : Turns action root w₀ around stack stack' w calls part w₁ others)
    (whole : w₁.store.Spans [root.object] all) (here : w₁.store.Spans part.objects inside)
    {beside : List Object} (apart : ∀ o ∈ beside, o ∈ all ∧ o ∉ inside)
    (spans : w₁.store.Spans (part.pending w₁.store) one)
    (follow : ∀ w₂ : World σ, (∀ o ∈ beside, Same w₁.store w₂.store o) →
      w₂.store.Spans (others.pending w₂.store) two ∧ ∀ o ∈ two, Same w₁.store w₂.store o)
    (bound : Bounded action root w₀ part w₁.store one first)
    (next : Bounded action root w₀ others w₁.store two later) :
    Passes action root around stack w stack' (calls.length + (first + later)) := by
  cases turns with
  | @intro wider stack₁ stack₂ contained start same ready goOn =>
    cases bound _ _ _ _ spans (fun o _ => .refl _ o) ready with
    | broken course fails within few =>
      refine .broken (start.trans course) fails within ?_
      simp only [List.length_append] at few ⊢
      omega
    | @through k inner w₂ course few kept =>
      -- What the others are about is beside the part, and so it is as it was.
      have left : ∀ o ∈ beside, Same w₁.store w₂.store o := by
        intro o member
        obtain ⟨inTree, notInside⟩ := apart o member
        exact kept o (ready.hole.beside here whole inTree notInside)
      obtain ⟨wider₂, contained₂, ready₂⟩ := goOn w₂ (ready.reached.trans course) kept
      obtain ⟨spans₂, same₂⟩ := follow w₂ left
      cases next _ _ _ _ spans₂ same₂ ready₂ with
      | broken course₂ fails within few₂ =>
        refine .broken (start.trans (course.trans course₂)) fails within ?_
        simp only [List.length_append] at few₂ ⊢
        omega
      | through course₂ few₂ kept₂ =>
        refine .through (start.trans (course.trans course₂)) ?_ fun o member => ?_
        · simp only [List.length_append]
          omega
        · have between := (same o member).trans (kept o (contained member))
          exact between.trans (kept₂ o (contained₂ member))

theorem passes_of_over (ready : Ready action root w₀ around task stack stack' w) (ended : task.Over) :
    Passes action root around stack w stack' most := by
  obtain ⟨⟨k, course⟩, same⟩ := over_walks ended _ _ _ ready
  exact .through course (Nat.zero_le most) same

theorem Ready.spans (ready : Ready action root w₀ around task stack stack' w)
    (tame : Tame action root w₀) : ∃ all inside, w.store.Spans [root.object] all ∧
      w.store.Spans task.objects inside ∧ inside ⊆ all ∧ inside.Nodup := by
  have unshared := tame.unshared _ _ ready.reached
  obtain ⟨inside, spans, nodup, whole⟩ := ready.hole.below unshared
  obtain ⟨all, all_spans, _⟩ := unshared
  refine ⟨all, inside, all_spans, spans, fun o member => ?_, (List.nodup_append.mp nodup).2.1⟩
  exact (whole all all_spans).mem_iff.mpr (List.mem_append_right _ member)

theorem Ready.within {cursor : Cursor} (ready : Ready action root w₀ around task (frame :: rest) stack' w)
    (tame : Tame action root w₀) (opened : frame.cursor = some cursor)
    (objects : task.objects = [cursor.object]) : Within root w.store frame := by
  obtain ⟨all, inside, whole, here, within, _⟩ := ready.spans tame
  refine ⟨cursor, all, opened, whole, within (here.mem ?_)⟩
  rw [objects]
  exact List.mem_singleton_self _

theorem pending_below {s s' : Store} {full : List Object} (h : s.Spans (ns.map .node) full)
    (spans : s.Spans ((Task.below ns).pending s) two) (same : ∀ o ∈ full, Same s s' o) :
    s'.Spans ((Task.below ns).pending s') two ∧ ∀ o ∈ two, Same s s' o := by
  obtain ⟨two', two_spans, perm⟩ := h.inside_nodes
  obtain rfl := two_spans.unique spans
  have kept : ∀ o ∈ two', Same s s' o :=
    fun o member => same o (perm.mem_iff.mpr (List.mem_append_right _ member))
  have pending : (Task.below ns).pending s' = (Task.below ns).pending s :=
    List.flatMap_congr fun m member =>
      (same (.node m) (perm.mem_iff.mpr (List.mem_append_left _ (List.mem_map_of_mem member)))).parts
  exact ⟨pending ▸ two_spans.agree kept, kept⟩

theorem below_passes (tame : Tame action root w₀)
    (ready : Ready action root w₀ around (.below (n :: ns)) stack stack' w)
    (spans : w.store.Spans (w.store.parts (.node n)) one)
    (spans' : w.store.Spans ((Task.below ns).pending w.store) two)
    (bound : Bounded action root w₀ (.slots (w.store.element n).slots) w.store one first)
    (next : Bounded action root w₀ (.below ns) w.store two later) :
    Passes action root around stack w stack' (first + later) := by
  obtain ⟨all, inside, whole, here, within, nodup⟩ := ready.spans tame
  obtain ⟨inner, full, rfl, one_spans, full_spans⟩ :=
    (show w.store.Spans ([.node n] ++ ns.map .node) inside from here).of_append
  obtain ⟨below, rfl, _, below_spans⟩ := one_spans.of_single
  obtain rfl := below_spans.unique spans
  have apart : ∀ o ∈ full, o ∈ all ∧ o ∉ below := by
    intro o member
    refine ⟨within (List.mem_append_right _ member), fun shared => ?_⟩
    exact (List.nodup_append.mp nodup).2.2 o (List.mem_cons_of_mem _ shared) o member rfl
  have passes := (below_turns tame ready).passes whole below_spans apart spans
    (fun w₂ same => pending_below full_spans spans' same) bound next
  simpa using passes

theorem slots_passes {slot : Slot SequenceId MappingId} {containers : List (Slot SequenceId MappingId)}
    (tame : Tame action root w₀)
    (ready : Ready action root w₀ around (.slots (slot :: containers)) stack stack' w)
    (spans : w.store.Spans (w.store.parts (.ofSlot slot)) one)
    (spans' : w.store.Spans ((Task.slots containers).pending w.store) two)
    (bound : Bounded action root w₀ (.ofSlot w.store slot) w.store one first)
    (next : Bounded action root w₀ (.slots containers) w.store two later) :
    Passes action root around stack w stack' (first + later) := by
  obtain ⟨all, inside, whole, here, within, nodup⟩ := ready.spans tame
  obtain ⟨inner, two', rfl, one_spans, two_spans⟩ :=
    (show w.store.Spans ([.ofSlot slot] ++ containers.map .ofSlot) inside from here).of_append
  obtain rfl := two_spans.unique spans'
  have apart : ∀ o ∈ two', o ∈ all ∧ o ∉ inner := by
    intro o member
    refine ⟨within (List.mem_append_right _ member), fun shared => ?_⟩
    exact (List.nodup_append.mp nodup).2.2 o shared o member rfl
  rw [← objects_ofSlot w.store] at one_spans
  rw [← Task.pending_ofSlot] at spans
  have passes := (slots_turn tame ready).passes whole one_spans apart spans
    (fun w₂ same => ⟨two_spans.agree same, same⟩) bound next
  simpa using passes

/-- What is given for a member is a part of the tree that the others have nothing in common with, and
there is less to be gone through than there was. -/
theorem exchange_weighs_less (tame : Tame action root w₀) (lightens : Lightens W action root w₀)
    (reached : Reached action root w₀ (frame :: rest) w) (next : offered? w.store frame rest = some n)
    (hole : Hole root w.store around [container])
    (content : w.store.parts container = before ++ .node n :: after) (gives : Gives action n w ns w₁)
    (leaves : ∀ o ∈ container :: around, Same w.store w₁.store o)
    (edits : ∀ o, o ≠ container → Same w₁.store w₂.store o)
    (placed : w₂.store.parts container = before ++ ns.map .node ++ after)
    (reached₂ : Reached action root w₀ stack₂ w₂) (spans : w.store.Spans (.node n :: after) inside) :
    ∃ all full one two, w₂.store.Spans [root.object] all ∧ w₂.store.Spans (ns.map .node) full ∧
      w₂.store.Spans ((Task.below ns).pending w₂.store) one ∧ w₂.store.Spans after two ∧
      (∀ o ∈ two, o ∈ all ∧ o ∉ full) ∧
      W.weigh w₂.store one + W.weigh w₂.store two < W.weigh w.store inside := by
  have unshared := tame.unshared _ _ reached
  have unshared₂ := tame.unshared _ _ reached₂
  have fresh : container ∉ around := hole.separate unshared List.mem_cons_self
  have hole₂ : Hole root w₂.store around [container] := by
    refine hole.agree fun o member => ?_
    have other : o ≠ container := fun eq => fresh (eq ▸ member)
    exact (leaves o (List.mem_cons_of_mem _ member)).trans (edits o other)
  -- Before the call: the node and the others after it, which the call does not edit.
  have content' : w.store.parts container = before ++ [.node n] ++ after := by simp [content]
  obtain ⟨all, below, two, whole, node_spans, two_spans, node_nodup, place, apart⟩ :=
    hole.split_parts unshared content'
  obtain rfl := spans.unique (node_spans.append two_spans)
  have others : ∀ o ∈ two, Same w.store w₂.store o := by
    intro o member
    obtain ⟨inTree, other⟩ := place o (List.mem_append_right _ member)
    have unedited := tame.inside _ _ _ _ _ _ reached next whole node_spans o inTree (apart o member)
    rw [gives.world] at unedited
    exact unedited.trans (edits o other)
  -- After it: what was given, and the same others.
  obtain ⟨all₂, full, two₂, whole₂, full_spans, two_spans₂, _, place₂, apart₂⟩ :=
    hole₂.split_parts unshared₂ placed
  obtain rfl := (two_spans.agree others).unique two_spans₂
  obtain ⟨one, one_spans, _⟩ := full_spans.inside_nodes
  have back : ∀ o ∈ full, Same w₂.store w₁.store o :=
    fun o member => (edits o (place₂ o (List.mem_append_left _ member)).2).symm
  obtain ⟨given_spans, given_same⟩ := pending_below full_spans one_spans back
  have inTree := (place (.node n) (List.mem_append_left _ (node_spans.mem (List.mem_singleton_self _)))).1
  obtain ⟨inN, rfl, _, inN_spans⟩ := node_spans.of_single
  have lighter := lightens _ _ _ _ _ _ _ _ _ reached next gives whole inTree inN_spans node_nodup given_spans
  rw [Weighting.weigh_agree one_spans given_same] at lighter
  refine ⟨all₂, full, one, two, whole₂, full_spans, one_spans, two_spans₂,
    fun o member => ⟨(place₂ o (List.mem_append_right _ member)).1, apart₂ o member⟩, ?_⟩
  rw [Weighting.weigh_agree two_spans others, Weighting.weigh_append, Weighting.weigh_cons]
  exact Nat.add_lt_add_right lighter _

theorem Turns.reached (turns : Turns action root w₀ around stack stack' w calls part w₁ others) :
    ∃ stack₁, Reached action root w₀ stack₁ w₁ := by
  cases turns with
  | intro _ _ _ ready _ => exact ⟨_, ready.reached⟩

/-- A call is made up for by what it takes away, if everything lighter is bounded by its weight. -/
theorem offer_passes (tame : Tame action root w₀) (lightens : Lightens W action root w₀)
    (ready : Ready action root w₀ around task (frame :: rest) stack' w) (objects : task.objects = [container])
    (next : offered? w.store frame rest = some n)
    (content : w.store.parts container = before ++ .node n :: after) (gives : Gives action n w ns w₁)
    (leaves : ∀ o ∈ container :: around, Same w.store w₁.store o)
    (edits : ∀ o, o ≠ container → Same w₁.store w₂.store o)
    (placed : w₂.store.parts container = before ++ ns.map .node ++ after)
    (turns : Turns action root w₀ around (frame :: rest) stack' w [⟨n, w⟩] (.below ns) w₂ others)
    (pending : ∀ s, others.pending s = after) (spans : w.store.Spans (.node n :: after) inside)
    (lighter : ∀ task (s : Store) pending, W.weigh s pending < W.weigh w.store inside →
      Bounded action root w₀ task s pending (W.weigh s pending)) :
    Passes action root around (frame :: rest) w stack' (W.weigh w.store inside) := by
  obtain ⟨_, reached₂⟩ := turns.reached
  obtain ⟨all, full, one, two, whole, here, one_spans, two_spans, apart, less⟩ :=
    exchange_weighs_less tame lightens ready.reached next (objects ▸ ready.hole) content gives leaves edits placed
      reached₂ spans
  have passes := turns.passes whole here apart one_spans
    (fun w₃ same => ⟨(pending w₃.store).symm ▸ two_spans.agree same, same⟩)
    (lighter _ _ one (by omega)) (lighter _ _ two (by omega))
  refine passes.mono ?_
  simp only [List.length_singleton]
  omega

theorem passes_of_error {h : Halt ε} (next : offered? w.store frame rest = some n)
    (fails : step ⟨action, ignore⟩ frame rest w = (.error h, w₁)) (within : Within root w.store frame)
    (positive : 1 ≤ most) : Passes action root around (frame :: rest) w stack' most :=
  .broken (.refl _ _) fails within (by simpa [callsAt_offered next] using positive)

theorem one_le_weigh {objects : List Object} (spans : w.store.Spans (.node n :: objects) inside) :
    1 ≤ W.weigh w.store inside := by
  cases spans with
  | cons => exact Nat.le_trans (W.positive w.store n) (Nat.le_add_right _ _)

section

variable (tame : Tame action root w₀) (lightens : Lightens W action root w₀)
  (lighter : ∀ task (s : Store) pending, W.weigh s pending < W.weigh w.store inside →
    Bounded action root w₀ task s pending (W.weigh s pending))
include tame lightens lighter

theorem members_passes {id : SequenceId} {settled todo : List NodeId}
    (ready : Ready action root w₀ around (.members id settled (n :: todo)) stack stack' w)
    (spans : w.store.Spans (.node n :: todo.map .node) inside) :
    Passes action root around stack w stack' (W.weigh w.store inside) := by
  cases ready.position with
  | @members errands _ _ _ rest content =>
    have leaves := member_leaves tame ready content
    have kept := leaves _ List.mem_cons_self
    cases result : step ⟨action, ignore⟩ ⟨errands, some (.sequence id settled.length [])⟩ rest w with
    | mk answer w₂ =>
      cases answer with
      | error h =>
        have within := ready.within tame rfl rfl
        exact passes_of_error (offered_member content) result within (one_le_weigh spans)
      | ok stack₁ =>
        obtain ⟨ns, w₁, gives, rfl, rfl⟩ := (member_step_iff content kept).mp result
        have turns := member_turns tame ready gives
        have parts : w.store.parts (.sequence id) = settled.map .node ++ .node n :: todo.map .node := by
          simp [Store.parts, content]
        rw [gives.world] at leaves
        exact offer_passes tame lightens ready rfl (offered_member content) parts gives leaves
          (fun _ => Store.same_setSequence) (member_parts content (leaves _ List.mem_cons_self) ns) turns
          (fun _ => rfl) spans lighter

theorem entries_passes {id : MappingId} {settled todo : Mapping NodeId} {key : Text}
    (ready : Ready action root w₀ around (.entries id settled ((key, n) :: todo)) stack stack' w)
    (spans : w.store.Spans (.node n :: todo.map fun entry => .node entry.2) inside) :
    Passes action root around stack w stack' (W.weigh w.store inside) := by
  have sound : w.store.Sound (.mapping id) := ready.hole.sound (tame.unshared _ _ ready.reached)
  cases ready.position with
  | @entries errands _ _ _ rest content =>
    have leaves := entry_leaves tame ready content sound
    have kept := leaves _ List.mem_cons_self
    have next : offered? w.store ⟨errands, some (.mapping id (key :: todo.keys) [])⟩ rest = some n :=
      offered_value content sound
    cases result : step ⟨action, ignore⟩ ⟨errands, some (.mapping id (key :: todo.keys) [])⟩ rest w with
    | mk answer w₂ =>
      cases answer with
      | error h => exact passes_of_error next result (ready.within tame rfl rfl) (one_le_weigh spans)
      | ok stack₁ =>
        obtain ⟨ns, w₁, gives, room, rfl, rfl⟩ := (entry_step_iff content sound kept).mp result
        have turns := entry_turns tame ready gives room
        have parts : w.store.parts (.mapping id) = settled.map (fun entry => .node entry.2) ++
            .node n :: todo.map fun entry => .node entry.2 := by
          simp [Store.parts, content]
        rw [gives.world] at leaves
        exact offer_passes tame lightens ready rfl next parts gives leaves
          (fun _ => Store.same_setMapping) (entry_parts content (leaves _ List.mem_cons_self) ns) turns
          (fun _ => rfl) spans lighter

end

/-- A task takes no more calls than what is pending for it weighs. -/
theorem bounded_by_weight (tame : Tame action root w₀) (lightens : Lightens W action root w₀) (task : Task)
    (s : Store) (pending : List Object) : Bounded action root w₀ task s pending (W.weigh s pending) := by
  -- A call makes a task lighter. Between two calls it gets no heavier, and there is less to go through.
  induction heavy : W.weigh s pending using Nat.strongRecOn generalizing task s pending with
  | ind load ihLoad =>
    induction long : pending.length + task.queue using Nat.strongRecOn generalizing task s pending with
    | ind size ihSize =>
      have smaller : ∀ task (s : Store) pending, W.weigh s pending ≤ load →
          pending.length + task.queue < size →
          Bounded action root w₀ task s pending (W.weigh s pending) := by
        intro task s pending weighs shorter
        rcases Nat.lt_or_eq_of_le weighs with less | eq
        · exact ihLoad _ less task s pending rfl
        · rw [eq]
          exact ihSize _ shorter task s pending eq rfl
      have lighter : ∀ task (s : Store) pending, W.weigh s pending < load →
          Bounded action root w₀ task s pending (W.weigh s pending) :=
        fun task s pending less => ihLoad _ less task s pending rfl
      intro w around stack stack' spans same ready
      have weighs : W.weigh w.store pending = load :=
        (Weighting.weigh_agree spans fun o member => (same o member).symm) ▸ heavy
      match task with
      | .below [] => exact passes_of_over ready rfl
      | .slots [] => exact passes_of_over ready rfl
      | .members _ _ [] => exact passes_of_over ready rfl
      | .entries _ _ [] => exact passes_of_over ready rfl
      | .below (n :: ns) =>
        obtain ⟨one, two, rfl, one_spans, two_spans⟩ :=
          (show w.store.Spans (w.store.parts (.node n) ++ (Task.below ns).pending w.store) pending from
            spans).of_append
        simp only [Weighting.weigh_append] at weighs
        simp only [List.length_append, Task.queue, List.length_cons] at long
        rw [← weighs]
        exact below_passes tame ready one_spans two_spans
          (smaller _ _ one (by omega) (by simp only [Task.queue]; omega))
          (smaller _ _ two (by omega) (by simp only [Task.queue]; omega))
      | .slots (slot :: slots) =>
        obtain ⟨one, two, rfl, one_spans, two_spans⟩ :=
          (show w.store.Spans ([.ofSlot slot] ++ (Task.slots slots).pending w.store) pending from
            spans).of_append
        obtain ⟨inside, rfl, _, inside_spans⟩ := one_spans.of_single
        have inner : (Task.ofSlot w.store slot).queue = 0 := by cases slot <;> rfl
        simp only [Weighting.weigh_append, Weighting.weigh_cons, Weighting.ofObject_ofSlot, Nat.zero_add]
          at weighs
        simp only [List.length_append, List.length_cons, Task.queue] at long
        rw [← weighs]
        exact slots_passes tame ready inside_spans two_spans
          (smaller _ _ inside (by omega) (by omega))
          (smaller _ _ two (by omega) (by simp only [Task.queue]; omega))
      | .members id settled (n :: todo) =>
        rw [← weighs] at lighter ⊢
        exact members_passes tame lightens lighter ready spans
      | .entries id settled ((key, n) :: todo) =>
        rw [← weighs] at lighter ⊢
        exact entries_passes tame lightens lighter ready spans

theorem step_not_unfinished (frame : Frame) (rest : List Frame) (w : World σ) :
    (step ⟨action, ignore⟩ frame rest w).1 ≠ .error .unfinished := by
  rw [step_eq]
  cases move w.store frame rest with
  | visit n frame' =>
    intro failed
    cases failed
  | go stack =>
    intro failed
    cases failed
  | offer n settle =>
    simp only [perform, offer]
    split
    · next e _ _ => cases e <;> simp [Except.map, Halt.ofOffer]
    · split <;> simp [Except.map]

/-- A walk comes to its end or fails, and makes no more calls than some number. -/
def EndsWithin (action : NodeId → Effect ε σ Reply) (root : Root) (w : World σ) (most : Nat) : Prop :=
  ∃ fuel result w' calls, transform fuel action root w = (result, w') ∧ result ≠ .error .unfinished ∧
    transform fuel (logged action) root (w.logging []) = (result, w'.logging calls) ∧
    calls.length ≤ most

theorem Lessens.endsWithin (lessens : Lessens W action root w) (tame : Tame action root w)
    (spans : w.store.Spans (w.store.parts root.object) all) :
    EndsWithin action root w (W.weigh w.store all) := by
  obtain ⟨around, stack, ready, leave⟩ := ready_ofRoot action root w
  rw [← Task.pending_ofRoot] at spans
  cases bounded_by_weight tame lessens.lightens _ _ _ _ _ _ _ spans (fun o _ => .refl _ o) ready with
  | @through k calls w' course few _ =>
    obtain ⟨m, last⟩ := leave w'
    have whole := course.trans last
    rw [List.append_nil] at whole
    exact ⟨_, _, w', calls, run_eq_ok_iff.mpr ⟨_, Nat.le_refl _, _, whole⟩, nofun,
      transform_logged_ok_iff.mpr ⟨_, Nat.le_refl _, whole⟩, few⟩
  | @broken k calls frame rest w₁ w' h course fails _ few =>
    have ended : h ≠ .unfinished := by
      rintro rfl
      exact step_not_unfinished frame rest w₁ (by rw [fails])
    refine ⟨k + 1, .error h, w', _, ?_, by simpa using ended, ?_, few⟩
    · exact (run_eq_error_iff ended).mpr ⟨k, Nat.lt_succ_self k, _, _, _, _, course, fails⟩
    · exact (transform_logged_error_iff ended).mpr ⟨k, Nat.lt_succ_self k, _, _, _, _, course, fails, rfl⟩

end

end DocTree.Walk
