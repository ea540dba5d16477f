import DocTree.Proofs.Node.Rewritten
import DocTree.Proofs.Store.Values
import DocTree.Proofs.Walk.Ending
/-!
What a walk makes of the tree that is read out of the store. Whatever the recursion has done with a part of
the tree stays as it is while the rest is gone through, and what is still to be gone through is as it was in
the beginning; so the trees before and after are those of a rewriting of values.
-/

namespace DocTree.Walk

open Store (Object Same Hole)
open Node (Rewritten)

variable {ε σ : Type}

/-- On a walk over a tree without sharing and without lists in it, `answers` says what an action may put in
the place of what it is offered, as trees that are read when it has answered. -/
structure Answers (answers : Node → List Node → Prop) (action : NodeId → Effect ε σ Reply) (root : Root)
    (w₀ : World σ) : Prop where
  tame : Tame action root w₀
  typed : ∀ stack w, Reached action root w₀ stack w → w.store.Typed root
  given : ∀ frame rest w n ns w₁ all, Reached action root w₀ (frame :: rest) w →
    offered? w.store frame rest = some n → w.store.Spans [root.object] all → .node n ∈ all →
    Gives action n w ns w₁ → answers (w.store.node n) (ns.map w₁.store.node)

/-- What has become of the trees that a task is about. What is settled is not touched. -/
def Task.Became (answers : Node → List Node → Prop) (s s' : Store) : Task → Prop
  | below ns => Rewritten answers (.below (ns.map s.node) (ns.map s'.node))
  | slots containers =>
    (∀ q, .sequence q ∈ containers → Rewritten answers (.members (s.nodesAt q) (s'.nodesAt q))) ∧
      ∀ id, .mapping id ∈ containers → Rewritten answers (.entries (s.entriesAt id) (s'.entriesAt id))
  | members q settled todo => settled.map s'.node = settled.map s.node ∧
    ∃ done, s'.sequence q = settled ++ done ∧
      Rewritten answers (.members (todo.map s.node) (done.map s'.node))
  | entries id settled todo =>
    (settled.map fun (key, n) => (key, s'.node n)) = settled.map (fun (key, n) => (key, s.node n)) ∧
    ∃ done, s'.mapping id = settled ++ done ∧
      Rewritten answers (.entries (todo.map fun (key, n) => (key, s.node n))
        (done.map fun (key, n) => (key, s'.node n)))

section

variable {answers : Node → List Node → Prop} {action : NodeId → Effect ε σ Reply} {root : Root}
  {w₀ w w₁ w₂ w₃ : World σ} {s s' : Store} {around all inside : List Object} {o : Object}
  {stack stack' stack₁ stack₂ : List Frame} {calls inner outer : List (Call σ)} {part others task : Task}

theorem hole_parts {first rest : List Object} (hole : Hole root s around (first ++ rest))
    (unshared : s.Unshared root) : ∃ all one two, s.Spans [root.object] all ∧ s.Spans first one ∧
      s.Spans rest two ∧ (∀ x ∈ one ++ two, x ∈ all) ∧ (one ++ two).Nodup := by
  obtain ⟨inside, spans, nodup, whole⟩ := hole.below unshared
  obtain ⟨all, all_spans, _⟩ := unshared
  obtain ⟨one, two, rfl, one_spans, two_spans⟩ := spans.of_append
  refine ⟨all, one, two, all_spans, one_spans, two_spans, fun x member => ?_,
    (List.nodup_append.mp nodup).2.1⟩
  exact (whole all all_spans).mem_iff.mpr (List.mem_append_right _ member)

theorem mem_around {one two : List Object} (middle : List Object) (member : o ∈ one ++ two) :
    o ∈ one ++ middle ++ two := by
  rcases List.mem_append.mp member with before | after
  · exact List.mem_append_left _ (List.mem_append_left _ before)
  · exact List.mem_append_right _ after

theorem not_mem_of_around {one middle two : List Object} (nodup : (one ++ middle ++ two).Nodup)
    (member : o ∈ one ++ two) : o ∉ middle := by
  obtain ⟨left, _, right⟩ := List.nodup_append.mp nodup
  intro shared
  rcases List.mem_append.mp member with before | after
  · exact (List.nodup_append.mp left).2.2 o before o shared rfl
  · exact right o (List.mem_append_right _ shared) o after rfl

theorem Walks.keeps (walks : Walks action root w₀ task w calls w₁)
    (ready : Ready action root w₀ around task stack stack' w) (whole : w.store.Spans [root.object] all)
    (here : w.store.Spans task.objects inside) (member : o ∈ all) (apart : o ∉ inside) :
    Same w.store w₁.store o :=
  (walks _ _ _ ready).2 o (ready.hole.beside here whole member apart)

/-- A task falls into a part, which is about the object `x`, and others. What the others are about is not
touched by the part, and what has become of `x` is not touched by the others. -/
structure Halves (action : NodeId → Effect ε σ Reply) (root : Root) (w₀ : World σ) (x : Object)
    (part : Task) (w w₁ : World σ) (others : Task) (w₂ : World σ) : Prop where
  first : ∃ around stack stack', Ready action root w₀ around part stack stack' w
  second : ∃ around stack stack', Ready action root w₀ around others stack stack' w₁
  waiting : ∃ all two, w.store.Spans [root.object] all ∧ w.store.Spans others.objects two ∧
    ∀ o ∈ two, o ∈ all ∧ Same w.store w₁.store o
  done : ∃ all one, w₁.store.Spans [root.object] all ∧ w₁.store.Spans [x] one ∧
    ∀ o ∈ one, o ∈ all ∧ Same w₁.store w₂.store o

theorem Turns.halves {x : Object} (tame : Tame action root w₀)
    (turns : Turns action root w₀ around stack stack' w [] part w others)
    (inside : Walks action root w₀ part w inner w₁) (after : Walks action root w₀ others w₁ outer w₂)
    (hole : Hole root w.store around (x :: others.objects)) (reached : Reached action root w₀ stack w)
    (within : ∀ one, w.store.Spans [x] one → ∃ inside, w.store.Spans part.objects inside ∧ inside ⊆ one) :
    Halves action root w₀ x part w w₁ others w₂ := by
  cases turns with
  | @intro wider stack₁ stack₂ contained start same ready later =>
    obtain ⟨⟨n, course⟩, kept⟩ := inside _ _ _ ready
    obtain ⟨wider₂, contained₂, ready₂⟩ := later w₁ (ready.reached.trans course) kept
    have hole₁ := hole.agree fun o member => kept o (contained member)
    obtain ⟨all, one, two, whole, one_spans, two_spans, inTree, nodup⟩ :=
      @hole_parts _ _ _ [x] others.objects hole (tame.unshared _ _ reached)
    obtain ⟨all₁, one₁, two₁, whole₁, one_spans₁, two_spans₁, inTree₁, nodup₁⟩ :=
      @hole_parts _ _ _ [x] others.objects hole₁ (tame.unshared _ _ ready₂.reached)
    obtain ⟨inner, inner_spans, part_of⟩ := within one one_spans
    refine ⟨⟨_, _, _, ready⟩, ⟨_, _, _, ready₂⟩, ⟨all, two, whole, two_spans, fun o member => ?_⟩,
      ⟨all₁, one₁, whole₁, one_spans₁, fun o member => ?_⟩⟩
    · have place := inTree o (List.mem_append_right _ member)
      refine ⟨place, inside.keeps ready whole inner_spans place fun shared => ?_⟩
      exact (List.nodup_append.mp nodup).2.2 o (part_of shared) o member rfl
    · have place := inTree₁ o (List.mem_append_left _ member)
      refine ⟨place, after.keeps ready₂ whole₁ two_spans₁ place fun shared => ?_⟩
      exact (List.nodup_append.mp nodup₁).2.2 o member o shared rfl

/-- A call and what follows it: what is beside the offered node is not touched until the others come, and
what has been given for it is as it was when it was given. -/
structure Settles (action : NodeId → Effect ε σ Reply) (root : Root) (w₀ : World σ)
    (before : List Object) (n : NodeId) (after : List Object) (ns : List NodeId) (w w₁ w₂ w₃ : World σ)
    (others : Task) : Prop where
  first : ∃ around stack stack', Ready action root w₀ around (.below ns) stack stack' w₂
  second : ∃ around stack stack', Ready action root w₀ around others stack stack' w₃
  beside : ∃ all one two, w.store.Spans [root.object] all ∧ .node n ∈ all ∧ w.store.Spans before one ∧
    w.store.Spans after two ∧ ∀ o ∈ one ++ two, o ∈ all ∧ Same w.store w₃.store o
  given : ∃ all full, w₂.store.Spans [root.object] all ∧ w₂.store.Spans (ns.map .node) full ∧
    ∀ o ∈ full, o ∈ all ∧ Same w₂.store w₁.store o

theorem Turns.settles {container : Object} {before after : List Object} {n : NodeId} {ns : List NodeId}
    {frame : Frame} {rest : List Frame} (tame : Tame action root w₀)
    (turns : Turns action root w₀ around (frame :: rest) stack' w [⟨n, w⟩] (.below ns) w₂ others)
    (reached : Reached action root w₀ (frame :: rest) w) (next : offered? w.store frame rest = some n)
    (hole : Hole root w.store around [container])
    (content : w.store.parts container = before ++ .node n :: after) (gives : Gives action n w ns w₁)
    (edits : ∀ o, o ≠ container → Same w₁.store w₂.store o)
    (placed : w₂.store.parts container = before ++ ns.map .node ++ after)
    (inside : Walks action root w₀ (.below ns) w₂ inner w₃) :
    Settles action root w₀ before n after ns w w₁ w₂ w₃ others := by
  cases turns with
  | @intro wider stack₁ stack₂ contained start same ready later =>
    obtain ⟨⟨k, course⟩, kept⟩ := inside _ _ _ ready
    obtain ⟨wider₂, contained₂, ready₂⟩ := later w₃ (ready.reached.trans course) kept
    have content' : w.store.parts container = before ++ [.node n] ++ after := by simp [content]
    obtain ⟨all, one, under, two, whole, one_spans, under_spans, two_spans, place, nodup⟩ :=
      hole.split (tame.unshared _ _ reached) content'
    -- Up to the edit: neither the call nor the edit is about what is beside the node.
    have untouched : ∀ o ∈ one ++ two, Same w.store w₂.store o := by
      intro o member
      obtain ⟨inTree, other⟩ := place o (mem_around under member)
      have unedited := tame.inside _ _ _ _ _ _ reached next whole under_spans o inTree
        (not_mem_of_around nodup member)
      rw [gives.world] at unedited
      exact unedited.trans (edits o other)
    -- After it: the same objects are beside what was given.
    have hole₂ : Hole root w₂.store around [container] := hole.agree same
    obtain ⟨all₂, one₂, full, two₂, whole₂, one_spans₂, full_spans, two_spans₂, place₂, nodup₂⟩ :=
      hole₂.split (tame.unshared _ _ ready.reached) placed
    obtain rfl := (one_spans.agree fun o member => untouched o (List.mem_append_left _ member)).unique one_spans₂
    obtain rfl := (two_spans.agree fun o member => untouched o (List.mem_append_right _ member)).unique two_spans₂
    have here : .node n ∈ one ++ under ++ two :=
      List.mem_append_left _ (List.mem_append_right _ (under_spans.mem (List.mem_singleton_self _)))
    refine ⟨⟨_, _, _, ready⟩, ⟨_, _, _, ready₂⟩,
      ⟨all, one, two, whole, (place _ here).1, one_spans, two_spans, fun o member => ?_⟩,
      ⟨all₂, full, whole₂, full_spans, fun o member => ?_⟩⟩
    · have left := inside.keeps ready whole₂ full_spans (place₂ o (mem_around full member)).1
        (not_mem_of_around nodup₂ member)
      exact ⟨(place o (mem_around under member)).1, (untouched o member).trans left⟩
    · obtain ⟨inTree, other⟩ := place₂ o (List.mem_append_left _ (List.mem_append_right _ member))
      exact ⟨inTree, (edits o other).symm⟩

theorem Answers.elemental (answering : Answers answers action root w₀) (reached : Reached action root w₀ stack w)
    (whole : w.store.Spans [root.object] all) (within : ∀ o ∈ inside, o ∈ all) {m : NodeId}
    (member : .node m ∈ inside) : w.store.Elemental m :=
  (answering.typed _ _ reached).elemental whole (within _ member)

theorem below_became {n : NodeId} {ns : List NodeId} (answering : Answers answers action root w₀)
    (ready : Ready action root w₀ around (.below (n :: ns)) stack stack' w)
    (inside : Walks action root w₀ (.slots (w.store.element n).slots) w inner w₁)
    (halves : Halves action root w₀ (.node n) (.slots (w.store.element n).slots) w w₁ (.below ns) w₂)
    (part : (Task.slots (w.store.element n).slots).Became answers w.store w₁.store)
    (rest : (Task.below ns).Became answers w₁.store w₂.store) :
    (Task.below (n :: ns)).Became answers w.store w₂.store := by
  obtain ⟨⟨_, _, _, ready₁⟩, ⟨_, _, _, ready₂⟩, ⟨all, two, whole, two_spans, waiting⟩,
    all₁, one, whole₁, one_spans, done⟩ := halves
  obtain ⟨all', all_spans, nodup⟩ := answering.tame.unshared _ _ ready.reached
  obtain rfl := all_spans.unique whole
  have here : .node n ∈ all' := by
    obtain ⟨_, _, _, whole', one_spans', _, inTree, _⟩ :=
      @hole_parts _ _ _ [.node n] _ ready.hole (answering.tame.unshared _ _ ready.reached)
    obtain rfl := whole.unique whole'
    exact inTree _ (List.mem_append_left _ (one_spans'.mem (List.mem_singleton_self _)))
  -- The node itself is not edited while its containers are gone through.
  obtain ⟨below, below_spans, below_part⟩ := whole.deep here
  obtain ⟨inner, rfl, _, inner_spans⟩ := below_spans.of_single
  have element : w₁.store.element n = w.store.element n :=
    (inside.keeps ready₁ whole inner_spans here (whole.not_below nodup here inner_spans)).element
  have others : ns.map w₁.store.node = ns.map w.store.node :=
    two_spans.nodes_agree (fun o member => (waiting o member).2)
      (fun m => answering.elemental ready.reached whole fun o member => (waiting o member).1)
      fun m member => two_spans.mem (List.mem_map_of_mem member)
  have elemental₁ : ∀ m, .node m ∈ one → w₁.store.Elemental m :=
    fun m => answering.elemental ready₂.reached whole₁ fun o member => (done o member).1
  have first := one_spans.mem (List.mem_singleton_self _)
  have before : w.store.node n = .mk ((w.store.element n).map w.store.nodesAt w.store.entriesAt) :=
    Store.node_eq (whole.allBelow (fun m => answering.elemental ready.reached whole fun _ => id) here)
  have after : w₂.store.node n = .mk ((w.store.element n).map w₁.store.nodesAt w₁.store.entriesAt) := by
    rw [one_spans.node_agree (fun o member => (done o member).2) elemental₁ first,
      Store.node_eq (one_spans.allBelow elemental₁ first), element]
  have named : (w.store.element n).kind ≠ .list := answering.elemental ready.reached whole (fun _ => id) here
  have grown : Rewritten answers (.below (ns.map w.store.node) (ns.map w₂.store.node)) := others ▸ rest
  change Rewritten answers (.below (w.store.node n :: _) (w₂.store.node n :: _))
  rw [before, after]
  exact .below_map named part.1 part.2 grown

theorem slots_became {container : Slot SequenceId MappingId} {containers : List (Slot SequenceId MappingId)}
    (answering : Answers answers action root w₀)
    (ready : Ready action root w₀ around (.slots (container :: containers)) stack stack' w)
    (halves : Halves action root w₀ (.ofSlot container) (.ofSlot w.store container) w w₁ (.slots containers) w₂)
    (part : (Task.ofSlot w.store container).Became answers w.store w₁.store)
    (rest : (Task.slots containers).Became answers w₁.store w₂.store) :
    (Task.slots (container :: containers)).Became answers w.store w₂.store := by
  obtain ⟨-, ⟨_, _, _, ready₂⟩, ⟨all, two, whole, two_spans, waiting⟩, all₁, one, whole₁, one_spans, done⟩ :=
    halves
  have first := one_spans.mem (List.mem_singleton_self _)
  have settled : ∀ m, .node m ∈ one → w₁.store.Elemental m :=
    fun m => answering.elemental ready₂.reached whole₁ fun o member => (done o member).1
  have elemental : ∀ m, .node m ∈ two → w.store.Elemental m :=
    fun m => answering.elemental ready.reached whole fun o member => (waiting o member).1
  have kept : ∀ o ∈ two, Same w.store w₁.store o := fun o member => (waiting o member).2
  have left : ∀ o ∈ one, Same w₁.store w₂.store o := fun o member => (done o member).2
  -- This container is done with when the others come, and these have waited meanwhile.
  constructor
  · intro q member
    rcases List.mem_cons.mp member with rfl | member
    · obtain ⟨_, now, content, rewritten⟩ := part
      rw [one_spans.nodesAt_agree left settled first, Store.nodesAt, Store.nodesAt, content, List.nil_append]
      exact rewritten
    · have later : .sequence q ∈ two := two_spans.mem (List.mem_map.mpr ⟨_, member, rfl⟩)
      rw [← two_spans.nodesAt_agree kept elemental later]
      exact rest.1 q member
  · intro id member
    rcases List.mem_cons.mp member with rfl | member
    · obtain ⟨_, now, content, rewritten⟩ := part
      rw [one_spans.entriesAt_agree left settled first, Store.entriesAt, Store.entriesAt, content,
        List.nil_append]
      exact rewritten
    · have later : .mapping id ∈ two := two_spans.mem (List.mem_map.mpr ⟨_, member, rfl⟩)
      rw [← two_spans.entriesAt_agree kept elemental later]
      exact rest.2 id member

section

variable {n : NodeId} {ns : List NodeId} {before after : List Object} {w₄ : World σ}

theorem given_same (answering : Answers answers action root w₀)
    (settles : Settles action root w₀ before n after ns w w₁ w₂ w₃ others) :
    ns.map w₁.store.node = ns.map w₂.store.node := by
  obtain ⟨⟨_, _, _, ready₂⟩, -, -, all₂, full, whole₂, full_spans, given⟩ := settles
  exact full_spans.nodes_agree (fun o member => (given o member).2)
    (fun m => answering.elemental ready₂.reached whole₂ fun o member => (given o member).1)
    fun m member => full_spans.mem (List.mem_map_of_mem member)

theorem beside_same (answering : Answers answers action root w₀) (reached : Reached action root w₀ stack w)
    (settles : Settles action root w₀ before n after ns w w₁ w₂ w₃ others) {m : NodeId}
    (member : .node m ∈ before ++ after) : w₃.store.node m = w.store.node m := by
  obtain ⟨all, one, two, whole, _, one_spans, two_spans, beside⟩ := settles.beside
  have spans := one_spans.append two_spans
  exact spans.node_agree (fun o inside => (beside o inside).2)
    (fun m => answering.elemental reached whole fun o inside => (beside o inside).1) (spans.mem member)

theorem members_became {id : SequenceId} {settled todo : List NodeId}
    (answering : Answers answers action root w₀) (reached : Reached action root w₀ stack w)
    (settles : Settles action root w₀ (settled.map .node) n (todo.map .node) ns w w₁ w₂ w₃ others)
    (answer : answers (w.store.node n) (ns.map w₁.store.node))
    (inside : (Task.below ns).Became answers w₂.store w₃.store)
    (rest : (Task.members id (settled ++ ns) todo).Became answers w₃.store w₄.store) :
    (Task.members id settled (n :: todo)).Became answers w.store w₄.store := by
  have given := given_same answering settles
  have left : ∀ m ∈ settled ++ todo, w₃.store.node m = w.store.node m := by
    intro m member
    refine beside_same answering reached settles ?_
    rw [← List.map_append]
    exact List.mem_map_of_mem member
  -- What was given is settled like the nodes before it, and none of them is touched any more.
  obtain ⟨placed, done, content, rewritten⟩ := rest
  rw [List.map_append, List.map_append] at placed
  obtain ⟨earlier, here⟩ := List.append_inj placed (by simp)
  have before : settled.map w₃.store.node = settled.map w.store.node :=
    List.map_congr_left fun m member => left m (List.mem_append_left _ member)
  have after : todo.map w₃.store.node = todo.map w.store.node :=
    List.map_congr_left fun m member => left m (List.mem_append_right _ member)
  refine ⟨earlier.trans before, ns ++ done, by rw [content, List.append_assoc], ?_⟩
  rw [List.map_append, here]
  have inside : Rewritten answers (.below (ns.map w₂.store.node) (ns.map w₃.store.node)) := inside
  exact .members_cons answer (given ▸ inside) (after ▸ rewritten)

theorem entries_became {id : MappingId} {settled todo : Mapping NodeId} {key : Text}
    (answering : Answers answers action root w₀) (reached : Reached action root w₀ stack w)
    (settles : Settles action root w₀ (settled.map fun entry => .node entry.2) n
      (todo.map fun entry => .node entry.2) ns w w₁ w₂ w₃ others)
    (answer : answers (w.store.node n) (ns.map w₁.store.node)) (room : ns.length ≤ 1)
    (inside : (Task.below ns).Became answers w₂.store w₃.store)
    (rest : (Task.entries id (settled ++ ns.map (key, ·)) todo).Became answers w₃.store w₄.store) :
    (Task.entries id settled ((key, n) :: todo)).Became answers w.store w₄.store := by
  have given := given_same answering settles
  have left : ∀ entry ∈ settled ++ todo, w₃.store.node entry.2 = w.store.node entry.2 := by
    intro entry member
    refine beside_same answering reached settles ?_
    rw [← List.map_append]
    exact List.mem_map.mpr ⟨entry, member, rfl⟩
  obtain ⟨placed, done, content, rewritten⟩ := rest
  rw [List.map_append, List.map_append] at placed
  obtain ⟨earlier, here⟩ := List.append_inj placed (by simp)
  have here : ns.map w₄.store.node = ns.map w₃.store.node := by
    have values := congrArg (List.map Prod.snd) here
    simpa only [List.map_map, Function.comp_def] using values
  have before : (settled.map fun (key, m) => (key, w₃.store.node m)) =
      settled.map fun (key, m) => (key, w.store.node m) :=
    List.map_congr_left fun entry member => congrArg (entry.1, ·) (left entry (List.mem_append_left _ member))
  have after : (todo.map fun (key, m) => (key, w₃.store.node m)) =
      todo.map fun (key, m) => (key, w.store.node m) :=
    List.map_congr_left fun entry member => congrArg (entry.1, ·) (left entry (List.mem_append_right _ member))
  refine ⟨earlier.trans before, ns.map (key, ·) ++ done, by rw [content, List.append_assoc], ?_⟩
  have inside : Rewritten answers (.below (ns.map w₂.store.node) (ns.map w₃.store.node)) := inside
  have whole : Rewritten answers (.entries ((key, w.store.node n) :: _) _) :=
    .entries_cons answer (by simpa using room) (given ▸ inside) (after ▸ rewritten)
  rw [← here] at whole
  simpa [Function.comp_def] using whole

end

theorem Rewrites.became (h : Rewrites action task w calls w₁) (answering : Answers answers action root w₀)
    (ready : Ready action root w₀ around task stack stack' w) :
    task.Became answers w.store w₁.store := by
  have tame := answering.tame
  induction h generalizing around stack stack' with
  | below_nil => exact .below_nil
  | slots_nil =>
    exact ⟨fun _ member => absurd member List.not_mem_nil, fun _ member => absurd member List.not_mem_nil⟩
  | members_nil =>
    cases ready.position with
    | members rest content => exact ⟨rfl, [], content, .members_nil⟩
  | entries_nil =>
    cases ready.position with
    | entries rest content => exact ⟨rfl, [], content, .entries_nil⟩
  | below_cons inside others ihInside ihOthers =>
    have halves := (below_turns tame ready).halves tame (inside.walks tame) (others.walks tame) ready.hole
      ready.reached fun one spans => by
        obtain ⟨inner, rfl, _, inner_spans⟩ := spans.of_single
        exact ⟨inner, inner_spans, List.subset_cons_self _ _⟩
    obtain ⟨_, _, _, ready₁⟩ := halves.first
    obtain ⟨_, _, _, ready₂⟩ := halves.second
    exact below_became answering ready (inside.walks tame) halves (ihInside ready₁) (ihOthers ready₂)
  | @slots_cons container containers w _ _ _ _ inside others ihInside ihOthers =>
    have halves := (slots_turn tame ready).halves tame (inside.walks tame) (others.walks tame) ready.hole
      ready.reached fun one spans => ⟨one, objects_ofSlot w.store container ▸ spans, List.Subset.refl _⟩
    obtain ⟨_, _, _, ready₁⟩ := halves.first
    obtain ⟨_, _, _, ready₂⟩ := halves.second
    exact slots_became answering ready halves (ihInside ready₁) (ihOthers ready₂)
  | @members_cons id settled todo ns n w w₁ w₂ w₃ _ _ gives inside others ihInside ihOthers =>
    have turns := member_turns tame ready gives
    obtain ⟨reached, hole, position⟩ := ready
    cases position with
    | @members errands _ _ _ rest content =>
      have parts : w.store.parts (.sequence id) = settled.map .node ++ .node n :: todo.map .node := by
        simp [Store.parts, content]
      have kept : Same w.store w₁.store (.sequence id) := by
        have leaves := member_leaves tame ⟨reached, hole, .members rest content⟩ content _ List.mem_cons_self
        rwa [gives.world] at leaves
      have settles := turns.settles tame reached (offered_member content) hole parts gives
        (fun _ => Store.same_setSequence) (member_parts content kept ns) (inside.walks tame)
      obtain ⟨_, _, _, ready₁⟩ := settles.first
      obtain ⟨_, _, _, ready₂⟩ := settles.second
      obtain ⟨all, _, _, whole, here, _⟩ := settles.beside
      have answer := answering.given _ _ _ _ _ _ _ reached (offered_member content) whole here gives
      exact members_became answering reached settles answer (ihInside ready₁) (ihOthers ready₂)
  | @entries_cons id settled todo key ns n w w₁ w₂ w₃ _ _ gives room inside others ihInside ihOthers =>
    have sound : w.store.Sound (.mapping id) := ready.hole.sound (tame.unshared _ _ ready.reached)
    have turns := entry_turns tame ready gives room
    obtain ⟨reached, hole, position⟩ := ready
    cases position with
    | @entries errands _ _ _ rest content =>
      have parts : w.store.parts (.mapping id) = settled.map (fun entry => .node entry.2) ++
          .node n :: todo.map fun entry => .node entry.2 := by
        simp [Store.parts, content]
      have kept : Same w.store w₁.store (.mapping id) := by
        have leaves :=
          entry_leaves tame ⟨reached, hole, .entries rest content⟩ content sound _ List.mem_cons_self
        rwa [gives.world] at leaves
      have next : offered? w.store ⟨errands, some (.mapping id (key :: todo.keys) [])⟩ rest = some n :=
        offered_value content sound
      have settles := turns.settles tame reached next hole parts gives
        (fun _ => Store.same_setMapping) (entry_parts content kept ns) (inside.walks tame)
      obtain ⟨_, _, _, ready₁⟩ := settles.first
      obtain ⟨_, _, _, ready₂⟩ := settles.second
      obtain ⟨all, _, _, whole, here, _⟩ := settles.beside
      have answer := answering.given _ _ _ _ _ _ _ reached next whole here gives
      exact entries_became answering reached settles answer room (ihInside ready₁) (ihOthers ready₂)

/-- What a whole walk makes of a tree is a rewriting of it. -/
theorem Answers.tree {fuel : Nat} {w' : World σ} (answering : Answers answers action root w)
    (ended : transform fuel action root w = (.ok (), w')) :
    (w.store.tree root).Rewritten answers (w'.store.tree root) := by
  have tame := answering.tame
  obtain ⟨n, _, calls, course⟩ := run_eq_ok_iff.mp ended
  have rewrites := (reaches_iff_rewrites tame).mp ⟨n, course⟩
  obtain ⟨around, stack, ready, _⟩ := ready_ofRoot action root w
  have became := rewrites.became answering ready
  cases root with
  | list id =>
    obtain ⟨_, done, content, rewritten⟩ := became
    change Rewritten answers (.members ((w.store.sequence id).map _) ((w'.store.sequence id).map _))
    rwa [content, List.nil_append]
  | node top =>
    have start : Reached action (.node top) w [.ofRoot (.node top)] w := ⟨0, [], .refl _ _⟩
    have last : Reached action (.node top) w [] w' := ⟨n, calls, course⟩
    obtain ⟨all, whole, nodup⟩ := tame.unshared _ _ start
    obtain ⟨all', whole', _⟩ := tame.unshared _ _ last
    have here : .node top ∈ all := whole.mem (List.mem_singleton_self _)
    have here' : .node top ∈ all' := whole'.mem (List.mem_singleton_self _)
    have element : w'.store.element top = w.store.element top := by
      obtain ⟨inside, rfl, _, inner⟩ := whole.of_single
      exact ((rewrites.walks tame).keeps ready whole inner here (whole.not_below nodup here inner)).element
    have elemental : ∀ m, .node m ∈ all → w.store.Elemental m :=
      fun m => answering.elemental start whole fun _ => id
    have elemental' : ∀ m, .node m ∈ all' → w'.store.Elemental m :=
      fun m => answering.elemental last whole' fun _ => id
    change Rewritten answers (.below [w.store.node top] [w'.store.node top])
    rw [Store.node_eq (whole.allBelow elemental here), Store.node_eq (whole'.allBelow elemental' here'), element]
    exact .below_map (elemental top here) became.1 became.2 .below_nil

end

end DocTree.Walk
