import DocTree.Proofs.Store.Weight
import DocTree.Proofs.Store.Proper
/-!
What becomes of the objects of a tree when nodes take the place of a member of one of its containers: what
was below that member gives way to what is below the nodes, in the same place of the document order. Beside
this: the nodes of a tree are those among its objects, and without sharing every object has one place.
-/

namespace DocTree.Store

variable {s s' : Store} {root : Root} {o o' x : Object} {objects all inside : List Object} {n m p p' : NodeId}

theorem part_of_member {container : Slot SequenceId MappingId} (member : m ∈ s.members container) :
    .node m ∈ s.parts (.ofSlot container) := by
  cases container with
  | sequence id => exact List.mem_map_of_mem member
  | mapping id =>
    obtain ⟨entry, inEntries, rfl⟩ := List.mem_map.mp member
    exact List.mem_map.mpr ⟨entry, inEntries, rfl⟩

theorem part_of_child (child : m ∈ s.children n) :
    ∃ container, .ofSlot container ∈ s.parts (.node n) ∧ .node m ∈ s.parts (.ofSlot container) := by
  obtain ⟨container, own, member⟩ := List.mem_flatMap.mp child
  exact ⟨container, List.mem_map_of_mem own, part_of_member member⟩

theorem part_of_top (atTop : n ∈ s.top root) :
    (∃ id, root = .node id ∧ n ∈ s.children id) ∨
      ∃ id, root = .list id ∧ .node n ∈ s.parts (.sequence id) := by
  cases root with
  | node id => exact .inl ⟨id, rfl, atTop⟩
  | list id => exact .inr ⟨id, rfl, List.mem_map_of_mem atTop⟩

/-- The nodes that are come upon first on a way down from an object. -/
def front (s : Store) : Object → List NodeId
  | .node n => [n]
  | .sequence id => s.sequence id
  | .mapping id => (s.mapping id).map (·.2)
  | .fitting _ => []

@[simp] theorem front_ofSlot (container : Slot SequenceId MappingId) :
    s.front (.ofSlot container) = s.members container := by
  cases container <;> rfl

theorem front_of_part (part : x ∈ s.parts o) (atFront : n ∈ s.front x) :
    n ∈ s.front o ∨ ∃ p, o = .node p ∧ n ∈ s.children p := by
  cases o with
  | node p =>
    obtain ⟨container, own, rfl⟩ := List.mem_map.mp part
    rw [front_ofSlot] at atFront
    exact .inr ⟨p, rfl, mem_children own atFront⟩
  | sequence id =>
    obtain ⟨m, member, rfl⟩ := List.mem_map.mp part
    obtain rfl := List.mem_singleton.mp atFront
    exact .inl member
  | mapping id =>
    obtain ⟨entry, member, rfl⟩ := List.mem_map.mp part
    obtain rfl := List.mem_singleton.mp atFront
    exact .inl (List.mem_map_of_mem member)
  | fitting p =>
    obtain ⟨q, _, rfl⟩ := List.mem_map.mp part
    cases atFront

namespace Spans

theorem closed (h : s.Spans objects all) (member : o ∈ all) (part : x ∈ s.parts o) : x ∈ all := by
  obtain ⟨below, spans, within⟩ := h.deep member
  obtain ⟨inside, rfl, _, inner⟩ := spans.of_single
  exact within.subset (List.mem_cons_of_mem _ (inner.mem part))

theorem soundOf (h : s.Spans objects all) (member : o ∈ all) : s.Sound o := by
  obtain ⟨below, spans, _⟩ := h.deep member
  obtain ⟨_, _, sound, _⟩ := spans.of_single
  exact sound

theorem subset (h : s.Spans objects all) {some given : List Object} (h' : s.Spans some given)
    (members : ∀ o ∈ some, o ∈ all) : given ⊆ all := by
  induction h' with
  | nil => exact List.nil_subset _
  | @cons o some inside rest _ _ _ ihBelow ihLater =>
    have here := members o List.mem_cons_self
    have inner := ihBelow fun x part => h.closed here part
    have outer := ihLater fun x later => members x (List.mem_cons_of_mem _ later)
    exact List.cons_subset.mpr ⟨here, List.append_subset.mpr ⟨inner, outer⟩⟩

theorem child_mem (h : s.Spans objects all) (member : .node n ∈ all) (child : m ∈ s.children n) :
    .node m ∈ all := by
  obtain ⟨container, own, part⟩ := part_of_child child
  exact h.closed (h.closed member own) part

theorem along (h : s.Spans objects all) (member : .node n ∈ all) {k : Nat} (way : s.Way k n m) :
    .node m ∈ all := by
  induction way with
  | here => exact member
  | down first _ ih => exact ih (h.child_mem member first)

theorem finite (h : s.Spans objects all) (member : .node n ∈ all) : s.Finite n := by
  induction h generalizing n with
  | nil => cases member
  | @cons o objects inside rest _ below _ ihBelow ihLater =>
    rcases List.mem_cons.mp member with rfl | member
    · refine .intro trivial fun m child => ihBelow ?_
      obtain ⟨container, own, part⟩ := part_of_child child
      exact below.closed (below.mem own) part
    · rcases List.mem_append.mp member with member | member
      · exact ihBelow member
      · exact ihLater member

theorem allBelow {good : NodeId → Prop} (h : s.Spans objects all) (each : ∀ m, .node m ∈ all → good m)
    (member : .node n ∈ all) : s.AllBelow good n :=
  (h.finite member).allBelow fun _ m way => each m (h.along member way)

/-- The objects of a tree are those at the top and the parts of all the others. -/
theorem perm_parts (h : s.Spans objects all) : all.Perm (objects ++ all.flatMap s.parts) := by
  induction h with
  | nil => exact .refl _
  | @cons o objects inside rest _ _ _ ihBelow ihLater =>
    rw [List.flatMap_cons, List.flatMap_append, List.cons_append]
    refine .cons o ((ihBelow.append ihLater).trans ?_)
    -- Both sides have the same four lists in them.
    rw [List.perm_iff_count]
    intro x
    simp only [List.count_append]
    omega

/-- Without sharing, every object is a part of one other at most. -/
theorem one_parent (h : s.Spans objects all) (nodup : all.Nodup) (member : o ∈ all) (member' : o' ∈ all)
    (part : x ∈ s.parts o) (part' : x ∈ s.parts o') : o = o' := by
  have distinct := (List.nodup_append.mp (h.perm_parts.nodup_iff.mp nodup)).2.1
  clear h nodup
  obtain ⟨before, after, rfl⟩ := List.append_of_mem member
  rw [List.flatMap_append, List.flatMap_cons] at distinct
  obtain ⟨_, later, apart⟩ := List.nodup_append.mp distinct
  rcases List.mem_append.mp member' with earlier | here
  · exact absurd rfl (apart x (List.mem_flatMap.mpr ⟨o', earlier, part'⟩) x (List.mem_append_left _ part))
  rcases List.mem_cons.mp here with rfl | after'
  · rfl
  · have same := (List.nodup_append.mp later).2.2 x part x (List.mem_flatMap.mpr ⟨o', after', part'⟩)
    exact absurd rfl same

theorem no_parent (h : s.Spans objects all) (nodup : all.Nodup) (atTop : o ∈ objects) (member : x ∈ all) :
    o ∉ s.parts x := by
  have apart := (List.nodup_append.mp (h.perm_parts.nodup_iff.mp nodup)).2.2
  exact fun part => apart o atTop o (List.mem_flatMap.mpr ⟨x, member, part⟩) rfl

theorem not_below (h : s.Spans objects all) (nodup : all.Nodup) (member : o ∈ all)
    (below : s.Spans (s.parts o) inside) : o ∉ inside := by
  obtain ⟨_, spans, part⟩ := h.deep member
  obtain ⟨inner, rfl, _, inner_spans⟩ := spans.of_single
  obtain rfl := inner_spans.unique below
  exact (List.nodup_cons.mp (part.nodup nodup)).1

theorem top_mem (h : s.Spans [root.object] all) (atTop : n ∈ s.top root) : .node n ∈ all := by
  have first : root.object ∈ all := h.mem (List.mem_singleton_self _)
  obtain ⟨id, rfl, child⟩ | ⟨id, rfl, part⟩ := part_of_top atTop
  · exact h.child_mem first child
  · exact h.closed first part

theorem holds_mem (h : s.Spans [root.object] all) (held : s.Holds root m) : .node m ∈ all := by
  obtain ⟨n, atTop, k, way⟩ := held
  exact h.along (h.top_mem atTop) way

theorem way_from_front (h : s.Spans objects all) (member : .node m ∈ all) :
    ∃ n ∈ objects.flatMap s.front, ∃ k, s.Way k n m := by
  induction h with
  | nil => cases member
  | @cons o objects inside rest _ _ _ ihBelow ihLater =>
    rw [List.flatMap_cons]
    rcases List.mem_cons.mp member with rfl | member
    · exact ⟨m, List.mem_append_left _ (List.mem_singleton_self m), 0, .here m⟩
    rcases List.mem_append.mp member with inner | later
    · obtain ⟨n, found, k, way⟩ := ihBelow inner
      obtain ⟨part, own, atFront⟩ := List.mem_flatMap.mp found
      rcases front_of_part own atFront with same | ⟨p, eq, child⟩
      · exact ⟨n, List.mem_append_left _ same, k, way⟩
      · exact ⟨p, List.mem_append_left _ (eq ▸ List.mem_singleton_self p), k + 1, .down child way⟩
    · obtain ⟨n, found, k, way⟩ := ihLater later
      exact ⟨n, List.mem_append_right _ found, k, way⟩

theorem mem_cases (h : s.Spans [root.object] all) (member : .node m ∈ all) :
    root = .node m ∨ s.Holds root m := by
  obtain ⟨n, found, k, way⟩ := h.way_from_front member
  rw [List.flatMap_singleton] at found
  cases root with
  | list id => exact .inr ⟨n, found, k, way⟩
  | node id =>
    obtain rfl := List.mem_singleton.mp found
    cases way with
    | here => exact .inl rfl
    | down first later => exact .inr ⟨_, first, _, later⟩

theorem acyclic (h : s.Spans [root.object] all) : s.Acyclic root :=
  fun _ atTop => h.finite (h.top_mem atTop)

theorem part_held (h : s.Spans [root.object] all) (nodup : all.Nodup) (member : o ∈ all)
    (part : .node m ∈ s.parts o) : s.Holds root m := by
  refine (h.mem_cases (h.closed member part)).resolve_left ?_
  rintro rfl
  exact h.no_parent nodup (List.mem_singleton_self _) member part

/-- Nodes take the place of a member of a container, and what is below them that of what was below it. -/
theorem exchange {container : Object} {before after given : List Object} {ns : List NodeId}
    (h : s.Spans objects all) (nodup : all.Nodup) (member : container ∈ all)
    (content : s.parts container = before ++ .node n :: after)
    (placed : s'.parts container = before ++ ns.map .node ++ after) (sound' : s'.Sound container)
    (edits : ∀ o ∈ all, o ≠ container → Same s s' o) (spans : s'.Spans (ns.map .node) given) :
    ∃ first below last, all = first ++ below ++ last ∧ s.Spans [.node n] below ∧
      s'.Spans objects (first ++ given ++ last) := by
  induction h with
  | nil => cases member
  | @cons o objects inside rest sound below later ihBelow ihLater =>
    obtain ⟨fresh, nodup⟩ := List.nodup_cons.mp nodup
    obtain ⟨inside_nodup, rest_nodup, apart⟩ := List.nodup_append.mp nodup
    have editsInside : ∀ x ∈ inside, x ≠ container → Same s s' x :=
      fun x inner => edits x (List.mem_cons_of_mem _ (List.mem_append_left _ inner))
    have editsRest : ∀ x ∈ rest, x ≠ container → Same s s' x :=
      fun x inner => edits x (List.mem_cons_of_mem _ (List.mem_append_right _ inner))
    -- The container is this object, or below it, or below one of the others; what is elsewhere is spanned as
    -- before.
    by_cases here : o = container
    · subst here
      have keptInside : ∀ x ∈ inside, Same s s' x :=
        fun x inner => editsInside x inner fun eq => fresh (List.mem_append_left _ (eq ▸ inner))
      have keptRest : ∀ x ∈ rest, Same s s' x :=
        fun x inner => editsRest x inner fun eq => fresh (List.mem_append_right _ (eq ▸ inner))
      rw [content] at below
      obtain ⟨one, more, rfl, one_spans, more_spans⟩ := below.of_append
      obtain ⟨under, two, rfl, under_spans, two_spans⟩ :=
        (show s.Spans ([.node n] ++ after) more from more_spans).of_append
      have one_spans := one_spans.agree fun x inner => keptInside x (by simp [inner])
      have two_spans := two_spans.agree fun x inner => keptInside x (by simp [inner])
      have inner := (one_spans.append spans).append two_spans
      rw [← placed] at inner
      refine ⟨o :: one, under, two ++ rest, by simp, under_spans, ?_⟩
      have whole := Spans.cons sound' inner (later.agree keptRest)
      simpa only [List.cons_append, List.append_assoc] using whole
    · have same := edits o List.mem_cons_self here
      rcases List.mem_append.mp ((List.mem_cons.mp member).resolve_left (Ne.symm here)) with inner | outer
      · have keptRest : ∀ x ∈ rest, Same s s' x :=
          fun x within => editsRest x within fun eq => apart container inner x within eq.symm
        obtain ⟨first, under, last, rfl, under_spans, inner_spans⟩ := ihBelow inside_nodup inner editsInside
        rw [← same.parts] at inner_spans
        refine ⟨o :: first, under, last ++ rest, by simp, under_spans, ?_⟩
        have whole := Spans.cons (same.sound sound) inner_spans (later.agree keptRest)
        simpa only [List.cons_append, List.append_assoc] using whole
      · have keptInside : ∀ x ∈ inside, Same s s' x :=
          fun x within => editsInside x within fun eq => apart x within container outer eq
        obtain ⟨first, under, last, rfl, under_spans, later_spans⟩ := ihLater rest_nodup outer editsRest
        have below_spans := below.agree keptInside
        rw [← same.parts] at below_spans
        refine ⟨o :: (inside ++ first), under, last, by simp, under_spans, ?_⟩
        have whole := Spans.cons (same.sound sound) below_spans later_spans
        simpa only [List.cons_append, List.append_assoc] using whole

end Spans

/-- A member of a container has given way to some nodes; in a mapping there is room for one. -/
inductive Exchanged (s s' : Store) (n : NodeId) (ns : List NodeId) : Object → Prop
  | member {id : SequenceId} {before after : List NodeId} (content : s.sequence id = before ++ n :: after)
      (placed : s'.sequence id = before ++ ns ++ after) : Exchanged s s' n ns (.sequence id)
  | entry {id : MappingId} {key : Text} {before after : Mapping NodeId}
      (content : s.mapping id = before ++ (key, n) :: after)
      (placed : s'.mapping id = before ++ ns.map (key, ·) ++ after) (room : ns.length ≤ 1) :
      Exchanged s s' n ns (.mapping id)

namespace Exchanged

variable {container : Object} {ns : List NodeId}

theorem parts (h : Exchanged s s' n ns container) : ∃ before after,
    s.parts container = before ++ .node n :: after ∧
      s'.parts container = before ++ ns.map .node ++ after := by
  cases h with
  | @member id before after content placed =>
    exact ⟨before.map .node, after.map .node, by simp [Store.parts, content], by simp [Store.parts, placed]⟩
  | @entry id key before after content placed =>
    refine ⟨before.map fun entry => .node entry.2, after.map fun entry => .node entry.2, ?_, ?_⟩
    · simp [Store.parts, content]
    · simp [Store.parts, placed]

theorem not_node (h : Exchanged s s' n ns container) (m : NodeId) : .node m ≠ container := by
  cases h <;> nofun

theorem sound (h : Exchanged s s' n ns container) (sound : s.Sound container) : s'.Sound container := by
  cases h with
  | member => trivial
  | @entry id key before after content placed room =>
    have distinct : (s.mapping id).keys.Nodup := sound
    change (s'.mapping id).keys.Nodup
    rw [content] at distinct
    rw [placed]
    match ns with
    | [] =>
      refine distinct.sublist ?_
      simp [Mapping.keys]
    | [m] => simpa [Mapping.keys] using distinct

end Exchanged

end DocTree.Store
