import DocTree.Proofs.Store.Span
import Mathlib.Data.List.Nodup
import Mathlib.Data.List.Perm.Subperm
/-!
Weights of nodes. A weight is read off a node and what is below it, so that an edit elsewhere leaves it as
it is; what some objects weigh is what the nodes among them weigh. Beside this: the deeper objects of a
tree, and nodes of a tree of which none is below another.
-/

namespace DocTree.Store

def Object.node? : Object → Option NodeId
  | node n => some n
  | sequence _ | mapping _ | fitting _ => none

def Object.nodes (objects : List Object) : List NodeId := objects.filterMap node?

namespace Object

@[simp] theorem nodes_append (first second : List Object) : nodes (first ++ second) = nodes first ++ nodes second :=
  List.filterMap_append

@[simp] theorem nodes_cons_node (n : NodeId) (objects : List Object) :
    nodes (.node n :: objects) = n :: nodes objects := rfl

@[simp] theorem nodes_cons_sequence (id : SequenceId) (objects : List Object) :
    nodes (.sequence id :: objects) = nodes objects := rfl

@[simp] theorem nodes_cons_mapping (id : MappingId) (objects : List Object) :
    nodes (.mapping id :: objects) = nodes objects := rfl

@[simp] theorem nodes_cons_fitting (p : FittingId) (objects : List Object) :
    nodes (.fitting p :: objects) = nodes objects := rfl

theorem mem_nodes {objects : List Object} {n : NodeId} : n ∈ nodes objects ↔ .node n ∈ objects := by
  refine List.mem_filterMap.trans ⟨?_, fun member => ⟨.node n, member, rfl⟩⟩
  rintro ⟨o, member, isNode⟩
  cases o with
  | node m => exact Option.some.inj isNode ▸ member
  | sequence | mapping | fitting => cases isNode

end Object

/-- A weight of at least one for every node, which depends on nothing but the node and what is below it. -/
structure Weighting where
  weight : Store → NodeId → Nat
  positive : ∀ s n, 1 ≤ weight s n
  inner : ∀ {s s' : Store} {n : NodeId} {below : List Object}, s.Spans [.node n] below →
    (∀ o ∈ below, Same s s' o) → weight s' n = weight s n

namespace Weighting

def fixed (weight : NodeId → Nat) (positive : ∀ n, 1 ≤ weight n) : Weighting where
  weight := fun _ => weight
  positive := fun _ => positive
  inner := fun _ _ => rfl

def one : Weighting := fixed (fun _ => 1) fun _ => Nat.le_refl 1

def ofObject (W : Weighting) (s : Store) : Object → Nat
  | .node n => W.weight s n
  | .sequence _ | .mapping _ | .fitting _ => 0

def weigh (W : Weighting) (s : Store) : List Object → Nat
  | [] => 0
  | o :: objects => W.ofObject s o + W.weigh s objects

variable {W : Weighting} {s s' : Store} {objects all : List Object}

@[simp] theorem weigh_cons (o : Object) (objects : List Object) :
    W.weigh s (o :: objects) = W.ofObject s o + W.weigh s objects := rfl

@[simp] theorem weigh_append (first second : List Object) :
    W.weigh s (first ++ second) = W.weigh s first + W.weigh s second := by
  induction first with
  | nil => rw [List.nil_append, weigh, Nat.zero_add]
  | cons o first ih => rw [List.cons_append, weigh_cons, weigh_cons, ih, Nat.add_assoc]

@[simp] theorem ofObject_ofSlot (container : Slot SequenceId MappingId) :
    W.ofObject s (.ofSlot container) = 0 := by
  cases container <;> rfl

theorem weigh_perm (perm : objects.Perm all) : W.weigh s objects = W.weigh s all := by
  induction perm with
  | nil => rfl
  | cons o _ ih => rw [weigh_cons, weigh_cons, ih]
  | swap o o' objects =>
    simp only [weigh_cons]
    omega
  | trans _ _ ih ih' => exact ih.trans ih'

theorem weigh_le (part : objects.Subperm all) : W.weigh s objects ≤ W.weigh s all := by
  obtain ⟨part, perm, sublist⟩ := part
  rw [← weigh_perm perm]
  clear perm
  induction sublist with
  | slnil => exact Nat.le_refl 0
  | cons o _ ih => exact Nat.le_trans ih (Nat.le_add_left _ _)
  | cons_cons o _ ih => exact Nat.add_le_add_left ih _

theorem weigh_one (s : Store) (objects : List Object) : one.weigh s objects = (Object.nodes objects).length := by
  induction objects with
  | nil => rfl
  | cons o objects ih =>
    rw [weigh_cons, ih, Nat.add_comm]
    cases o <;> rfl

theorem ofObject_agree {o : Object} {below : List Object} (h : s.Spans [o] below)
    (same : ∀ o' ∈ below, Same s s' o') : W.ofObject s' o = W.ofObject s o := by
  cases o with
  | node n => exact W.inner h same
  | sequence | mapping | fitting => rfl

/-- What a part of a tree weighs does not change where nothing in it is edited. -/
theorem weigh_agree (h : s.Spans objects all) (same : ∀ o ∈ all, Same s s' o) :
    W.weigh s' all = W.weigh s all := by
  induction h with
  | nil => rfl
  | @cons o objects inside rest sound below _ ihBelow ihLater =>
    have here : W.ofObject s' o = W.ofObject s o := by
      refine ofObject_agree (.single sound below) fun o' member => same o' ?_
      exact List.cons_subset_cons o (List.subset_append_left inside rest) member
    have below_eq := ihBelow fun o' member => same o' (by simp [member])
    have later_eq := ihLater fun o' member => same o' (by simp [member])
    simp only [weigh_cons, weigh_append, here, below_eq, later_eq]

end Weighting

variable {s s' : Store} {root : Root} {o : Object} {objects first second all one two : List Object}

theorem Same.symm (h : Same s s' o) : Same s' s o := by
  cases o with
  | node n => exact SameNode.symm h
  | sequence | mapping | fitting => exact Eq.symm h

namespace Spans

theorem append (h : s.Spans first one) (h' : s.Spans second two) : s.Spans (first ++ second) (one ++ two) := by
  induction h with
  | nil => exact h'
  | cons sound below _ _ ih =>
    rw [List.cons_append, List.cons_append, List.append_assoc]
    exact .cons sound below ih

theorem perm {objects' inside : List Object} (h : s.Spans objects inside) (order : objects.Perm objects') :
    ∃ inside', s.Spans objects' inside' ∧ inside'.Perm inside := by
  induction order generalizing inside with
  | nil => exact ⟨inside, h, .refl _⟩
  | cons o _ ih =>
    cases h with
    | cons sound below later =>
      obtain ⟨rest, spans, same⟩ := ih later
      exact ⟨_, .cons sound below spans, (same.append_left _).cons o⟩
  | swap o o' objects =>
    obtain ⟨first, rest, rfl, h₁, h⟩ := (show s.Spans ([o'] ++ o :: objects) inside from h).of_append
    obtain ⟨second, rest, rfl, h₂, h⟩ := (show s.Spans ([o] ++ objects) _ from h).of_append
    refine ⟨second ++ (first ++ rest), h₂.append (h₁.append h), ?_⟩
    simpa only [List.append_assoc] using (@List.perm_append_comm _ second first).append_right rest
  | trans _ _ ih ih' =>
    obtain ⟨middle, spans, same⟩ := ih h
    obtain ⟨last, spans', same'⟩ := ih' spans
    exact ⟨last, spans', same'.trans same⟩

theorem mem (h : s.Spans objects all) (member : o ∈ objects) : o ∈ all := by
  obtain ⟨below, here, within⟩ := h.of_mem member
  obtain ⟨inside, rfl, _⟩ := here.of_single
  exact within List.mem_cons_self

theorem deep (h : s.Spans objects all) (member : o ∈ all) :
    ∃ below, s.Spans [o] below ∧ below.Sublist all := by
  induction h with
  | nil => cases member
  | @cons o' objects inside rest sound below _ ihBelow ihLater =>
    have inside_part : inside.Sublist (o' :: (inside ++ rest)) :=
      (List.sublist_append_left inside rest).cons o'
    have rest_part : rest.Sublist (o' :: (inside ++ rest)) :=
      (List.sublist_append_right inside rest).cons o'
    rcases List.mem_cons.mp member with rfl | member
    · exact ⟨_, .single sound below, (List.sublist_append_left inside rest).cons_cons o⟩
    · rcases List.mem_append.mp member with member | member
      · obtain ⟨deeper, spans, part⟩ := ihBelow member
        exact ⟨deeper, spans, part.trans inside_part⟩
      · obtain ⟨deeper, spans, part⟩ := ihLater member
        exact ⟨deeper, spans, part.trans rest_part⟩

theorem source (h : s.Spans objects all) (member : o ∈ all) :
    ∃ top ∈ objects, ∃ below, s.Spans [top] below ∧ o ∈ below := by
  induction objects generalizing all with
  | nil =>
    cases h
    cases member
  | cons top objects ih =>
    have split : s.Spans ([top] ++ objects) all := h
    obtain ⟨here, later, rfl, spans, others⟩ := split.of_append
    rcases List.mem_append.mp member with member | member
    · exact ⟨top, List.mem_cons_self, here, spans, member⟩
    · obtain ⟨top', inside, found⟩ := ih others member
      exact ⟨top', List.mem_cons_of_mem _ inside, found⟩

theorem inside_nodes {ns : List NodeId} (h : s.Spans (ns.map .node) all) :
    ∃ inside, s.Spans (ns.flatMap fun n => s.parts (.node n)) inside ∧
      all.Perm (ns.map .node ++ inside) := by
  induction ns generalizing all with
  | nil =>
    cases h
    exact ⟨[], .nil, .refl _⟩
  | cons n ns ih =>
    have split : s.Spans ([.node n] ++ ns.map .node) all := h
    obtain ⟨_, later, rfl, spans, others⟩ := split.of_append
    obtain ⟨inside, rfl, _, below⟩ := spans.of_single
    obtain ⟨inner, inner_spans, perm⟩ := ih others
    refine ⟨inside ++ inner, below.append inner_spans, ?_⟩
    have swapped := perm.append_left inside
    have moved : (inside ++ (ns.map Object.node ++ inner)).Perm (ns.map .node ++ (inside ++ inner)) := by
      rw [← List.append_assoc, ← List.append_assoc]
      exact List.perm_append_comm.append_right inner
    exact (swapped.trans moved).cons (.node n)

end Spans

theorem Hole.beside {around inside : List Object} (h : Hole root s around objects)
    (spans : s.Spans objects inside) (whole : s.Spans [root.object] all) (member : o ∈ all)
    (apart : o ∉ inside) : o ∈ around := by
  obtain ⟨inner, inner_spans, split⟩ := h s (fun o _ => .refl s o) all whole
  rw [inner_spans.unique spans] at split
  rcases List.mem_append.mp (split.mem_iff.mp member) with near | below
  · exact near
  · exact absurd below apart

/-- Where a container is in a hole, what its parts span has places of its own in the tree. -/
theorem Hole.split {around before middle after : List Object} (h : Hole root s around [o])
    (unshared : s.Unshared root) (content : s.parts o = before ++ middle ++ after) :
    ∃ all one full two, s.Spans [root.object] all ∧ s.Spans before one ∧ s.Spans middle full ∧
      s.Spans after two ∧ (∀ x ∈ one ++ full ++ two, x ∈ all ∧ x ≠ o) ∧ (one ++ full ++ two).Nodup := by
  obtain ⟨whole, whole_spans, nodup, place⟩ := h.below unshared
  obtain ⟨all, all_spans, _⟩ := unshared
  obtain ⟨inside, rfl, _, inside_spans⟩ := whole_spans.of_single
  rw [content] at inside_spans
  obtain ⟨left, two, rfl, left_spans, two_spans⟩ := inside_spans.of_append
  obtain ⟨one, full, rfl, one_spans, full_spans⟩ := left_spans.of_append
  obtain ⟨notInside, inside_nodup⟩ := List.nodup_cons.mp (List.nodup_append.mp nodup).2.1
  refine ⟨all, one, full, two, all_spans, one_spans, full_spans, two_spans, fun x member => ?_, inside_nodup⟩
  refine ⟨(place all all_spans).mem_iff.mpr ?_, fun eq => notInside (eq ▸ member)⟩
  exact List.mem_append_right _ (List.mem_cons_of_mem _ member)

theorem Hole.split_parts {around before middle after : List Object} (h : Hole root s around [o])
    (unshared : s.Unshared root) (content : s.parts o = before ++ middle ++ after) :
    ∃ all full two, s.Spans [root.object] all ∧ s.Spans middle full ∧ s.Spans after two ∧ full.Nodup ∧
      (∀ x ∈ full ++ two, x ∈ all ∧ x ≠ o) ∧ ∀ x ∈ two, x ∉ full := by
  obtain ⟨all, one, full, two, all_spans, _, full_spans, two_spans, place, nodup⟩ := h.split unshared content
  rw [List.append_assoc] at place nodup
  obtain ⟨full_nodup, _, apart⟩ := List.nodup_append.mp (List.nodup_append.mp nodup).2.1
  exact ⟨all, full, two, all_spans, full_spans, two_spans, full_nodup,
    fun x member => place x (List.mem_append_right _ member), fun x member shared => apart x shared x member rfl⟩

/-- Two objects have nothing below them in common, and neither is below the other. -/
def Apart (s : Store) (o o' : Object) : Prop :=
  ∀ below below', s.Spans [o] below → s.Spans [o'] below' → below.Disjoint below'

/-- Objects of a tree without sharing that are apart span a part of it, without sharing. -/
theorem Spans.pick (h : s.Spans objects all) (nodup : all.Nodup) {picked : List Object}
    (members : ∀ o ∈ picked, o ∈ all) (apart : picked.Pairwise s.Apart) :
    ∃ part, s.Spans picked part ∧ part.Subperm all := by
  suffices found : ∃ part, s.Spans picked part ∧ part ⊆ all ∧ part.Nodup by
    obtain ⟨part, spans, within, distinct⟩ := found
    exact ⟨part, spans, distinct.subperm within⟩
  induction picked with
  | nil => exact ⟨[], .nil, List.nil_subset _, List.nodup_nil⟩
  | cons o picked ih =>
    obtain ⟨fromOthers, apart⟩ := List.pairwise_cons.mp apart
    obtain ⟨below, spans, part⟩ := h.deep (members o List.mem_cons_self)
    obtain ⟨later, later_spans, within, later_nodup⟩ :=
      ih (fun o' member => members o' (List.mem_cons_of_mem _ member)) apart
    have disjoint : below.Disjoint later := by
      intro x inside shared
      obtain ⟨top, member, under, under_spans, found⟩ := later_spans.source shared
      exact fromOthers top member below under spans under_spans inside found
    exact ⟨below ++ later, spans.append later_spans, List.append_subset.mpr ⟨part.subset, within⟩,
      (part.nodup nodup).append later_nodup disjoint⟩

theorem Spans.apart (h : s.Spans objects all) (nodup : all.Nodup) : objects.Pairwise s.Apart := by
  induction objects generalizing all with
  | nil => exact .nil
  | cons o objects ih =>
    have split : s.Spans ([o] ++ objects) all := h
    obtain ⟨one, two, rfl, here, later⟩ := split.of_append
    obtain ⟨_, later_nodup, disjoint⟩ := List.nodup_append.mp nodup
    refine .cons (fun o' member below below' spans spans' x inside inside' => ?_) (ih later later_nodup)
    obtain rfl := here.unique spans
    obtain ⟨other, other_spans, within⟩ := later.of_mem member
    obtain rfl := other_spans.unique spans'
    exact disjoint x inside x (within inside') rfl

end DocTree.Store
