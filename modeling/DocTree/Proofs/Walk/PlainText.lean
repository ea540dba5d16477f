import DocTree.Walk.Basic
import DocTree.Proofs.Store.Exchange
import DocTree.Proofs.Walk.Preorder
/-!
The nodes of a tree in document order, once as they stand among its objects and once as a walk lists them.
So the plain text of a tree is that of its objects, and depends on nothing else.
-/

namespace DocTree

namespace Store

variable {s s' : Store} {root : Root} {objects all first second : List Object} {o : Object} {n : NodeId}

def textOf (s : Store) (objects : List Object) : Text :=
  (Object.nodes objects).flatMap fun n => (s.element n).ownText

@[simp] theorem textOf_append (s : Store) (first second : List Object) :
    s.textOf (first ++ second) = s.textOf first ++ s.textOf second := by
  simp [textOf]

theorem textOf_elements (same : ∀ n, .node n ∈ objects → s'.element n = s.element n) :
    s'.textOf objects = s.textOf objects :=
  List.flatMap_congr fun n member => by rw [same n (Object.mem_nodes.mp member)]

theorem textOf_agree (same : ∀ o ∈ objects, Same s s' o) : s'.textOf objects = s.textOf objects :=
  textOf_elements fun n member => (same (.node n) member).element

theorem front_parts (s : Store) (n : NodeId) : (s.parts (.node n)).flatMap s.front = s.children n := by
  rw [parts, List.flatMap_map, children]
  exact List.flatMap_congr fun container _ => front_ofSlot container

/-- The nodes that are spanned are listed in the same order from the fronts on. -/
theorem Spans.listed (h : s.Spans objects all) (depth : Nat) :
    ∃ listed, s.Listed depth (objects.flatMap s.front) listed ∧ listed.map (·.1) = Object.nodes all := by
  induction h generalizing depth with
  | nil => exact ⟨[], .nil depth, rfl⟩
  | @cons o objects inside rest _ _ _ ihBelow ihLater =>
    obtain ⟨later, outer, outer_nodes⟩ := ihLater depth
    rw [List.flatMap_cons]
    cases o with
    | node n =>
      obtain ⟨listed, inner, inner_nodes⟩ := ihBelow (depth + 1)
      rw [front_parts] at inner
      refine ⟨_, .cons inner outer, ?_⟩
      simp [inner_nodes, outer_nodes]
    | fitting p =>
      obtain ⟨listed, inner, inner_nodes⟩ := ihBelow depth
      have members : (s.parts (.fitting p)).flatMap s.front = [] := by simp [parts, front]
      rw [members] at inner
      cases inner
      refine ⟨_, outer, ?_⟩
      simp [outer_nodes, ← inner_nodes]
    | sequence id =>
      obtain ⟨listed, inner, inner_nodes⟩ := ihBelow depth
      have members : (s.parts (.sequence id)).flatMap s.front = s.sequence id := by
        simp [parts, front, List.flatMap_map]
      rw [members] at inner
      refine ⟨_, inner.append outer, ?_⟩
      simp [inner_nodes, outer_nodes]
    | mapping id =>
      obtain ⟨listed, inner, inner_nodes⟩ := ihBelow depth
      have values : (s.parts (.mapping id)).flatMap s.front = (s.mapping id).map (·.2) := by
        rw [parts, List.flatMap_map, List.map_eq_flatMap]
        rfl
      rw [values] at inner
      refine ⟨_, inner.append outer, ?_⟩
      simp [inner_nodes, outer_nodes]

theorem Spans.keyed (h : s.Spans [root.object] all) : s.KeyedIn root := by
  have each : ∀ n, .node n ∈ all → s.KeyedAt n := fun n member id own =>
    h.soundOf (h.closed member (List.mem_map_of_mem (f := Object.ofSlot) own))
  refine ⟨fun id isRoot => each id ?_, fun m held => each m (h.holds_mem held)⟩
  subst isRoot
  exact h.mem (List.mem_singleton_self _)

end Store

namespace Walk

open Store (Object)

variable {s : Store} {root : Root} {all : List Object}

/-- With enough fuel, the nodes below the root of a tree without a cycle and without a key that is there
twice are listed in pre-order. -/
theorem listing_eq (spans : s.Spans [root.object] all) : ∃ listed, s.Listed 1 (s.top root) listed ∧
    ∃ bound, ∀ fuel, bound ≤ fuel → listing fuel s root = listed := by
  obtain ⟨listed, isListed⟩ := spans.acyclic.listed 1
  obtain ⟨bound, walks⟩ := lists_within spans.acyclic spans.keyed isListed
  exact ⟨listed, isListed, bound, fun fuel enough => (walks fuel enough).2⟩

/-- With enough fuel, the plain text of a tree is that of its objects. -/
theorem plainText_eq (spans : s.Spans [root.object] all) :
    ∃ bound, ∀ fuel, bound ≤ fuel → plainText fuel s root = s.textOf all := by
  obtain ⟨listed, isListed, bound, walks⟩ := listing_eq spans
  refine ⟨bound, fun fuel enough => ?_⟩
  rw [plainText, walks fuel enough]
  change rootText s root ++ listed.flatMap (fun entry => (s.element entry.1).ownText) = _
  rw [← List.flatMap_map Prod.fst fun n => (s.element n).ownText]
  obtain ⟨inside, rfl, _, below⟩ := spans.of_single
  obtain ⟨inner, inner_listed, nodes⟩ := below.listed 1
  cases root with
  | node id =>
    have front : (s.parts (Root.node id).object).flatMap s.front = s.top (.node id) := s.front_parts id
    obtain rfl := (front ▸ inner_listed).unique isListed
    rw [nodes]
    rfl
  | list id =>
    have front : (s.parts (Root.list id).object).flatMap s.front = s.top (.list id) := by
      simp [Root.object, Store.parts, Store.front, Store.top, List.flatMap_map]
    obtain rfl := (front ▸ inner_listed).unique isListed
    rw [nodes]
    rfl

end Walk

end DocTree
