import DocTree.Proofs.Store.Fresh
import DocTree.Version.Range
/-!
Positions in a tree: the objects of a tree without sharing stand each in one place, and an edit of one of them
shows nowhere but there and above. A tree that is loaded is such a tree, and shares nothing with what has been
there before.
-/

namespace DocTree.Store

/-- The object at a position below another. The position says which of its parts to go to, and on from there. -/
def at? (s : Store) (o : Object) : List Nat → Option Object
  | [] => some o
  | i :: position => (s.parts o)[i]?.bind fun part => s.at? part position

variable {s s' s₁ : Store} {o x y : Object} {objects all : List Object} {p q : List Nat} {i : Nat} {n : NodeId}

theorem at?_cons : s.at? o (i :: p) = some x ↔ ∃ part, (s.parts o)[i]? = some part ∧ s.at? part p = some x :=
  Option.bind_eq_some_iff

theorem at?_append : s.at? o (p ++ q) = some x ↔ ∃ y, s.at? o p = some y ∧ s.at? y q = some x := by
  induction p generalizing o with
  | nil => simp [at?]
  | cons i p ih =>
    simp only [List.cons_append, at?_cons, ih]
    constructor
    · rintro ⟨part, isPart, y, here, there⟩
      exact ⟨y, ⟨part, isPart, here⟩, there⟩
    · rintro ⟨y, ⟨part, isPart, here⟩, there⟩
      exact ⟨part, isPart, y, here, there⟩

namespace Spans

theorem at?_mem (h : s.Spans objects all) (member : o ∈ all) (found : s.at? o p = some x) : x ∈ all := by
  induction p generalizing o with
  | nil =>
    cases found
    exact member
  | cons i p ih =>
    obtain ⟨part, isPart, found⟩ := at?_cons.mp found
    exact ih (h.closed member (List.mem_of_getElem? isPart)) found

theorem placed (h : s.Spans objects all) (member : x ∈ all) : ∃ o ∈ objects, ∃ p, s.at? o p = some x := by
  induction h with
  | nil => cases member
  | @cons o objects inside rest _ _ _ ihBelow ihLater =>
    rcases List.mem_cons.mp member with rfl | member
    · exact ⟨x, List.mem_cons_self, [], rfl⟩
    rcases List.mem_append.mp member with below | later
    · obtain ⟨part, isPart, p, found⟩ := ihBelow below
      obtain ⟨i, place⟩ := List.getElem?_of_mem isPart
      exact ⟨o, List.mem_cons_self, i :: p, at?_cons.mpr ⟨part, place, found⟩⟩
    · obtain ⟨o', member, found⟩ := ihLater later
      exact ⟨o', List.mem_cons_of_mem o member, found⟩

theorem same_part (h : s.Spans objects all) (nodup : all.Nodup) {j : Nat} {a b : Object}
    (first : objects[i]? = some a) (second : objects[j]? = some b) (found : s.at? a p = some x)
    (found' : s.at? b q = some x) : i = j := by
  obtain ⟨below, spans, -⟩ := h.of_mem (List.mem_of_getElem? first)
  obtain ⟨below', spans', -⟩ := h.of_mem (List.mem_of_getElem? second)
  have inside : x ∈ below := spans.at?_mem (spans.mem (List.mem_singleton_self _)) found
  have inside' : x ∈ below' := spans'.at?_mem (spans'.mem (List.mem_singleton_self _)) found'
  have apart := List.pairwise_iff_getElem.mp (h.apart nodup)
  obtain ⟨bound, rfl⟩ := List.getElem?_eq_some_iff.mp first
  obtain ⟨bound', rfl⟩ := List.getElem?_eq_some_iff.mp second
  rcases Nat.lt_trichotomy i j with less | same | more
  · exact absurd inside' (apart i j bound bound' less below below' spans spans' inside)
  · exact same
  · exact absurd inside (apart j i bound' bound more below' below spans' spans inside')

theorem at?_not_self (h : s.Spans [o] all) (nodup : all.Nodup) : s.at? o (i :: p) ≠ some o := by
  intro found
  obtain ⟨part, isPart, found⟩ := at?_cons.mp found
  obtain ⟨inside, rfl, -, below⟩ := h.of_single
  exact (List.nodup_cons.mp nodup).1 (below.at?_mem (below.mem (List.mem_of_getElem? isPart)) found)

/-- Without sharing, every object stands in one place. -/
theorem at?_unique (h : s.Spans [o] all) (nodup : all.Nodup) (found : s.at? o p = some x)
    (found' : s.at? o q = some x) : p = q := by
  induction p generalizing o all q with
  | nil =>
    cases found
    cases q with
    | nil => rfl
    | cons j q => exact absurd found' (h.at?_not_self nodup)
  | cons i p ih =>
    cases q with
    | nil =>
      cases found'
      exact absurd found (h.at?_not_self nodup)
    | cons j q =>
      obtain ⟨part, isPart, found⟩ := at?_cons.mp found
      obtain ⟨part', isPart', found'⟩ := at?_cons.mp found'
      obtain ⟨inside, rfl, -, below⟩ := h.of_single
      have distinct := (List.nodup_cons.mp nodup).2
      obtain rfl := below.same_part distinct isPart isPart' found found'
      obtain rfl : part = part' := Option.some.inj (isPart.symm.trans isPart')
      obtain ⟨one, spans, part⟩ := below.deep (below.mem (List.mem_of_getElem? isPart))
      rw [ih spans (part.nodup distinct) found found']

end Spans

/-- What is below an object is the same in both stores, and in the same places. -/
def SameBelow (s s' : Store) (o : Object) : Prop :=
  ∀ p x, s.at? o p = some x → s'.at? o p = some x ∧ Same s s' x

theorem at?_agree (found : s.at? o p = some x)
    (same : ∀ r y, s.at? o r = some y → r <+: p → r ≠ p → Same s s' y) : s'.at? o p = some x := by
  induction p generalizing o with
  | nil => exact found
  | cons i p ih =>
    obtain ⟨part, isPart, found⟩ := at?_cons.mp found
    have here : Same s s' o := same [] o rfl (List.nil_prefix) (List.cons_ne_nil i p).symm
    refine at?_cons.mpr ⟨part, here.parts.symm ▸ isPart, ih found fun r y there isPrefix other => ?_⟩
    refine same (i :: r) y (at?_cons.mpr ⟨part, isPart, there⟩) ?_ fun eq => other (List.cons.inj eq).2
    exact (List.prefix_cons_inj i).mpr isPrefix

theorem sameBelow_of_same (same : ∀ p x, s.at? o p = some x → Same s s' x) : SameBelow s s' o :=
  fun p x found => ⟨at?_agree found fun r y there _ _ => same r y there, same p x found⟩

/-- An edit of the object at a place shows neither on the way to another place nor below one that is not above
it. -/
theorem edit_elsewhere (h : s.Spans [o] all) (nodup : all.Nodup) (found : s.at? o p = some x)
    (same : ∀ y ∈ all, y ≠ x → Same s s' y) {y : Object} (there : s.at? o q = some y) :
    ((p <+: q → p = q) → s'.at? o q = some y) ∧ (¬ q <+: p → SameBelow s s' y) := by
  have inside (r : List Nat) (z : Object) (at_ : s.at? o r = some z) : z ∈ all :=
    h.at?_mem (h.mem (List.mem_singleton_self _)) at_
  constructor
  · intro aside
    refine at?_agree there fun r z at_ isPrefix other => same z (inside r z at_) ?_
    rintro rfl
    obtain rfl := h.at?_unique nodup at_ found
    exact other (aside isPrefix)
  · intro aside
    refine sameBelow_of_same fun r z at_ => ?_
    have whole : s.at? o (q ++ r) = some z := at?_append.mpr ⟨y, there, at_⟩
    refine same z (inside _ z whole) ?_
    rintro rfl
    exact aside (h.at?_unique nodup whole found ▸ List.prefix_append q r)

/-- What is read at a node depends on nothing but what is below it. -/
theorem SameBelow.node (below : SameBelow s s' (.node n)) (h : s.Spans objects all) (member : .node n ∈ all)
    (elemental : ∀ m, .node m ∈ all → s.Elemental m) : s'.node n = s.node n := by
  obtain ⟨inside, spans, part⟩ := h.deep member
  refine spans.node_agree (fun x inner => ?_) (fun m inner => elemental m (part.subset inner))
    (spans.mem (List.mem_singleton_self _))
  obtain ⟨_, isNode, p, found⟩ := spans.placed inner
  obtain rfl := List.mem_singleton.mp isNode
  exact (below p x found).2

def Holding (s : Store) (o : Object) : Prop := ∀ p x, s.at? o p = some x → s.Knows x

theorem Holding.sameBelow (holding : s.Holding o) (same : ∀ x, s.Knows x → Same s s' x) : SameBelow s s' o :=
  sameBelow_of_same fun p x found => same x (holding p x found)

/-- Nothing else is below it then in a later store. -/
theorem Holding.at?_earlier (holding : s.Holding o) (same : ∀ x, s.Knows x → Same s s' x)
    (found : s'.at? o p = some x) : s.at? o p = some x := by
  induction p generalizing o with
  | nil => exact found
  | cons i p ih =>
    obtain ⟨part, isPart, found⟩ := at?_cons.mp found
    rw [(same o (holding [] o rfl)).parts] at isPart
    have inPart : s.Holding part := fun r y there => holding (i :: r) y (at?_cons.mpr ⟨part, isPart, there⟩)
    exact at?_cons.mpr ⟨part, isPart, ih inPart found⟩

theorem Spans.no_fitting (h : s.Spans objects all) (none : ∀ o ∈ objects, ∀ p, o ≠ .fitting p) :
    ∀ o ∈ all, ∀ p, o ≠ .fitting p := by
  induction h with
  | nil => exact nofun
  | @cons o objects inside rest _ _ _ ihBelow ihLater =>
    obtain ⟨first, later⟩ := List.forall_mem_cons.mp none
    refine List.forall_mem_cons.mpr ⟨first, List.forall_mem_append.mpr ⟨ihBelow fun x part => ?_, ihLater later⟩⟩
    cases o with
    | fitting p => exact absurd rfl (first p)
    | node n =>
      obtain ⟨slot, -, rfl⟩ := List.mem_map.mp part
      cases slot <;> exact nofun
    | sequence id | mapping id =>
      obtain ⟨_, -, rfl⟩ := List.mem_map.mp part
      exact nofun

/-- An object belongs to another: it is the same, or it is a fitting of a node. -/
def Owns (s : Store) (x y : Object) : Prop :=
  y = x ∨ ∃ n p, x = .node n ∧ y = .fitting p ∧ s.HasFitting n p

/-- The store is edited at one object at most, a node with its fittings, and may have grown. -/
def EditedAt (s s' : Store) (x : Object) : Prop := ∀ y, s.Knows y → ¬ s.Owns x y → Same s s' y

theorem editedAt_setFitting {p : FittingId} (f : Fitting)
    (own : ∀ m, s.Knows (.node m) → s.HasFitting m p → m = n) (has : s.HasFitting n p) :
    EditedAt s (s.setFitting p f) (.node n) := by
  have others (q : FittingId) (other : q ≠ p) : (s.setFitting p f).fitting? q = s.fitting? q := by
    have different : p.index ≠ q.index := by
      intro same
      cases p
      cases q
      exact other (congrArg FittingId.mk same.symm)
    simp [fitting?, setFitting, different]
  intro y known aside
  cases y with
  | sequence | mapping => rfl
  | fitting q =>
    refine others q fun eq => aside (.inr ⟨n, q, rfl, rfl, ?_⟩)
    exact eq ▸ has
  | node m =>
    refine ⟨rfl, fun q inner => others q ?_⟩
    rintro rfl
    exact aside (.inl (congrArg Object.node (own m known inner)))

/-- A tree that is decoded is new in the store as a whole, and each of its nodes, sequences and mappings is in one
place. What has been there before is as it was and has no object in common with it. So an edit of one of the
objects shows at no other place, but for those above it, and not in any tree from before; and an edit of a tree
from before does not show in the new one. -/
theorem decoded_unshared [Versioning] [Stack] {options : Options} {j : Json} (keyed : j.Keyed) {s s' : Store}
    {root : Root} (loaded : Codec.load options j s = .ok (root, s')) :
    Codec.decode options j = .ok (s'.tree root) ∧
    (∀ p x, s'.at? root.object p = some x →
      (∀ q, s'.at? root.object q = some x → q = p) ∧ s'.Knows x ∧ ¬ s.Knows x ∧
      ∀ n, x = .node n → NewlyFitted s s' n ∧ ∀ q m f, s'.at? root.object q = some (.node m) →
        s'.HasFitting n f → s'.HasFitting m f → m = n) ∧
    (∀ old, s.Holding old → SameBelow s s' old ∧
      ∀ p q x, s'.at? old p = some x → s'.at? root.object q ≠ some x) ∧
    (∀ p x, s'.at? root.object p = some x → ∀ s₁, EditedAt s' s₁ x →
      (∀ q y, s'.at? root.object q = some y → ((p <+: q → p = q) → s₁.at? root.object q = some y) ∧
        (¬ q <+: p → SameBelow s' s₁ y ∧ ∀ n, y = .node n → s₁.node n = s'.node n)) ∧
      ∀ old, s.Holding old → SameBelow s s₁ old) ∧
    ∀ x, s.Knows x → ∀ s₁, EditedAt s' s₁ x → SameBelow s' s₁ root.object ∧ s₁.tree root = s'.tree root := by
  obtain ⟨t, decoded, loaded⟩ := Codec.load_ok loaded
  have proper := Codec.decode_proper decoded
  have isKeyed := Codec.decode_keyed keyed decoded
  obtain ⟨all, added⟩ := adds_loadTree proper isKeyed s
  have typed := (loadTree_proper proper s).typed
  obtain ⟨read, -⟩ := loadTree_read proper s (.refl _)
  rw [loaded] at added typed read
  obtain ⟨grown, spans, nodup, known, fresh, fitted, apart⟩ := added
  have elemental : ∀ m, .node m ∈ all → s'.Elemental m := fun _ => typed.elemental spans
  have noFitting : ∀ o ∈ all, ∀ p, o ≠ .fitting p := by
    refine spans.no_fitting fun o isRoot => ?_
    obtain rfl := List.mem_singleton.mp isRoot
    cases root <;> exact nofun
  have edits {x : Object} {s₁ : Store} (edited : EditedAt s' s₁ x) (y : Object) (member : y ∈ all) (other : y ≠ x) :
      Same s' s₁ y := by
    refine edited y (known y member) ?_
    rintro (eq | ⟨_, q, -, rfl, -⟩)
    · exact other eq
    · exact noFitting _ member q rfl
  have inside {p : List Nat} {x : Object} (found : s'.at? root.object p = some x) : x ∈ all :=
    spans.at?_mem (spans.mem (List.mem_singleton_self _)) found
  have before {old : Object} (holding : s.Holding old) : SameBelow s s' old :=
    holding.sameBelow fun x => grown.same
  refine ⟨read.symm ▸ decoded, fun p x found => ?_, fun old holding => ⟨before holding, fun p q x found found' => ?_⟩,
    fun p x found s₁ edited => ⟨fun q y there => ?_, fun old holding => ?_⟩, fun x isOld s₁ edited => ?_⟩
  · refine ⟨fun q found' => spans.at?_unique nodup found' found, known x (inside found), fresh x (inside found), ?_⟩
    rintro n rfl
    refine ⟨fitted n (inside found), fun q m f found' has has' => ?_⟩
    exact apart m n f (inside found') (inside found) has' has
  · exact fresh x (inside found') (holding p x (holding.at?_earlier (fun y => grown.same) found))
  · have elsewhere := edit_elsewhere spans nodup found (edits edited) there
    refine ⟨elsewhere.1, fun aside => ⟨elsewhere.2 aside, ?_⟩⟩
    rintro n rfl
    exact (elsewhere.2 aside).node spans (inside there) elemental
  · refine holding.sameBelow fun y isOld => ?_
    refine (grown.same isOld).trans (edited y (grown.knows isOld) ?_)
    rintro (rfl | ⟨n, f, rfl, rfl, has⟩)
    · exact fresh y (inside found) isOld
    · exact (fitted n (inside found)).unknown has isOld
  · have same : ∀ y ∈ all, Same s' s₁ y := fun y member =>
      edits edited y member fun eq => fresh y member (eq ▸ isOld)
    refine ⟨sameBelow_of_same fun p y found => same y (inside found), ?_⟩
    exact spans.tree_agree same typed

/-! Equal lists that are decoded, one alone and then two more. -/

def equalLists (count : Nat) : Json :=
  .arr (List.replicate count (.obj [("t", .str "BulletList"), ("c", .arr [.arr []])]))

theorem keyed_equalLists (count : Nat) : (equalLists count).Keyed := by
  refine Json.keyed_arr.mpr fun j member => ?_
  obtain rfl := List.eq_of_mem_replicate member
  refine Json.keyed_obj.mpr ⟨by decide, ?_⟩
  simp [Json.keyed_scalar]

def oneList : Store := ⟨#[.items .bulletList ⟨0⟩], #[.sequences [⟨0⟩]], #[[], [⟨0⟩]], #[]⟩

def threeLists : Store :=
  ⟨#[.items .bulletList ⟨0⟩, .items .bulletList ⟨1⟩, .items .bulletList ⟨2⟩],
    #[.sequences [⟨0⟩], .sequences [⟨2⟩], .sequences [⟨3⟩]], #[[], [⟨0⟩], [], [], [⟨1⟩, ⟨2⟩]], #[]⟩

theorem hasFitting_threeLists {p : FittingId} (known : threeLists.Knows (.node n))
    (has : threeLists.HasFitting n p) : p.index = n.index := by
  have bound : n.index < 3 := known.1
  have own : ∀ i < 3, (threeLists.record ⟨i⟩).fittings = [⟨i⟩] := by decide
  have flat : ∀ i < 3, (threeLists.fitting? ⟨i⟩).map Fitting.inner = some [] := by decide
  induction has with
  | own member =>
    rw [own n.index bound] at member
    exact congrArg FittingId.index (List.mem_singleton.mp member)
  | inner _ here member ih =>
    have none := flat _ (ih.trans_lt bound)
    rw [here] at none
    rw [Option.some.inj none] at member
    cases member

section

attribute [local instance] Versioning.ofClauses Stack.unbounded

/-- When the second of three equal lists loses its items, the others stay: the third from the same tree, and the
first from an earlier one. -/
theorem equal_lists_apart :
    Codec.load .default (equalLists 1) .empty = .ok (.list ⟨1⟩, oneList) ∧
    Codec.load .default (equalLists 2) oneList = .ok (.list ⟨4⟩, threeLists) ∧
    threeLists.at? (.sequence ⟨4⟩) [0] = some (.node ⟨1⟩) ∧
    (threeLists.setFitting ⟨1⟩ (.sequences [])).node ⟨1⟩ = .mk (.items .bulletList []) ∧
    (threeLists.setFitting ⟨1⟩ (.sequences [])).node ⟨2⟩ = threeLists.node ⟨2⟩ ∧
    SameBelow oneList (threeLists.setFitting ⟨1⟩ (.sequences [])) (.sequence ⟨1⟩) := by
  have one : Codec.load .default (equalLists 1) .empty = .ok (.list ⟨1⟩, oneList) := rfl
  have two : Codec.load .default (equalLists 2) oneList = .ok (.list ⟨4⟩, threeLists) := rfl
  have edited : EditedAt threeLists (threeLists.setFitting ⟨1⟩ (.sequences [])) (.node ⟨1⟩) := by
    refine editedAt_setFitting _ (fun m known has => ?_) (.own List.mem_cons_self)
    exact congrArg NodeId.mk (hasFitting_threeLists known has).symm
  obtain ⟨-, known, -⟩ := decoded_unshared (keyed_equalLists 1) one
  obtain ⟨-, -, -, edits, -⟩ := decoded_unshared (keyed_equalLists 2) two
  obtain ⟨beside, earlier⟩ := edits [0] (.node ⟨1⟩) rfl _ edited
  obtain ⟨-, node⟩ := (beside [1] (.node ⟨2⟩) rfl).2 (by decide)
  refine ⟨one, two, rfl, rfl, node ⟨2⟩ rfl, earlier (.sequence ⟨1⟩) fun p x found => ?_⟩
  exact (known p x found).2.1

end

end DocTree.Store
