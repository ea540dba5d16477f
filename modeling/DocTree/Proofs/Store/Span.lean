import DocTree.Proofs.Store.Fittings
import Mathlib.Data.List.Perm.Basic
/-!
The objects of a tree: its nodes and the containers in them, in document order, each as often as it is
reached. A tree without sharing has each object once. What stays when a part of it is edited is said by
`Hole`: the objects around a part, whatever that part becomes. The fittings of a node go with the node, and
are objects of their own only where they are looked at alone.
-/

namespace DocTree

namespace Store

inductive Object
  | node (id : NodeId)
  | sequence (id : SequenceId)
  | mapping (id : MappingId)
  | fitting (id : FittingId)
  deriving DecidableEq, Repr

def Object.ofSlot : Slot SequenceId MappingId → Object
  | .sequence id => sequence id
  | .mapping id => mapping id

def parts (s : Store) : Object → List Object
  | .node n => (s.element n).slots.map .ofSlot
  | .sequence id => (s.sequence id).map .node
  | .mapping id => (s.mapping id).map fun (_, n) => .node n
  | .fitting p => ((s.fitting? p).elim [] (·.inner)).map .fitting

def Sound (s : Store) : Object → Prop
  | .mapping id => (s.mapping id).keys.Nodup
  | .fitting p => (s.fitting? p).isSome
  | _ => True

/-- The objects below some others, and these themselves. No way down goes on for ever. -/
inductive Spans (s : Store) : List Object → List Object → Prop
  | nil : Spans s [] []
  | cons {o : Object} {objects inside rest : List Object} (sound : s.Sound o)
      (below : Spans s (s.parts o) inside) (later : Spans s objects rest) :
      Spans s (o :: objects) (o :: (inside ++ rest))

/-- An object has the same contents in both stores. -/
def Same (s s' : Store) : Object → Prop
  | .node n => SameNode s s' n
  | .sequence id => s'.sequence id = s.sequence id
  | .mapping id => s'.mapping id = s.mapping id
  | .fitting p => s'.fitting? p = s.fitting? p

end Store

def Root.object : Root → Store.Object
  | node id => .node id
  | list id => .sequence id

namespace Store

/-- A finite tree in which no object is reached in two ways. -/
def Unshared (s : Store) (root : Root) : Prop := ∃ all, s.Spans [root.object] all ∧ all.Nodup

variable {s s' s₁ s₂ : Store} {root : Root} {o : Object} {objects inside outside : List Object}

namespace Same

theorem refl (s : Store) (o : Object) : Same s s o := by
  cases o with
  | node n => exact SameNode.refl s n
  | sequence | mapping | fitting => rfl

theorem trans (h : Same s s₁ o) (h' : Same s₁ s₂ o) : Same s s₂ o := by
  cases o with
  | node n => exact SameNode.trans h h'
  | sequence | mapping | fitting => exact Eq.trans h' h

theorem element {n : NodeId} (h : Same s s' (.node n)) : s'.element n = s.element n := SameNode.element h

theorem parts (h : Same s s' o) : s'.parts o = s.parts o := by
  cases o with
  | node n => simp only [Store.parts, h.element]
  | sequence id =>
    have h : s'.sequence id = s.sequence id := h
    simp only [Store.parts, h]
  | mapping id =>
    have h : s'.mapping id = s.mapping id := h
    simp only [Store.parts, h]
  | fitting p =>
    have h : s'.fitting? p = s.fitting? p := h
    simp only [Store.parts, h]

theorem sound (h : Same s s' o) (sound : s.Sound o) : s'.Sound o := by
  cases o with
  | node n => trivial
  | sequence id => trivial
  | mapping id =>
    have h : s'.mapping id = s.mapping id := h
    simpa only [Sound, h] using sound
  | fitting p =>
    have h : s'.fitting? p = s.fitting? p := h
    simpa only [Sound, h] using sound

end Same

theorem setIfInBounds_getD {α : Type} (xs : Array α) (i : Nat) (a : α) :
    xs.setIfInBounds i (xs.getD i a) = xs := by
  by_cases inside : i < xs.size
  · simp [Array.setIfInBounds, Array.getD, inside]
  · simp [Array.setIfInBounds, inside]

section

variable {id : SequenceId} {ns : List NodeId}

theorem sequence_setSequence (known : s.sequence id ≠ []) : (s.setSequence id ns).sequence id = ns := by
  have inside : id.index < s.sequences.size := by
    by_contra outside
    exact known (by simp [sequence, Array.getD, outside])
  simp [sequence, setSequence, inside]

theorem setSequence_sequence (s : Store) (id : SequenceId) : s.setSequence id (s.sequence id) = s :=
  congrArg (fun sequences => { s with sequences }) (setIfInBounds_getD s.sequences id.index [])

theorem same_setSequence (other : o ≠ .sequence id) : Same s (s.setSequence id ns) o := by
  cases o with
  | node n => exact .of_eq rfl rfl
  | mapping | fitting => rfl
  | sequence id' =>
    have different : id.index ≠ id'.index := by
      intro same
      apply other
      cases id
      cases id'
      exact congrArg (fun i => Object.sequence ⟨i⟩) same.symm
    simp [Same, sequence, setSequence, different]

end

section

variable {id : MappingId} {m : Mapping NodeId}

theorem mapping_setMapping (known : s.mapping id ≠ []) : (s.setMapping id m).mapping id = m := by
  have inside : id.index < s.mappings.size := by
    by_contra outside
    exact known (by simp [mapping, Array.getD, outside])
  simp [mapping, setMapping, inside]

theorem setMapping_mapping (s : Store) (id : MappingId) : s.setMapping id (s.mapping id) = s :=
  congrArg (fun mappings => { s with mappings }) (setIfInBounds_getD s.mappings id.index [])

theorem same_setMapping (other : o ≠ .mapping id) : Same s (s.setMapping id m) o := by
  cases o with
  | node n => exact .of_eq rfl rfl
  | sequence | fitting => rfl
  | mapping id' =>
    have different : id.index ≠ id'.index := by
      intro same
      apply other
      cases id
      cases id'
      exact congrArg (fun i => Object.mapping ⟨i⟩) same.symm
    simp [Same, mapping, setMapping, different]

end

namespace Spans

theorem agree (h : s.Spans objects inside) (same : ∀ o ∈ inside, Same s s' o) :
    s'.Spans objects inside := by
  induction h with
  | nil => exact .nil
  | @cons o objects inside rest sound _ _ ihBelow ihLater =>
    have here := same o List.mem_cons_self
    have below := ihBelow fun o' member => same o' (by simp [member])
    have later := ihLater fun o' member => same o' (by simp [member])
    exact .cons (here.sound sound) (here.parts ▸ below) later

theorem unique (h : s.Spans objects inside) (h' : s.Spans objects outside) : inside = outside := by
  induction h generalizing outside with
  | nil =>
    cases h'
    rfl
  | cons _ _ _ ihBelow ihLater =>
    cases h' with
    | cons _ below later => rw [ihBelow below, ihLater later]

theorem of_append {first second all : List Object} (h : s.Spans (first ++ second) all) :
    ∃ one two, all = one ++ two ∧ s.Spans first one ∧ s.Spans second two := by
  induction first generalizing all with
  | nil => exact ⟨[], all, rfl, .nil, h⟩
  | cons o first ih =>
    cases h with
    | @cons _ _ inside rest sound below later =>
      obtain ⟨one, two, rfl, h₁, h₂⟩ := ih later
      exact ⟨o :: (inside ++ one), two, by simp, .cons sound below h₁, h₂⟩

theorem of_single {all : List Object} (h : s.Spans [o] all) :
    ∃ inside, all = o :: inside ∧ s.Sound o ∧ s.Spans (s.parts o) inside := by
  cases h with
  | cons sound below later =>
    cases later
    exact ⟨_, by rw [List.append_nil], sound, below⟩

theorem single (sound : s.Sound o) (below : s.Spans (s.parts o) inside) : s.Spans [o] (o :: inside) := by
  have spans : s.Spans [o] (o :: (inside ++ [])) := .cons sound below .nil
  rwa [List.append_nil] at spans

theorem of_mem (h : s.Spans objects inside) (member : o ∈ objects) :
    ∃ below, s.Spans [o] below ∧ below ⊆ inside := by
  obtain ⟨before, after, rfl⟩ := List.append_of_mem member
  obtain ⟨one, later, rfl, _, h⟩ := h.of_append
  obtain ⟨two, three, rfl, h, _⟩ := (show s.Spans ([o] ++ after) later from h).of_append
  exact ⟨two, h, by simp⟩

end Spans

instance (s : Store) (o : Object) : Decidable (s.Sound o) :=
  match o with
  | .node _ => .isTrue trivial
  | .sequence _ => .isTrue trivial
  | .mapping id => inferInstanceAs (Decidable (s.mapping id).keys.Nodup)
  | .fitting p => inferInstanceAs (Decidable ((s.fitting? p).isSome = true))

/-- The objects below some others, if these are sound and the fuel suffices. -/
def spanned? (s : Store) : Nat → List Object → Option (List Object)
  | _, [] => some []
  | 0, _ :: _ => none
  | fuel + 1, o :: objects =>
    if s.Sound o then do
      let inside ← spanned? s fuel (s.parts o)
      let rest ← spanned? s fuel objects
      return o :: (inside ++ rest)
    else none

theorem spans_of_spanned? {fuel : Nat} {all : List Object} (found : s.spanned? fuel objects = some all) :
    s.Spans objects all := by
  induction fuel generalizing objects all with
  | zero =>
    cases objects with
    | nil =>
      cases found
      exact .nil
    | cons o objects => cases found
  | succ fuel ih =>
    cases objects with
    | nil =>
      cases found
      exact .nil
    | cons o objects =>
      rw [spanned?] at found
      split at found
      · next sound =>
        simp only [Option.bind_eq_bind, Option.bind_eq_some_iff] at found
        obtain ⟨inside, below, rest, later, eq⟩ := found
        cases eq
        exact .cons sound (ih below) (ih later)
      · cases found

/-- The objects around a part of a tree. In every store where they are the same, the tree is made of
them and of what lies below the objects in the hole. -/
def Hole (root : Root) (s : Store) (around objects : List Object) : Prop :=
  ∀ s', (∀ o ∈ around, Same s s' o) → ∀ all, s'.Spans [root.object] all →
    ∃ inside, s'.Spans objects inside ∧ all.Perm (around ++ inside)

namespace Hole

variable {around : List Object}

theorem whole (root : Root) (s : Store) : Hole root s [] [root.object] :=
  fun _ _ all spans => ⟨all, spans, .refl all⟩

theorem agree (h : Hole root s around objects) (same : ∀ o ∈ around, Same s s' o) :
    Hole root s' around objects :=
  fun s₁ same' => h s₁ fun o member => (same o member).trans (same' o member)

theorem enter (h : Hole root s around [o]) : Hole root s (o :: around) (s.parts o) := by
  intro s' same all spans
  obtain ⟨inside, below, split⟩ := h s' (fun o' member => same o' (List.mem_cons_of_mem _ member)) all spans
  obtain ⟨inside, rfl, _, below⟩ := below.of_single
  rw [(same o List.mem_cons_self).parts] at below
  exact ⟨inside, below, split.trans List.perm_middle⟩

theorem pick {before objects after one two : List Object}
    (h : Hole root s around (before ++ objects ++ after)) (first : s.Spans before one)
    (last : s.Spans after two) : Hole root s (around ++ one ++ two) objects := by
  intro s' same all spans
  obtain ⟨inside, below, split⟩ := h s' (fun o member => same o (by simp [member])) all spans
  obtain ⟨left, two', rfl, left_spans, last'⟩ := below.of_append
  obtain ⟨one', middle, rfl, first', middle_spans⟩ := left_spans.of_append
  have one_eq := (first.agree fun o member => same o (by simp [member])).unique first'
  have two_eq := (last.agree fun o member => same o (by simp [member])).unique last'
  subst one_eq two_eq
  refine ⟨middle, middle_spans, split.trans ?_⟩
  have swap : ((one ++ middle) ++ two).Perm ((one ++ two) ++ middle) := by
    rw [List.append_assoc, List.append_assoc]
    exact List.perm_append_comm.append_left one
  have whole := swap.append_left around
  simpa only [List.append_assoc] using whole

theorem below (h : Hole root s around objects) (unshared : s.Unshared root) :
    ∃ inside, s.Spans objects inside ∧ (around ++ inside).Nodup ∧
      ∀ all, s.Spans [root.object] all → all.Perm (around ++ inside) := by
  obtain ⟨all, spans, nodup⟩ := unshared
  obtain ⟨inside, inner, split⟩ := h s (fun o _ => .refl s o) all spans
  refine ⟨inside, inner, split.nodup_iff.mp nodup, fun all' spans' => ?_⟩
  rw [spans'.unique spans]
  exact split

theorem separate (h : Hole root s around objects) (unshared : s.Unshared root) (member : o ∈ objects) :
    o ∉ around := by
  obtain ⟨inside, spans, nodup, _⟩ := h.below unshared
  obtain ⟨below, here, contained⟩ := spans.of_mem member
  obtain ⟨inner, rfl, _, _⟩ := here.of_single
  intro shared
  exact (List.nodup_append.mp nodup).2.2 o shared o (contained List.mem_cons_self) rfl

theorem sound (h : Hole root s around [o]) (unshared : s.Unshared root) : s.Sound o := by
  obtain ⟨_, spans, _⟩ := h.below unshared
  obtain ⟨_, _, sound, _⟩ := spans.of_single
  exact sound

theorem narrow {before objects after : List Object}
    (h : Hole root s around (before ++ objects ++ after)) (unshared : s.Unshared root) :
    ∃ wider, around ⊆ wider ∧ Hole root s wider objects := by
  obtain ⟨inside, below, _⟩ := h.below unshared
  obtain ⟨left, two, rfl, left_spans, last⟩ := below.of_append
  obtain ⟨one, middle, rfl, first, _⟩ := left_spans.of_append
  exact ⟨around ++ one ++ two, by simp, h.pick first last⟩

theorem first (h : Hole root s around (o :: objects)) (unshared : s.Unshared root) :
    ∃ wider, around ⊆ wider ∧ Hole root s wider [o] := by
  have split : Hole root s around ([] ++ [o] ++ objects) := h
  exact split.narrow unshared

theorem others (h : Hole root s around (o :: objects)) (unshared : s.Unshared root) :
    ∃ wider, around ⊆ wider ∧ Hole root s wider objects := by
  have split : Hole root s around ([o] ++ objects ++ []) := by rwa [List.append_nil]
  exact split.narrow unshared

end Hole

end Store

end DocTree
