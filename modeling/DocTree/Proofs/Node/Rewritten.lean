import DocTree.Proofs.Codec.Encodable
/-!
What a rewriting makes of trees, said of the trees alone: every member of a container gives way to some
nodes, and inside each of these the members of its containers do so in turn. The nodes that have come in
are not replaced themselves.
-/

namespace DocTree

/-- A part of a tree as it was and as it has become: some nodes that stay where they are, the members of a
sequence, or the values of a mapping. -/
inductive Node.Place
  | below (before after : List Node)
  | members (before after : List Node)
  | entries (before after : Mapping Node)

/-- A part of a tree has been rewritten, where `answers` says which nodes may take the place of a member. -/
inductive Node.Rewritten (answers : Node → List Node → Prop) : Node.Place → Prop
  | below_nil : Rewritten answers (.below [] [])
  | below_cons {e : Element (List Node × List Node) (Mapping Node × Mapping Node)} {ns ms : List Node}
      (named : e.kind ≠ .list)
      (sequences : ∀ part, .sequence part ∈ e.slots → Rewritten answers (.members part.1 part.2))
      (mappings : ∀ part, .mapping part ∈ e.slots → Rewritten answers (.entries part.1 part.2))
      (later : Rewritten answers (.below ns ms)) :
      Rewritten answers (.below (.mk (e.map Prod.fst Prod.fst) :: ns) (.mk (e.map Prod.snd Prod.snd) :: ms))
  | members_nil : Rewritten answers (.members [] [])
  | members_cons {n : Node} {todo given ns done : List Node} (answer : answers n given)
      (inside : Rewritten answers (.below given ns)) (later : Rewritten answers (.members todo done)) :
      Rewritten answers (.members (n :: todo) (ns ++ done))
  | entries_nil : Rewritten answers (.entries [] [])
  | entries_cons {key : Text} {n : Node} {given ns : List Node} {todo done : Mapping Node}
      (answer : answers n given) (room : given.length ≤ 1) (inside : Rewritten answers (.below given ns))
      (later : Rewritten answers (.entries todo done)) :
      Rewritten answers (.entries ((key, n) :: todo) (ns.map (key, ·) ++ done))

def Tree.Rewritten (answers : Node → List Node → Prop) : Tree → Tree → Prop
  | .node n, .node m => Node.Rewritten answers (.below [n] [m])
  | .list ns, .list ms => Node.Rewritten answers (.members ns ms)
  | _, _ => False

namespace Node

variable {answers : Node → List Node → Prop}

theorem Rewritten.below_map {S M : Type} {e : Element S M} {f f' : S → List Node} {g g' : M → Mapping Node}
    {ns ms : List Node} (named : e.kind ≠ .list)
    (sequences : ∀ s, .sequence s ∈ e.slots → Rewritten answers (.members (f s) (f' s)))
    (mappings : ∀ m, .mapping m ∈ e.slots → Rewritten answers (.entries (g m) (g' m)))
    (later : Rewritten answers (.below ns ms)) :
    Rewritten answers (.below (.mk (e.map f g) :: ns) (.mk (e.map f' g') :: ms)) := by
  have named' : (e.map (fun s => (f s, f' s)) fun m => (g m, g' m)).kind ≠ .list := by rwa [Element.kind_map]
  have whole := @below_cons answers _ ns ms named' ?_ ?_ later
  · simpa only [Element.map_map, Function.comp_def] using whole
  · intro part own
    rw [Element.slots_map] at own
    obtain ⟨slot, inSlots, eq⟩ := List.mem_map.mp own
    cases slot with
    | sequence s =>
      cases eq
      exact sequences s inSlots
    | mapping m => cases eq
  · intro part own
    rw [Element.slots_map] at own
    obtain ⟨slot, inSlots, eq⟩ := List.mem_map.mp own
    cases slot with
    | sequence s => cases eq
    | mapping m =>
      cases eq
      exact mappings m inSlots

/-- What holds of all nodes that take a place, and of a node whatever its containers have become, holds of
all that is in the new parts. -/
def Place.After (good : Node → Prop) : Place → Prop
  | below before after => (∀ n ∈ before, good n) → ∀ n ∈ after, ∀ x : Node, x.Occurs n → good x
  | members _ after => ∀ n ∈ after, ∀ x : Node, x.Occurs n → good x
  | entries _ after => ∀ entry ∈ after, ∀ x : Node, x.Occurs entry.2 → good x

theorem Place.After.children {good : Node → Prop}
    {e : Element (List Node × List Node) (Mapping Node × Mapping Node)}
    (sequences : ∀ part, .sequence part ∈ e.slots → (Place.members part.1 part.2).After good)
    (mappings : ∀ part, .mapping part ∈ e.slots → (Place.entries part.1 part.2).After good) {n x : Node}
    (child : n ∈ (e.map Prod.snd Prod.snd).children) (occurs : x.Occurs n) : good x := by
  obtain ⟨_, isSlot, member⟩ := List.mem_flatMap.mp child
  rw [Element.slots_map] at isSlot
  obtain ⟨slot, own, rfl⟩ := List.mem_map.mp isSlot
  cases slot with
  | sequence part => exact sequences part own n member x occurs
  | mapping part =>
    obtain ⟨entry, inEntries, rfl⟩ := List.mem_map.mp member
    exact mappings part own entry inEntries x occurs

theorem Rewritten.after {good : Node → Prop} {place : Place} (h : Rewritten answers place)
    (given : ∀ n ns, answers n ns → ∀ m ∈ ns, good m)
    (kept : ∀ e : Element (List Node × List Node) (Mapping Node × Mapping Node),
      good (.mk (e.map Prod.fst Prod.fst)) → good (.mk (e.map Prod.snd Prod.snd))) : place.After good := by
  induction h with
  | below_nil => exact fun _ _ member => absurd member List.not_mem_nil
  | @below_cons e ns ms _ _ _ _ ihSequences ihMappings ihLater =>
    intro before n member x occurs
    rcases List.mem_cons.mp member with rfl | member
    · cases occurs with
      | here => exact kept e (before _ List.mem_cons_self)
      | deeper child inside => exact Place.After.children ihSequences ihMappings child inside
    · exact ihLater (fun n member => before n (List.mem_cons_of_mem _ member)) n member x occurs
  | members_nil => exact fun _ member => absurd member List.not_mem_nil
  | members_cons answer _ _ ihInside ihLater =>
    intro m member
    rcases List.mem_append.mp member with new | later
    · exact ihInside (given _ _ answer) m new
    · exact ihLater m later
  | entries_nil => exact fun _ member => absurd member List.not_mem_nil
  | entries_cons answer _ _ _ ihInside ihLater =>
    intro entry member
    rcases List.mem_append.mp member with new | later
    · obtain ⟨m, inside, rfl⟩ := List.mem_map.mp new
      exact ihInside (given _ _ answer) m inside
    · exact ihLater entry later

def expand (placed : Node → List Node) (e : Element (List Node) (Mapping Node)) :
    Element (List Node) (Mapping Node) :=
  e.map (·.flatMap placed) (·.flatMap fun (key, n) => (placed n).map (key, ·))

def expanded (placed : Node → List Node) : Node → Node
  | mk e => mk (expand placed e)

@[simp] theorem children_expand (placed : Node → List Node) (e : Element (List Node) (Mapping Node)) :
    (expand placed e).children = e.children.flatMap placed := by
  rw [Element.children, expand, Element.slots_map, List.flatMap_map, Element.children, List.flatMap_assoc]
  congr 1
  funext slot
  cases slot <;> simp [Slot.map, members, List.map_flatMap, List.flatMap_map, Function.comp_def]

@[simp] theorem kind_expand (placed : Node → List Node) (e : Element (List Node) (Mapping Node)) :
    (expand placed e).kind = e.kind :=
  Element.kind_map _ _ e

def Place.Expands (placed : Node → List Node) : Place → Prop
  | below before after => after = before.map (expanded placed)
  | members before after => after = before.flatMap placed
  | entries before after => after = before.flatMap fun (key, n) => (placed n).map (key, ·)

/-- Where the nodes that take a place are known with what becomes of them, the whole rewriting is. -/
theorem Rewritten.expands {placed : Node → List Node} {place : Place} (h : Rewritten answers place)
    (known : ∀ n ns, answers n ns → ns.map (expanded placed) = placed n) : place.Expands placed := by
  induction h with
  | below_nil => rfl
  | @below_cons e ns ms named _ _ _ ihSequences ihMappings ihLater =>
    have here : e.map Prod.snd Prod.snd = expand placed (e.map Prod.fst Prod.fst) := by
      rw [expand, Element.map_map]
      exact Element.map_congr named ihSequences ihMappings
    change _ :: ms = expanded placed _ :: ns.map (expanded placed)
    rw [expanded, here, show ms = ns.map (expanded placed) from ihLater]
  | members_nil => rfl
  | @members_cons n todo given ns done answer _ _ ihInside ihLater =>
    obtain rfl : ns = given.map (expanded placed) := ihInside
    obtain rfl : done = todo.flatMap placed := ihLater
    rw [known _ _ answer]
    rfl
  | entries_nil => rfl
  | @entries_cons key n given ns todo done answer _ _ _ ihInside ihLater =>
    obtain rfl : ns = given.map (expanded placed) := ihInside
    obtain rfl : done = todo.flatMap fun (key, n) => (placed n).map (key, ·) := ihLater
    rw [known _ _ answer]
    rfl

end Node

def Tree.expanded (placed : Node → List Node) : Tree → Tree
  | .node n => .node (n.expanded placed)
  | .list ns => .list (ns.flatMap placed)

@[simp] theorem Tree.top_expanded (placed : Node → List Node) (t : Tree) :
    (t.expanded placed).top = t.top.flatMap placed := by
  cases t with
  | node n =>
    obtain ⟨e⟩ := n
    exact Node.children_expand placed e
  | list ns => rfl

theorem Tree.Rewritten.expands {answers : Node → List Node → Prop} {placed : Node → List Node} {t t' : Tree}
    (h : t.Rewritten answers t') (known : ∀ n ns, answers n ns → ns.map (Node.expanded placed) = placed n) :
    t' = t.expanded placed := by
  cases t with
  | node top =>
    cases t' with
    | list ns => exact h.elim
    | node top' =>
      have same : [top'] = [top.expanded placed] := Node.Rewritten.expands h known
      exact congrArg Tree.node (List.cons.inj same).1
  | list ns =>
    cases t' with
    | node top' => exact h.elim
    | list ms => exact congrArg Tree.list (Node.Rewritten.expands h known)

/-- What holds of all nodes that take a place, and of a node whatever its containers have become, holds of
all that is found below the root of the new tree. -/
theorem Tree.Rewritten.holds {answers : Node → List Node → Prop} {good : Node → Prop} {t t' : Tree}
    (h : t.Rewritten answers t') (given : ∀ n ns, answers n ns → ∀ m ∈ ns, good m)
    (kept : ∀ e : Element (List Node × List Node) (Mapping Node × Mapping Node),
      good (.mk (e.map Prod.fst Prod.fst)) → good (.mk (e.map Prod.snd Prod.snd))) {x : Node}
    (held : t'.Holds x) : good x := by
  obtain ⟨n, atTop, occurs⟩ := held
  cases t with
  | node top =>
    cases t' with
    | list ns => exact h.elim
    | node top' =>
      cases (show Node.Rewritten answers (.below [top] [top']) from h) with
      | below_cons _ sequences mappings _ =>
        exact Node.Place.After.children (fun part own => (sequences part own).after given kept)
          (fun part own => (mappings part own).after given kept) atTop occurs
  | list ns =>
    cases t' with
    | node top' => exact h.elim
    | list ms => exact Node.Rewritten.after h given kept n atTop x occurs

end DocTree
