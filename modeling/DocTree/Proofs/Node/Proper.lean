import DocTree.Node.Basic
import DocTree.Proofs.Element.Containers
/-!
The children of an element in a tree, and the trees that can stand for a document: there is no document
below the root, and no list in the place of an element.
-/

namespace DocTree

namespace Element

variable {α β γ : Type}

def children (e : Element (List β) (Mapping β)) : List β := e.slots.flatMap Node.members

def mapChildren (f : β → γ) (e : Element (List β) (Mapping β)) : Element (List γ) (Mapping γ) :=
  e.map (·.map f) (·.map fun (key, b) => (key, f b))

@[simp] theorem kind_mapChildren (f : β → γ) (e : Element (List β) (Mapping β)) :
    (e.mapChildren f).kind = e.kind := kind_map _ _ e

@[simp] theorem mapChildren_mapChildren (f : α → β) (g : β → γ) (e : Element (List α) (Mapping α)) :
    (e.mapChildren f).mapChildren g = e.mapChildren (g ∘ f) := by
  simp [mapChildren, Function.comp_def]

@[simp] theorem children_mapChildren (f : β → γ) (e : Element (List β) (Mapping β)) :
    (e.mapChildren f).children = e.children.map f := by
  rw [children, mapChildren, slots_map, List.flatMap_map, children, List.map_flatMap]
  congr 1
  funext slot
  cases slot <;> simp [Slot.map, Node.members]

theorem eq_document {S M : Type} {e : Element S M} (h : e.kind = .document) :
    ∃ version metadata blocks, e = .document version metadata blocks := by
  cases e with
  | document version metadata blocks => exact ⟨version, metadata, blocks, rfl⟩
  | text kind | mark kind | wrap kind | items kind | box kind | verbatim kind | raw kind
  | target kind => cases kind <;> exact absurd h nofun
  | _ => exact absurd h nofun

theorem sequence_children {e : Element (List β) (Mapping β)} {ns : List β}
    (slot : .sequence ns ∈ e.slots) {b : β} (member : b ∈ ns) : b ∈ e.children :=
  List.mem_flatMap.mpr ⟨_, slot, member⟩

theorem mapping_children {e : Element (List β) (Mapping β)} {m : Mapping β}
    (slot : .mapping m ∈ e.slots) {entry : Text × β} (member : entry ∈ m) : entry.2 ∈ e.children :=
  List.mem_flatMap.mpr ⟨_, slot, List.mem_map_of_mem member⟩

end Element

def Account.ok (ε : Type) : Account (Except ε) Unit where
  Yields x Q := ∃ a, x = .ok a ∧ Q () a
  pure h := ⟨_, rfl, h ()⟩
  bind := by
    rintro α β x f Q Q' ⟨a, rfl, h⟩ later
    obtain ⟨b, eq, h'⟩ := later a
    exact ⟨b, eq, h' h⟩

section

variable {β : Type} {P : β → Prop} [DecidablePred P]

def attachedList (P : β → Prop) [DecidablePred P] (ns : List β) : Except Unit (List { b // P b }) :=
  if good : ∀ b ∈ ns, P b then .ok (ns.attachWith P good) else .error ()

def attachedMapping (P : β → Prop) [DecidablePred P] (m : Mapping β) :
    Except Unit (Mapping { b // P b }) :=
  if good : ∀ entry ∈ m, P entry.2 then
    .ok (m.attach.map fun entry => (entry.1.1, ⟨entry.1.2, good entry.1 entry.2⟩))
  else .error ()

theorem attachedList_yields {ns : List β} (good : ∀ b ∈ ns, P b) :
    (Account.ok Unit).Yields (attachedList P ns) fun _ attached => attached.map (·.1) = ns :=
  ⟨_, dif_pos good, List.attachWith_map_subtype_val good⟩

theorem attachedMapping_yields {m : Mapping β} (good : ∀ entry ∈ m, P entry.2) :
    (Account.ok Unit).Yields (attachedMapping P m) fun _ attached =>
      (attached.map fun (key, b) => (key, b.1)) = m := by
  refine ⟨_, dif_pos good, ?_⟩
  simp only [List.map_map]
  exact List.attach_map_subtype_val m

end

theorem Element.exists_attached {β : Type} {P : β → Prop} {e : Element (List β) (Mapping β)}
    (named : e.kind ≠ .list) (h : ∀ b ∈ e.children, P b) :
    ∃ attached : Element (List { b // P b }) (Mapping { b // P b }),
      attached.mapChildren (·.1) = e := by
  classical
  have sequences : ∀ ns, .sequence ns ∈ e.slots → (Account.ok Unit).Yields (attachedList P (id ns))
      fun _ attached => attached.map (·.1) = id ns :=
    fun ns slot => attachedList_yields fun b member => h b (sequence_children slot member)
  have mappings : ∀ m, .mapping m ∈ e.slots → (Account.ok Unit).Yields (attachedMapping P (id m))
      fun _ attached => (attached.map fun (key, b) => (key, b.1)) = id m :=
    fun m slot => attachedMapping_yields fun entry member => h entry.2 (mapping_children slot member)
  obtain ⟨attached, _, eq⟩ := Element.yields .written named sequences mappings
  rw [map_id] at eq
  exact ⟨attached, eq⟩

theorem Node.fold_mapChildren {β : Type} (f : Element (List β) (Mapping β) → β)
    (e : Element (List Node) (Mapping Node)) : fold f (mk e) = f (e.mapChildren (fold f)) :=
  fold_mk f e

section

def Node.height (n : Node) : Nat := n.fold fun e => e.children.foldr max 0 + 1

theorem Node.height_lt {e : Element (List Node) (Mapping Node)} {n : Node} (child : n ∈ e.children) :
    n.height < (mk e).height := by
  have bounded : n.height ≤ (e.children.map height).foldr max 0 := by
    generalize e.children = ns at child
    induction ns with
    | nil => exact absurd child List.not_mem_nil
    | cons first rest ih =>
      rw [List.map_cons, List.foldr_cons]
      rcases List.mem_cons.mp child with rfl | child
      · exact Nat.le_max_left _ _
      · exact Nat.le_trans (ih child) (Nat.le_max_right _ _)
  have own : (mk e).height = (e.children.map height).foldr max 0 + 1 := by
    rw [height, fold_mapChildren, Element.children_mapChildren]
    rfl
  omega

/-- What holds of every element if it holds of its children holds of every tree. -/
theorem Node.induction {P : Node → Prop}
    (step : ∀ e : Element (List Node) (Mapping Node), (∀ n ∈ e.children, P n) → P (mk e)) (n : Node) :
    P n := by
  induction size : n.height using Nat.strongRecOn generalizing n with
  | ind k ih =>
    obtain ⟨e⟩ := n
    exact step e fun m child => ih m.height (size ▸ height_lt child) m rfl

end

/-- An element that has no document and no list in it. -/
inductive Node.Proper : Node → Prop
  | mk {e : Element (List Node) (Mapping Node)} (inner : e.kind ≠ .document) (named : e.kind ≠ .list)
    (below : ∀ n ∈ e.children, Proper n) : Proper (.mk e)

def Node.isProperShape (e : Element (List Bool) (Mapping Bool)) : Bool :=
  decide (e.kind ≠ .document) && decide (e.kind ≠ .list) && e.children.all id

theorem Node.proper_iff (n : Node) : n.Proper ↔ n.fold isProperShape = true := by
  induction n using Node.induction with
  | step e ih =>
    rw [fold_mapChildren]
    simp only [isProperShape, Element.kind_mapChildren, Element.children_mapChildren,
      Bool.and_eq_true, decide_eq_true_eq, List.all_map, List.all_eq_true]
    constructor
    · rintro ⟨inner, named, below⟩
      exact ⟨⟨inner, named⟩, fun n child => (ih n child).mp (below n child)⟩
    · rintro ⟨⟨inner, named⟩, below⟩
      exact .mk inner named fun n child => (ih n child).mpr (below n child)

instance (n : Node) : Decidable n.Proper := decidable_of_iff _ n.proper_iff.symm

/-- A tree that has no list in it, and no document below the root. -/
def Tree.Proper : Tree → Prop
  | .node (.mk e) => e.kind ≠ .list ∧ ∀ n ∈ e.children, n.Proper
  | .list ns => ∀ n ∈ ns, n.Proper

instance : (t : Tree) → Decidable t.Proper
  | .node (.mk e) => inferInstanceAs (Decidable (e.kind ≠ .list ∧ ∀ n ∈ e.children, n.Proper))
  | .list ns => inferInstanceAs (Decidable (∀ n ∈ ns, n.Proper))

end DocTree
