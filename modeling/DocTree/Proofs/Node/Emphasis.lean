import DocTree.Proofs.Node.Rewritten
/-!
A tree in which the members of an emphasis take its place. They are not looked at once more, so an emphasis
stays that was itself a member of one; what is inside of it is gone through like everything else.
-/

namespace DocTree

def Element.emphasised? {S M : Type} : Element S M → Option S
  | wrap .emph content => some content
  | _ => none

namespace Element

variable {S S' M M' : Type}

theorem emphasised?_eq_some {e : Element S M} {content : S} :
    e.emphasised? = some content ↔ e = .wrap .emph content := by
  constructor
  · intro h
    unfold emphasised? at h
    split at h
    · cases h
      rfl
    · cases h
  · rintro rfl
    rfl

theorem emphasised?_eq_none {e : Element S M} : e.emphasised? = none ↔ e.kind ≠ .emph := by
  cases e with
  | wrap kind | text kind | mark kind | items kind | box kind | verbatim kind | raw kind | target kind =>
    cases kind <;> simp [emphasised?, kind, TextKind.kind, MarkKind.kind, WrapKind.kind, ItemsKind.kind,
      BoxKind.kind, VerbatimKind.kind, RawKind.kind, TargetKind.kind]
  | _ => simp [emphasised?, kind]

@[simp] theorem emphasised?_map (f : S → S') (g : M → M') (e : Element S M) :
    (e.map f g).emphasised? = e.emphasised?.map f := by
  cases e with
  | wrap kind content => cases kind <;> rfl
  | _ => rfl

end Element

namespace Node

def uncovered (n : Node) : List Node := n.element.emphasised?.getD [n]

/-- An element as it becomes where it stays, and what takes its place where it is offered, both from what
its children become. -/
def uncoveredShape (e : Element (List (Node × List Node)) (Mapping (Node × List Node))) : Node × List Node :=
  let stays := mk (e.map (·.flatMap (·.2)) (·.flatMap fun (key, n) => n.2.map (key, ·)))
  (stays, match e.emphasised? with
    | some content => content.map (·.1)
    | none => [stays])

/-- What a node that is offered becomes when all emphasis is dropped. -/
def unemphasized (n : Node) : List Node := (n.fold uncoveredShape).2

theorem stays_eq (n : Node) : (n.fold uncoveredShape).1 = n.expanded unemphasized := by
  obtain ⟨e⟩ := n
  rw [fold_mapChildren, uncoveredShape, Element.mapChildren, Element.map_map]
  simp only [Function.comp_def, List.flatMap_map]
  rfl

theorem unemphasized_eq (n : Node) : n.unemphasized = n.uncovered.map (expanded unemphasized) := by
  obtain ⟨e⟩ := n
  have answer : (mk e).unemphasized = match (e.mapChildren (fold uncoveredShape)).emphasised? with
      | some content => content.map (·.1)
      | none => [((mk e).fold uncoveredShape).1] := by
    rw [unemphasized, fold_mapChildren]
    rfl
  rw [answer, uncovered, element, Element.mapChildren, Element.emphasised?_map, stays_eq]
  cases e.emphasised? with
  | none => rfl
  | some content => simp [stays_eq]

theorem exists_occurs {P : Node → Prop} {e : Element (List Node) (Mapping Node)} :
    (∃ x : Node, x.Occurs (mk e) ∧ P x) ↔ P (mk e) ∨ ∃ n ∈ e.children, ∃ x : Node, x.Occurs n ∧ P x := by
  constructor
  · rintro ⟨x, found, good⟩
    rcases occurs_mk.mp found with rfl | ⟨n, child, inside⟩
    · exact .inl good
    · exact .inr ⟨n, child, x, inside, good⟩
  · rintro (good | ⟨n, child, x, inside, good⟩)
    · exact ⟨_, .here, good⟩
    · exact ⟨x, .deeper child inside, good⟩

theorem occurs_child {n m x : Node} (child : m ∈ n.element.children) (inside : x.Occurs m) : x.Occurs n := by
  obtain ⟨e⟩ := n
  exact .deeper child inside

/-- An emphasis that has another one among its members. -/
def DoubleEmphasis (n : Node) : Prop :=
  n.element.kind = .emph ∧ ∃ m ∈ n.element.children, m.element.kind = .emph

/-- Where a node is offered, an emphasis is left if and only if there was a double one; where it stays, also
if it is an emphasis itself. -/
theorem emphasis_left (n : Node) :
    ((∃ m ∈ n.unemphasized, ∃ x : Node, x.Occurs m ∧ x.element.kind = .emph) ↔
      ∃ x : Node, x.Occurs n ∧ x.DoubleEmphasis) ∧
    ((∃ x : Node, x.Occurs (n.expanded unemphasized) ∧ x.element.kind = .emph) ↔
      n.element.kind = .emph ∨ ∃ m ∈ n.element.children, ∃ x : Node, x.Occurs m ∧ x.DoubleEmphasis) := by
  -- Both at once: the members of what stays are offered, and the members of an emphasis that is offered stay.
  induction n using Node.induction with
  | step e ih =>
    have stays : (∃ x : Node, x.Occurs ((mk e).expanded unemphasized) ∧ x.element.kind = .emph) ↔
        e.kind = .emph ∨ ∃ m ∈ e.children, ∃ x : Node, x.Occurs m ∧ x.DoubleEmphasis := by
      rw [expanded, exists_occurs, children_expand, element, kind_expand]
      refine or_congr_right ⟨?_, ?_⟩
      · rintro ⟨m, child, found⟩
        obtain ⟨n, before, placed⟩ := List.mem_flatMap.mp child
        exact ⟨n, before, (ih n before).1.mp ⟨m, placed, found⟩⟩
      · rintro ⟨n, child, found⟩
        obtain ⟨m, placed, left⟩ := (ih n child).1.mpr found
        exact ⟨m, List.mem_flatMap.mpr ⟨n, child, placed⟩, left⟩
    refine ⟨?_, stays⟩
    rw [exists_occurs, unemphasized_eq, uncovered, element]
    cases content : e.emphasised? with
    | none =>
      have other := Element.emphasised?_eq_none.mp content
      simpa [DoubleEmphasis, element, other] using stays
    | some ns =>
      obtain rfl := Element.emphasised?_eq_some.mp content
      have children : (Element.wrap .emph ns : Element (List Node) (Mapping Node)).children = ns :=
        List.append_nil ns
      rw [children] at ih ⊢
      have doubled : (mk (.wrap .emph ns)).DoubleEmphasis ↔ ∃ m ∈ ns, m.element.kind = .emph := by
        simp [DoubleEmphasis, element, children, Element.kind, WrapKind.kind]
      rw [doubled]
      constructor
      · rintro ⟨_, placed, found⟩
        obtain ⟨m, member, rfl⟩ := List.mem_map.mp placed
        rcases (ih m member).2.mp found with isEmph | ⟨x, child, y, inside, double⟩
        · exact .inl ⟨m, member, isEmph⟩
        · exact .inr ⟨m, member, y, occurs_child child inside, double⟩
      · rintro (⟨m, member, isEmph⟩ | ⟨m, member, x, found, double⟩)
        · exact ⟨_, List.mem_map_of_mem member, (ih m member).2.mpr (.inl isEmph)⟩
        · refine ⟨_, List.mem_map_of_mem member, (ih m member).2.mpr ?_⟩
          obtain ⟨e⟩ := m
          rcases occurs_mk.mp found with rfl | ⟨n, child, inside⟩
          · exact .inl double.1
          · exact .inr ⟨n, child, x, inside, double⟩

end Node

/-- When all emphasis is dropped from a tree, one is left if and only if there was a double one. -/
theorem Tree.emphasis_left (t : Tree) :
    (∃ x, (t.expanded Node.unemphasized).Holds x ∧ x.element.kind = .emph) ↔
      ∃ x, t.Holds x ∧ x.DoubleEmphasis := by
  constructor
  · rintro ⟨x, ⟨m, atTop, found⟩, isEmph⟩
    rw [top_expanded] at atTop
    obtain ⟨n, before, placed⟩ := List.mem_flatMap.mp atTop
    obtain ⟨y, inside, double⟩ := n.emphasis_left.1.mp ⟨m, placed, x, found, isEmph⟩
    exact ⟨y, ⟨n, before, inside⟩, double⟩
  · rintro ⟨y, ⟨n, before, inside⟩, double⟩
    obtain ⟨m, placed, x, found, isEmph⟩ := n.emphasis_left.1.mpr ⟨y, inside, double⟩
    refine ⟨x, ⟨m, ?_, found⟩, isEmph⟩
    rw [top_expanded]
    exact List.mem_flatMap.mpr ⟨n, before, placed⟩

end DocTree
