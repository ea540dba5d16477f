import DocTree.Proofs.Store.Exchange
import DocTree.Proofs.Store.Listed
import DocTree.Proofs.Store.Values
/-!
A store with all nodes of some kinds taken out of its containers. What is listed below a root then is what was
listed before, without the nodes of these kinds and all that was below them.
-/

namespace DocTree.Store

variable {s s' : Store} {root : Root} {kinds others : List Kind} {all : List Object} {o : Object}
  {n m p : NodeId} {k depth : Nat}

def spares (s : Store) (kinds : List Kind) (n : NodeId) : Bool := (s.element n).kind ∉ kinds

theorem spares_iff : s.spares kinds n = true ↔ (s.element n).kind ∉ kinds := decide_eq_true_iff

def without (s : Store) (kinds : List Kind) : Store where
  records := s.records
  fittings := s.fittings
  sequences := s.sequences.map (·.filter (s.spares kinds))
  mappings := s.mappings.map (·.filter fun entry => s.spares kinds entry.2)

@[simp] theorem element_without (s : Store) (kinds : List Kind) (n : NodeId) :
    (s.without kinds).element n = s.element n := rfl

@[simp] theorem sequence_without (s : Store) (kinds : List Kind) (q : SequenceId) :
    (s.without kinds).sequence q = (s.sequence q).filter (s.spares kinds) := by
  simp only [sequence, without, Array.getD_eq_getD_getElem?, Array.getElem?_map]
  cases s.sequences[q.index]? <;> rfl

@[simp] theorem mapping_without (s : Store) (kinds : List Kind) (id : MappingId) :
    (s.without kinds).mapping id = (s.mapping id).filter fun entry => s.spares kinds entry.2 := by
  simp only [mapping, without, Array.getD_eq_getD_getElem?, Array.getElem?_map]
  cases s.mappings[id.index]? <;> rfl

@[simp] theorem members_without (s : Store) (kinds : List Kind) (container : Slot SequenceId MappingId) :
    (s.without kinds).members container = (s.members container).filter (s.spares kinds) := by
  cases container with
  | sequence q => exact sequence_without s kinds q
  | mapping id => simp [members, List.filter_map, Function.comp_def]

@[simp] theorem children_without (s : Store) (kinds : List Kind) (n : NodeId) :
    (s.without kinds).children n = (s.children n).filter (s.spares kinds) := by
  rw [children, children, List.filter_flatMap]
  exact List.flatMap_congr fun container _ => members_without s kinds container

@[simp] theorem top_without (s : Store) (kinds : List Kind) (root : Root) :
    (s.without kinds).top root = (s.top root).filter (s.spares kinds) := by
  cases root with
  | node id => exact children_without s kinds id
  | list id => exact sequence_without s kinds id

theorem spares_elements (elements : SameElements s s') : s'.spares kinds = s.spares kinds := by
  funext n
  rw [spares, spares, elements.element]

theorem spares_append (s : Store) (kinds others : List Kind) :
    s.spares (kinds ++ others) = fun n => s.spares others n && s.spares kinds n := by
  funext n
  simp [spares, Bool.and_comm]

theorem without_without (s : Store) (kinds others : List Kind) :
    (s.without kinds).without others = s.without (kinds ++ others) := by
  have sequences : (fun ns : List NodeId => (ns.filter (s.spares kinds)).filter (s.spares others)) =
      fun ns => ns.filter (s.spares (kinds ++ others)) := by
    funext ns
    simp only [List.filter_filter, spares_append]
  have mappings : (fun m : Mapping NodeId => (m.filter fun entry => s.spares kinds entry.2).filter
      fun entry => s.spares others entry.2) = fun m => m.filter fun entry => s.spares (kinds ++ others) entry.2 := by
    funext m
    simp only [List.filter_filter, spares_append]
  have same : (s.without kinds).spares others = s.spares others := rfl
  rw [without, same]
  simp only [without, Array.map_map, Function.comp_def, sequences, mappings]

theorem without_congr (same : ∀ kind, kind ∈ kinds ↔ kind ∈ others) : s.without kinds = s.without others := by
  have spares : s.spares kinds = s.spares others := by
    funext n
    simp only [Store.spares, same]
  simp only [without, spares]

theorem Same.without (elements : SameElements s s') (h : Same s s' o) :
    Same (s.without kinds) (s'.without kinds) o := by
  have spares : s'.spares kinds = s.spares kinds := spares_elements elements
  cases o with
  | node n => exact .of_eq elements.records elements.fittings
  | fitting p => exact h
  | sequence q =>
    have h : s'.sequence q = s.sequence q := h
    change (s'.without kinds).sequence q = (s.without kinds).sequence q
    rw [sequence_without, sequence_without, spares, h]
  | mapping id =>
    have h : s'.mapping id = s.mapping id := h
    change (s'.without kinds).mapping id = (s.without kinds).mapping id
    rw [mapping_without, mapping_without, spares, h]

theorem same_without (spared : ∀ c, .node c ∈ s.parts o → s.spares kinds c = true) :
    Same (s.without kinds) s o := by
  cases o with
  | node n => exact .of_eq rfl rfl
  | fitting p => rfl
  | sequence q =>
    refine ((sequence_without s kinds q).trans (List.filter_eq_self.mpr fun c member => ?_)).symm
    exact spared c (List.mem_map_of_mem member)
  | mapping id =>
    refine ((mapping_without s kinds id).trans (List.filter_eq_self.mpr fun entry member => ?_)).symm
    exact spared entry.2 (List.mem_map.mpr ⟨entry, member, rfl⟩)

/-- A container in which a node of one of the kinds has given way to nothing, or another one to itself, is the
same without these kinds. -/
theorem Exchanged.without {container : Object} {ns : List NodeId} (h : Exchanged s s' n ns container)
    (elements : SameElements s s') (given : ns = if s.spares kinds n then [n] else []) :
    Same (s.without kinds) (s'.without kinds) container := by
  have spares : s'.spares kinds = s.spares kinds := spares_elements elements
  subst given
  cases h with
  | @member q before after content placed =>
    change (s'.without kinds).sequence q = (s.without kinds).sequence q
    rw [sequence_without, sequence_without, spares, content, placed]
    split <;> simp [*]
  | @entry id key before after content placed =>
    change (s'.without kinds).mapping id = (s.without kinds).mapping id
    rw [mapping_without, mapping_without, spares, content, placed]
    split <;> simp [*]

/-- A node below the root is of one of some kinds, or is below such a node. -/
def Doomed (s : Store) (kinds : List Kind) (root : Root) (n : NodeId) : Prop :=
  ∃ m, s.Holds root m ∧ (s.element m).kind ∈ kinds ∧ ∃ k, s.Way k m n

theorem Way.unsnoc (way : s.Way (k + 1) n m) : ∃ p, s.Way k n p ∧ m ∈ s.children p := by
  induction k generalizing n with
  | zero =>
    cases way with
    | down first later =>
      cases later
      exact ⟨n, .here n, first⟩
  | succ k ih =>
    cases way with
    | down first later =>
      obtain ⟨p, before, last⟩ := ih later
      exact ⟨p, .down first before, last⟩

theorem Spans.same_parent (h : s.Spans [root.object] all) (nodup : all.Nodup) (member : .node p ∈ all)
    (member' : .node n ∈ all) (child : m ∈ s.children p) (child' : m ∈ s.children n) : p = n := by
  obtain ⟨container, own, part⟩ := part_of_child child
  obtain ⟨container', own', part'⟩ := part_of_child child'
  obtain same := h.one_parent nodup (h.closed member own) (h.closed member' own') part part'
  rw [same] at own
  exact Object.node.inj (h.one_parent nodup member member' own own')

theorem Spans.top_apart (h : s.Spans [root.object] all) (nodup : all.Nodup) (atTop : m ∈ s.top root)
    (held : s.Holds root p) : m ∉ s.children p := by
  intro child
  have inTree := h.holds_mem held
  obtain ⟨id, rfl, child'⟩ | ⟨id, rfl, part⟩ := part_of_top atTop
  · have isRoot := h.same_parent nodup (h.mem (List.mem_singleton_self _)) inTree child' child
    subst isRoot
    obtain ⟨x, first, k, way⟩ := held
    exact (h.finite inTree).no_cycle (.down first way)
  · obtain ⟨container, own, part'⟩ := part_of_child child
    have root_mem : .sequence id ∈ all := h.mem (List.mem_singleton_self _)
    have same := h.one_parent nodup root_mem (h.closed inTree own) part part'
    rw [← same] at own
    exact h.no_parent nodup (List.mem_singleton_self _) inTree own

def Clear (s : Store) (kinds : List Kind) (root : Root) (n : NodeId) : Prop :=
  ∀ m k, s.Holds root m → (s.element m).kind ∈ kinds → s.Way k m n → m = n

open Classical in
theorem Listed.without {ns : List NodeId} {listed : List (NodeId × Nat)} (h : s.Listed depth ns listed)
    (spans : s.Spans [root.object] all) (nodup : all.Nodup) (held : ∀ n ∈ ns, s.Holds root n)
    (clear : ∀ n ∈ ns, s.Clear kinds root n) :
    (s.without kinds).Listed depth (ns.filter (s.spares kinds))
      (listed.filter fun (n, _) => ¬ s.Doomed kinds root n) := by
  induction h with
  | nil => exact .nil _
  | @cons depth n ns inside later below next ihBelow ihNext =>
    have others := ihNext (fun m member => held m (List.mem_cons_of_mem _ member))
      fun m member => clear m (List.mem_cons_of_mem _ member)
    have here := held n List.mem_cons_self
    by_cases spared : s.spares kinds n = true
    · have alive : ¬ s.Doomed kinds root n := by
        rintro ⟨m, above, isKind, k, way⟩
        obtain rfl := clear n List.mem_cons_self m k above isKind way
        exact spares_iff.mp spared isKind
      -- The last step of a way down to a child is from this node, the only one that has the child.
      have children : ∀ c ∈ s.children n, s.Clear kinds root c := by
        intro c child m k above isKind way
        cases k with
        | zero =>
          cases way
          rfl
        | succ k =>
          obtain ⟨p, before, last⟩ := way.unsnoc
          have inTree : .node p ∈ all := spans.along (spans.holds_mem above) before
          obtain rfl := spans.same_parent nodup inTree (spans.holds_mem here) last child
          obtain rfl := clear p List.mem_cons_self m k above isKind before
          exact absurd isKind (spares_iff.mp spared)
      have inner := ihBelow (fun c child => here.child child) children
      rw [← children_without] at inner
      rw [List.filter_cons_of_pos spared, List.filter_cons_of_pos (by simpa using alive), List.filter_append]
      exact .cons inner others
    · -- All that is below a node of one of the kinds is doomed.
      have isKind : (s.element n).kind ∈ kinds := by simpa [Store.spares] using spared
      have doomed : ∀ entry ∈ inside, s.Doomed kinds root entry.1 := by
        intro entry member
        obtain ⟨c, child, k, way⟩ := below.way member
        exact ⟨n, here, isKind, k + 1, .down child way⟩
      have none : inside.filter (fun (m, _) => ¬ s.Doomed kinds root m) = [] := by
        rw [List.filter_eq_nil_iff]
        intro entry member
        simpa using doomed entry member
      have own : s.Doomed kinds root n := ⟨n, here, isKind, 0, .here n⟩
      rw [List.filter_cons_of_neg spared, List.filter_cons_of_neg (by simpa using own), List.filter_append, none]
      exact others

open Classical in
theorem listed_without {listed : List (NodeId × Nat)} (h : s.Listed 1 (s.top root) listed)
    (spans : s.Spans [root.object] all) (nodup : all.Nodup) (kinds : List Kind) :
    (s.without kinds).Listed 1 ((s.without kinds).top root)
      (listed.filter fun (n, _) => ¬ s.Doomed kinds root n) := by
  rw [top_without]
  refine h.without spans nodup (fun n atTop => .of_top atTop) fun n atTop m k above isKind way => ?_
  cases k with
  | zero =>
    cases way
    rfl
  | succ k =>
    obtain ⟨p, before, last⟩ := way.unsnoc
    obtain ⟨x, first, j, way⟩ := above
    exact absurd last (spans.top_apart nodup atTop ⟨x, first, j + k, way.trans before⟩)

theorem Listed.agree {ns : List NodeId} {listed : List (NodeId × Nat)} (h : s.Listed depth ns listed)
    (same : ∀ entry ∈ listed, s'.children entry.1 = s.children entry.1) : s'.Listed depth ns listed := by
  induction h with
  | nil => exact .nil _
  | cons _ _ ihBelow ihNext =>
    have inner := ihBelow fun entry member => same entry (by simp [member])
    have outer := ihNext fun entry member => same entry (by simp [member])
    have here := same _ List.mem_cons_self
    exact .cons (here ▸ inner) outer

/-- The objects below a root are the same in two stores. -/
def SameTree (root : Root) (s s' : Store) : Prop :=
  ∃ all, s.Spans [root.object] all ∧ ∀ o ∈ all, Same s s' o

theorem Same.members {container : Slot SequenceId MappingId} (h : Same s s' (.ofSlot container)) :
    s'.members container = s.members container := by
  cases container with
  | sequence q => exact h
  | mapping id => exact congrArg (·.map (·.2)) (show s'.mapping id = s.mapping id from h)

/-- A node of a tree has the same children where the objects of the tree are the same. -/
theorem Spans.children_agree (h : s.Spans [root.object] all) (same : ∀ o ∈ all, Same s s' o)
    (member : .node n ∈ all) : s'.children n = s.children n := by
  have element : s'.element n = s.element n := (same _ member).element
  rw [children, element]
  refine List.flatMap_congr fun container own => ?_
  exact (same _ (h.closed member (List.mem_map_of_mem own))).members

theorem Spans.top_agree (h : s.Spans [root.object] all) (same : ∀ o ∈ all, Same s s' o) :
    s'.top root = s.top root := by
  have first := h.mem (List.mem_singleton_self _)
  cases root with
  | node id => exact h.children_agree same first
  | list id => exact same _ first

/-- A tree in which all nodes of some kinds are deleted. -/
structure Left (kinds : List Kind) (root : Root) (s s' : Store) : Prop where
  elements : SameElements s s'
  tree : ∃ all all', s.Spans [root.object] all ∧ all.Nodup ∧ s'.Spans [root.object] all' ∧ all'.Nodup ∧
    all' ⊆ all ∧ ∀ o ∈ all', Same (s.without kinds) s' o

namespace Left

variable {s₁ : Store}

theorem element (h : Left kinds root s s') (n : NodeId) : s'.element n = s.element n :=
  h.elements.element n

theorem of_same (elements : SameElements s s₁) (same : ∀ o, Same s s₁ o) (h : Left kinds root s₁ s') :
    Left kinds root s s' := by
  obtain ⟨all, all', spans, nodup, spans', nodup', within, left⟩ := h.tree
  refine ⟨elements.trans h.elements, all, all', spans.agree fun o _ => (same o).symm, nodup, spans', nodup',
    within, fun o member => ?_⟩
  exact ((same o).without elements).trans (left o member)

theorem unshared (h : Left kinds root s s') : s'.Unshared root := by
  obtain ⟨_, all', _, _, spans', nodup', _⟩ := h.tree
  exact ⟨all', spans', nodup'⟩

theorem typed (h : Left kinds root s s') (typed : s.Typed root) : s'.Typed root := by
  obtain ⟨all, all', spans, _, spans', _, within, _⟩ := h.tree
  exact typed.of_nodes spans spans' fun m member => ⟨within member, h.element m⟩

/-- Deleting some kinds and then others is deleting all of them. -/
theorem trans (h : Left kinds root s s₁) (h' : Left others root s₁ s') : Left (kinds ++ others) root s s' := by
  obtain ⟨all, all₁, spans, nodup, spans₁, _, within, same⟩ := h.tree
  obtain ⟨all₁', all', spans₁', _, spans', nodup', within', same'⟩ := h'.tree
  obtain rfl := spans₁.unique spans₁'
  refine ⟨h.elements.trans h'.elements, all, all', spans, nodup, spans', nodup',
    fun o member => within (within' member), ?_⟩
  intro o member
  rw [← without_without]
  have elements : SameElements (s.without kinds) s₁ := ⟨h.elements.records, h.elements.fittings⟩
  exact ((same o (within' member)).without elements).trans (same' o member)

/-- What is left is one tree only. -/
theorem unique (h : Left kinds root s s') (h' : Left others root s s₁)
    (sameKinds : ∀ kind, kind ∈ kinds ↔ kind ∈ others) : SameTree root s' s₁ := by
  obtain ⟨_, all', _, _, spans', _, _, same⟩ := h.tree
  obtain ⟨_, all₁, _, _, spans₁, _, _, same'⟩ := h'.tree
  rw [← without_congr sameKinds] at same'
  have back := spans'.agree fun o member => (same o member).symm
  have back' := spans₁.agree fun o member => (same' o member).symm
  obtain rfl := back.unique back'
  exact ⟨all', spans', fun o member => (same o member).symm.trans (same' o member)⟩

open Classical in
/-- What is listed of the tree that is left is what was listed, without the nodes of the kinds and all that
was below them. -/
theorem listed (h : Left kinds root s s') {listed : List (NodeId × Nat)} (before : s.Listed 1 (s.top root) listed) :
    s'.Listed 1 (s'.top root) (listed.filter fun (n, _) => ¬ s.Doomed kinds root n) := by
  obtain ⟨all, all', spans, nodup, spans', _, _, same⟩ := h.tree
  have back := spans'.agree fun o member => (same o member).symm
  have whole := listed_without before spans nodup kinds
  rw [back.top_agree same]
  refine whole.agree fun entry member => back.children_agree same ?_
  obtain ⟨n, atTop, k, way⟩ := whole.way member
  exact back.along (back.top_mem atTop) way

end Left

end DocTree.Store
