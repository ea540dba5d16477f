import DocTree.Proofs.Codec.Keyed
import DocTree.Proofs.Element.Visits
import DocTree.Proofs.Store.Values
/-!
What a computation adds to a store is new there: all that is reached from what it gives has numbers that
were not in use, and nothing of it is reached in two ways. So is a tree that is loaded.
-/

namespace DocTree.Store

/-- The store has the object, and a node with all of its fittings. -/
def Knows (s : Store) : Object → Prop
  | .node n => n.index < s.records.size ∧ ∀ p, s.HasFitting n p → p.index < s.fittings.size
  | .sequence q => q.index < s.sequences.size
  | .mapping id => id.index < s.mappings.size
  | .fitting p => p.index < s.fittings.size

variable {s s' s₁ : Store} {o : Object} {n m : NodeId} {p : FittingId}

theorem Extends.fitting (h : s.Extends s') (known : s.Knows (.fitting p)) : s'.fitting? p = s.fitting? p := by
  have read : s.fittings[p.index]? = some _ := Array.getElem?_eq_getElem known
  rw [fitting?, fitting?, h.fittings p.index _ read, read]

theorem Extends.node (h : s.Extends s') (known : s.Knows (.node n)) : SameNode s s' n := by
  refine ⟨?_, fun p member => h.fitting (known.2 p member)⟩
  have read : s.records[n.index]? = some _ := Array.getElem?_eq_getElem known.1
  have kept := h.records n.index _ read
  simp only [record, Array.getD_eq_getD_getElem?, kept, read]

theorem Extends.same (h : s.Extends s') (known : s.Knows o) : Same s s' o := by
  cases o with
  | node n => exact h.node known
  | fitting p => exact h.fitting known
  | sequence q =>
    have read : s.sequences[q.index]? = some _ := Array.getElem?_eq_getElem known
    have kept := h.sequences q.index _ read
    simp only [Same, sequence, Array.getD_eq_getD_getElem?, kept, read]
  | mapping id =>
    have read : s.mappings[id.index]? = some _ := Array.getElem?_eq_getElem known
    have kept := h.mappings id.index _ read
    simp only [Same, mapping, Array.getD_eq_getD_getElem?, kept, read]

theorem Extends.knows (h : s.Extends s') (known : s.Knows o) : s'.Knows o := by
  cases o with
  | node n =>
    refine ⟨Nat.lt_of_lt_of_le known.1 (size_le_of_kept h.records), fun p member => ?_⟩
    exact Nat.lt_of_lt_of_le (known.2 p ((h.node known).has_iff.mp member)) (size_le_of_kept h.fittings)
  | sequence q => exact Nat.lt_of_lt_of_le known (size_le_of_kept h.sequences)
  | mapping id => exact Nat.lt_of_lt_of_le known (size_le_of_kept h.mappings)
  | fitting p => exact Nat.lt_of_lt_of_le known (size_le_of_kept h.fittings)

theorem SameElements.knows (h : SameElements s s') (known : s.Knows (.node n)) : s'.Knows (.node n) := by
  refine ⟨by rw [h.records]; exact known.1, fun p member => ?_⟩
  rw [h.fittings]
  exact known.2 p ((h.node n).has_iff.mp member)

theorem Knows.setSequence {id : SequenceId} {ns : List NodeId} (known : s.Knows o) :
    (s.setSequence id ns).Knows o := by
  cases o with
  | sequence q => simpa [Knows, Store.setSequence] using known
  | node n => exact SameElements.knows (s := s) ⟨rfl, rfl⟩ known
  | mapping | fitting => exact known

theorem Knows.setMapping {id : MappingId} {m : Mapping NodeId} (known : s.Knows o) :
    (s.setMapping id m).Knows o := by
  cases o with
  | mapping m => simpa [Knows, Store.setMapping] using known
  | node n => exact SameElements.knows (s := s) ⟨rfl, rfl⟩ known
  | sequence | fitting => exact known

section

variable {objects all : List Object}

theorem Spans.fittings (h : s.Spans objects all) (own : ∀ o ∈ objects, ∃ p, o = .fitting p ∧ s.HasFitting n p) :
    ∀ o ∈ all, ∃ p, o = .fitting p ∧ s.HasFitting n p := by
  induction h with
  | nil => exact nofun
  | @cons o objects inside rest _ _ _ ihBelow ihLater =>
    obtain ⟨first, later⟩ := List.forall_mem_cons.mp own
    refine List.forall_mem_cons.mpr ⟨first, List.forall_mem_append.mpr ⟨ihBelow fun x part => ?_, ihLater later⟩⟩
    obtain ⟨p, rfl, has⟩ := first
    obtain ⟨q, inner, rfl⟩ := List.mem_map.mp part
    cases here : s.fitting? p with
    | none =>
      rw [here] at inner
      cases inner
    | some f =>
      rw [here] at inner
      exact ⟨q, rfl, .inner has here inner⟩

/-- The fittings of a node in order, each as often as it is come upon. -/
def Fitted (s : Store) (n : NodeId) (all : List Object) : Prop :=
  s.Spans ((s.record n).fittings.map .fitting) all

theorem Fitted.has_iff (h : s.Fitted n all) : s.HasFitting n p ↔ .fitting p ∈ all := by
  constructor
  · intro has
    induction has with
    | own member => exact h.mem (List.mem_map_of_mem member)
    | @inner p q f _ here member ih =>
      refine h.closed ih ?_
      rw [parts, here]
      exact List.mem_map_of_mem member
  · intro member
    have own : ∀ o ∈ (s.record n).fittings.map Object.fitting, ∃ p, o = .fitting p ∧ s.HasFitting n p := by
      intro o isFitting
      obtain ⟨q, own, rfl⟩ := List.mem_map.mp isFitting
      exact ⟨q, rfl, .own own⟩
    obtain ⟨q, eq, has⟩ := h.fittings own _ member
    exact Object.fitting.inj eq ▸ has

theorem Fitted.same (h : s.Fitted n all) (same : SameNode s s' n) : s'.Fitted n all := by
  rw [Fitted, same.record]
  refine h.agree fun o member => ?_
  have own : ∀ o ∈ (s.record n).fittings.map Object.fitting, ∃ p, o = .fitting p ∧ s.HasFitting n p := by
    intro o isFitting
    obtain ⟨q, own, rfl⟩ := List.mem_map.mp isFitting
    exact ⟨q, rfl, .own own⟩
  obtain ⟨q, rfl, has⟩ := h.fittings own _ member
  exact same.fittings q has

end

/-- The fittings of a node are new since an earlier store, and no two of them are one. -/
def NewlyFitted (s s' : Store) (n : NodeId) : Prop :=
  ∃ all, s'.Fitted n all ∧ all.Nodup ∧ ∀ o ∈ all, ¬ s.Knows o

theorem NewlyFitted.unknown (h : NewlyFitted s s' n) (has : s'.HasFitting n p) : ¬ s.Knows (.fitting p) := by
  obtain ⟨all, fitted, -, new⟩ := h
  exact new _ (fitted.has_iff.mp has)

theorem NewlyFitted.same (h : NewlyFitted s s₁ n) (same : SameNode s₁ s' n) : NewlyFitted s s' n := by
  obtain ⟨all, fitted, nodup, new⟩ := h
  exact ⟨all, fitted.same same, nodup, new⟩

theorem NewlyFitted.earlier (h : NewlyFitted s₁ s' n) (grown : s.Extends s₁) : NewlyFitted s s' n := by
  obtain ⟨all, fitted, nodup, new⟩ := h
  exact ⟨all, fitted, nodup, fun o member known => new o member (grown.knows known)⟩

/-- An object is new in a store that has grown, with some parts. -/
structure New (s s' : Store) (o : Object) (parts : List Object) : Prop where
  grown : s.Extends s'
  known : s'.Knows o
  unknown : ¬ s.Knows o
  parts : s'.parts o = parts
  sound : s'.Sound o
  fitted : ∀ n, o = .node n → NewlyFitted s s' n

theorem new_fitting (s : Store) (f : Fitting) :
    New s (newFitting f s).2 (.fitting (newFitting f s).1) (f.inner.map .fitting) where
  grown := s.newFitting_extends f
  known := by simp [Knows, newFitting]
  unknown := Nat.lt_irrefl _
  parts := by simp [Store.parts, fitting?, newFitting]
  sound := by simp [Sound, fitting?, newFitting]
  fitted := nofun

theorem new_sequence (s : Store) (ns : List NodeId) :
    New s (newSequence ns s).2 (.sequence (newSequence ns s).1) (ns.map .node) where
  grown := s.newSequence_extends ns
  known := by simp [Knows, newSequence]
  unknown := Nat.lt_irrefl _
  parts := by simp [Store.parts, sequence, newSequence]
  sound := trivial
  fitted := nofun

theorem new_mapping (s : Store) {m : Mapping NodeId} (distinct : m.keys.Nodup) :
    New s (newMapping m s).2 (.mapping (newMapping m s).1) (m.map fun entry => .node entry.2) where
  grown := s.newMapping_extends m
  known := by simp [Knows, newMapping]
  unknown := Nat.lt_irrefl _
  parts := by simp [Store.parts, mapping, newMapping]
  sound := by simpa [Sound, mapping, newMapping] using distinct
  fitted := nofun

/-- What is reached from what a computation gives is new in the store, and nothing of it is shared. -/
structure Added (s s' : Store) (objects all : List Object) : Prop where
  grown : s.Extends s'
  spans : s'.Spans objects all
  nodup : all.Nodup
  known : ∀ o ∈ all, s'.Knows o
  unknown : ∀ o ∈ all, ¬ s.Knows o
  fitted : ∀ n, .node n ∈ all → NewlyFitted s s' n
  apart : ∀ n m p, .node n ∈ all → .node m ∈ all → s'.HasFitting n p → s'.HasFitting m p → n = m

def Adds {α : Type} (objects : α → List Object) (x : Adding α) : Prop :=
  ∀ s, ∃ all, Added s (x s).2 (objects (x s).1) all

section

variable {objects objects' all all' : List Object}

theorem Added.nil (s : Store) : Added s s [] [] := ⟨.refl s, .nil, .nil, nofun, nofun, nofun, nofun⟩

/-- What came first is still there, and has other numbers. -/
theorem Added.append (h : Added s s₁ objects all) (h' : Added s₁ s' objects' all') :
    Added s s' (objects ++ objects') (all ++ all') where
  grown := h.grown.trans h'.grown
  spans := (h.spans.agree fun o member => h'.grown.same (h.known o member)).append h'.spans
  nodup := by
    refine List.nodup_append.mpr ⟨h.nodup, h'.nodup, fun o member o' member' same => ?_⟩
    exact h'.unknown o' member' (same ▸ h.known o member)
  known := List.forall_mem_append.mpr ⟨fun o member => h'.grown.knows (h.known o member), h'.known⟩
  unknown := List.forall_mem_append.mpr
    ⟨h.unknown, fun o member before => h'.unknown o member (h.grown.knows before)⟩
  fitted := by
    intro n member
    rcases List.mem_append.mp member with first | later
    · exact (h.fitted n first).same (h'.grown.node (h.known _ first))
    · exact (h'.fitted n later).earlier h.grown
  apart := by
    have across {n m : NodeId} {p : FittingId} (first : .node n ∈ all) (later : .node m ∈ all')
        (has : s'.HasFitting n p) (has' : s'.HasFitting m p) : False := by
      have known := h.known _ first
      exact (h'.fitted m later).unknown has' (known.2 p ((h'.grown.node known).has_iff.mp has))
    intro n m p member member' has has'
    rcases List.mem_append.mp member with first | later <;> rcases List.mem_append.mp member' with first' | later'
    · have same (x : NodeId) (inside : .node x ∈ all) := h'.grown.node (h.known _ inside)
      exact h.apart n m p first first' ((same n first).has_iff.mp has) ((same m first').has_iff.mp has')
    · exact (across first later' has has').elim
    · exact (across first' later has' has).elim
    · exact h'.apart n m p later later' has has'

theorem Added.around (h : Added s s₁ objects all) (new : New s₁ s' o objects) : Added s s' [o] (o :: all) := by
  have kept (x : Object) (member : x ∈ all) : Same s₁ s' x := new.grown.same (h.known x member)
  have fresh : o ∉ all := fun member => new.unknown (h.known o member)
  have across {n m : NodeId} {p : FittingId} (isNew : .node n = o) (inside : .node m ∈ all)
      (has : s'.HasFitting n p) (has' : s'.HasFitting m p) : False := by
    have known := h.known _ inside
    exact (new.fitted n isNew.symm).unknown has (known.2 p ((new.grown.node known).has_iff.mp has'))
  refine ⟨h.grown.trans new.grown, .single new.sound (new.parts.symm ▸ h.spans.agree kept),
    List.nodup_cons.mpr ⟨fresh, h.nodup⟩, ?_, ?_, ?_, ?_⟩
  · exact List.forall_mem_cons.mpr ⟨new.known, fun x member => new.grown.knows (h.known x member)⟩
  · exact List.forall_mem_cons.mpr ⟨fun before => new.unknown (h.grown.knows before), h.unknown⟩
  · intro n member
    rcases List.mem_cons.mp member with isNew | inside
    · exact (new.fitted n isNew.symm).earlier h.grown
    · exact (h.fitted n inside).same (kept _ inside)
  · intro n m p member member' has has'
    rcases List.mem_cons.mp member with isNew | inside <;> rcases List.mem_cons.mp member' with isNew' | inside'
    · exact Object.node.inj (isNew.trans isNew'.symm)
    · exact (across isNew inside' has has').elim
    · exact (across isNew' inside has' has).elim
    · have same (x : NodeId) (inside : .node x ∈ all) := new.grown.node (h.known _ inside)
      exact h.apart n m p inside inside' ((same n inside).has_iff.mp has) ((same m inside').has_iff.mp has')

theorem Added.perm (h : Added s s' objects all) (order : objects.Perm objects') :
    ∃ all', Added s s' objects' all' := by
  obtain ⟨all', spans, same⟩ := h.spans.perm order
  exact ⟨all', h.grown, spans, same.nodup_iff.mpr h.nodup, fun o member => h.known o (same.subset member),
    fun o member => h.unknown o (same.subset member), fun n member => h.fitted n (same.subset member),
    fun n m p member member' => h.apart n m p (same.subset member) (same.subset member')⟩

end

section

variable {α β γ : Type} {objects : α → List Object}

theorem adds_mapM {read : γ → Adding α} {items : List γ} (each : ∀ c ∈ items, Adds objects (read c)) :
    Adds (fun as => as.flatMap objects) (items.mapM read) := by
  induction items with
  | nil => exact fun s => ⟨[], .nil s⟩
  | cons c rest ih =>
    intro s
    obtain ⟨one, first⟩ := each c List.mem_cons_self s
    obtain ⟨two, later⟩ := ih (fun c member => each c (List.mem_cons_of_mem _ member)) (read c s).2
    rw [List.mapM_cons]
    exact ⟨one ++ two, first.append later⟩

theorem Adds.wrap {x : Adding α} {add : α → Adding β} {object : β → Object} (h : Adds objects x)
    (new : ∀ s, New (x s).2 (add (x s).1 (x s).2).2 (object (add (x s).1 (x s).2).1) (objects (x s).1)) :
    Adds (fun b => [object b]) (x >>= add) := by
  intro s
  obtain ⟨all, added⟩ := h s
  exact ⟨_, added.around (new s)⟩

theorem Adds.both {x : Adding α} {y : Adding β} {others : β → List Object} (h : Adds objects x) (h' : Adds others y) :
    Adds (fun p => objects p.1 ++ others p.2) (do let a ← x; return (a, ← y)) := by
  intro s
  obtain ⟨one, first⟩ := h s
  obtain ⟨two, later⟩ := h' (x s).2
  exact ⟨one ++ two, first.append later⟩

end

section

variable {α : Type}

theorem adds_newFitting (f : Fitting) (scalar : f.inner = []) : Adds (fun p => [.fitting p]) (newFitting f) := by
  intro s
  have new := new_fitting s f
  rw [scalar] at new
  exact ⟨_, (Added.nil s).around new⟩

theorem adds_newList {item : α → Adding FittingId} (each : ∀ a, Adds (fun p => [.fitting p]) (item a))
    (items : List α) : Adds (fun p => [.fitting p]) (newList item items) := by
  have members : Adds (fun ps => ps.flatMap fun p => [.fitting p]) (items.mapM item) := adds_mapM fun a _ => each a
  simp only [← List.map_eq_flatMap] at members
  exact members.wrap fun _ => new_fitting _ (.list _)

theorem adds_newDefinition (d : Definition SequenceId) : Adds (fun p => [.fitting p]) (newDefinition d) :=
  (adds_newFitting (.sequences d.meanings) rfl).wrap fun _ => new_fitting _ (.definition _ _)

theorem adds_newRow (r : Row SequenceId) : Adds (fun p => [.fitting p]) (newRow r) :=
  (adds_newList (fun c => adds_newFitting (.cell c) rfl) r.cells).wrap fun _ => new_fitting _ (.row _ _)

theorem adds_newRowGroup (g : RowGroup SequenceId) : Adds (fun p => [.fitting p]) (newRowGroup g) :=
  (adds_newList adds_newRow g.rows).wrap fun _ => new_fitting _ (.rowGroup _ _)

theorem adds_newTableSection (t : Section SequenceId) : Adds (fun p => [.fitting p]) (newTableSection t) := by
  have rows := (adds_newList adds_newRow t.head).both (adds_newList adds_newRow t.body)
  have wrapped : Adds (fun p => [.fitting p])
      (_ >>= fun rows : FittingId × FittingId => newFitting (.tableSection t.attr t.headColumns rows.1 rows.2)) :=
    rows.wrap fun _ => new_fitting _ (.tableSection ..)
  exact wrapped

theorem adds_fit (e : StoredElement) : Adds (fun r => r.fittings.map .fitting) (fit e) := by
  cases e with
  | items kind parts | orderedList numbering parts => exact adds_newFitting (.sequences parts) rfl
  | definitionList parts => exact adds_newList adds_newDefinition parts
  | table t =>
    have rows := (adds_newRowGroup t.head).both
      ((adds_newList adds_newTableSection t.sections).both (adds_newRowGroup t.foot))
    exact (adds_newFitting (.caption t.caption) rfl).both rows
  | figure attr caption content => exact adds_newFitting (.caption caption) rfl
  | cite citations content => exact adds_newList (fun c => adds_newFitting (.citation c) rfl) citations
  | _ => exact fun s => ⟨[], .nil s⟩

end

theorem new_element (s : Store) (e : StoredElement) :
    New s (newElement e s).2 (.node (newElement e s).1) (e.slots.map .ofSlot) := by
  obtain ⟨all, added⟩ := adds_fit e s
  have kept := newRecord_extends (fit e s).2 (fit e s).1
  have stored : (newElement e s).2.record (newElement e s).1 = (fit e s).1 := by
    change ((fit e s).2.records.push (fit e s).1).getD (fit e s).2.records.size _ = (fit e s).1
    simp
  have fitted : (newElement e s).2.Fitted (newElement e s).1 all := by
    rw [Fitted, stored]
    exact added.spans.agree fun o member => kept.same (added.known o member)
  have read : (newElement e s).2.element (newElement e s).1 = e :=
    (newElement_yields e s).2 ⟨_, _⟩ (.refl _) (Nat.le_refl _)
  refine ⟨(newElement_yields e s).1, ⟨?_, fun p has => ?_⟩, fun known => ?_, by rw [Store.parts, read], trivial, ?_⟩
  · exact (Array.size_push _).symm ▸ Nat.lt_succ_self _
  · exact kept.knows (added.known _ (fitted.has_iff.mp has))
  · exact Nat.lt_irrefl _ (Nat.lt_of_le_of_lt (size_le_of_kept added.grown.records) known.1)
  · rintro n eq
    obtain rfl := Object.node.inj eq
    exact ⟨all, fitted, added.nodup, added.unknown⟩

theorem adds_loadSequence {ns : List Node} (each : ∀ n ∈ ns, Adds (fun id => [.node id]) (load n)) :
    Adds (fun q => [.sequence q]) (loadSequence (ns.map load)) := by
  have members : Adds (fun ids => ids.flatMap fun id => [.node id]) ((ns.map load).mapM id) := by
    rw [List.mapM_map]
    exact adds_mapM each
  simp only [← List.map_eq_flatMap] at members
  exact members.wrap fun s => new_sequence _ _

theorem keys_loadEntries (m : Mapping (Adding NodeId)) (s : Store) :
    Mapping.keys (m.mapM loadEntry s).1 = Mapping.keys m := by
  induction m generalizing s with
  | nil => rfl
  | cons entry rest ih =>
    rw [List.mapM_cons]
    exact congrArg (entry.1 :: ·) (ih (entry.2 s).2)

theorem adds_loadMapping {m : Mapping Node} (distinct : m.keys.Nodup)
    (each : ∀ entry ∈ m, Adds (fun id => [.node id]) (load entry.2)) :
    Adds (fun id => [.mapping id]) (loadMapping (m.map fun (key, n) => (key, load n))) := by
  have entries : Adds (fun m : Mapping NodeId => m.flatMap fun entry => [.node entry.2])
      ((m.map fun (key, n) => (key, load n)).mapM loadEntry) := by
    rw [List.mapM_map]
    exact adds_mapM each
  simp only [← List.map_eq_flatMap] at entries
  refine entries.wrap fun s => new_mapping _ ?_
  rw [keys_loadEntries]
  simpa [Mapping.keys, Function.comp_def] using distinct

theorem adds_load_mk {e : Element (List Node) (Mapping Node)} (named : e.kind ≠ .list)
    (distinct : ∀ m, .mapping m ∈ e.slots → m.keys.Nodup)
    (each : ∀ n ∈ e.children, Adds (fun id => [.node id]) (load n)) :
    Adds (fun id => [.node id]) (load (.mk e)) := by
  have loaded : load (.mk e) =
      (e.mapChildren load).traverse .decoded loadSequence loadMapping >>= newElement := by
    rw [load, Node.fold_mapChildren]
    rfl
  -- The containers are loaded one after the other, each with numbers of its own.
  have containers : Adds (fun slots => slots.map Object.ofSlot)
      (Element.decoded <$> (e.mapChildren load).traverse .decoded loadSequence loadMapping) := by
    rw [Element.decoded_traverse (by rwa [Element.kind_mapChildren])]
    have visited : Adds (fun slots => slots.flatMap fun slot => [Object.ofSlot slot])
        ((e.mapChildren load).decoded.mapM (visit loadSequence loadMapping)) := by
      refine adds_mapM fun slot member => ?_
      replace member := (Element.decoded_perm _).subset member
      rw [Element.mapChildren, Element.slots_map] at member
      obtain ⟨slot, own, rfl⟩ := List.mem_map.mp member
      cases slot with
      | sequence ns => exact adds_loadSequence fun n inside => each n (Element.sequence_children own inside)
      | mapping m =>
        exact adds_loadMapping (distinct m own) fun entry inside =>
          each entry.2 (Element.mapping_children own inside)
    simpa only [← List.map_eq_flatMap] using visited
  have parts : Adds (fun e : StoredElement => e.slots.map Object.ofSlot)
      ((e.mapChildren load).traverse .decoded loadSequence loadMapping) := by
    intro s
    obtain ⟨all, added⟩ := containers s
    exact added.perm ((Element.decoded_perm _).map _)
  rw [loaded]
  exact parts.wrap fun s => new_element _ _

theorem adds_load {n : Node} (proper : n.Proper) (keyed : n.Keyed) : Adds (fun id => [.node id]) (load n) := by
  induction proper with
  | mk _ named _ ih =>
    obtain ⟨distinct, below⟩ := keyed
    exact adds_load_mk named distinct fun n child => ih n child (below n child)

/-- A tree that is loaded has numbers that were not in use, and nothing of it is reached in two ways. -/
theorem adds_loadTree {t : Tree} (proper : t.Proper) (keyed : t.Keyed) :
    Adds (fun root => [root.object]) (loadTree t) := by
  cases t with
  | node n =>
    obtain ⟨e⟩ := n
    obtain ⟨named, below⟩ := proper
    obtain ⟨distinct, keys⟩ := (show Node.Keyed (.mk e) from keyed)
    exact adds_load_mk named distinct fun n child => adds_load (below n child) (keys n child)
  | list ns =>
    have joined : loadList ns = loadSequence (ns.map load) := by
      rw [loadList, loadSequence, List.mapM_map]
      rfl
    have sequence := adds_loadSequence fun n member => adds_load (proper n member) (keyed n member)
    rw [← joined] at sequence
    exact sequence

/-- The store has the object, and it is no list in the place of an element. -/
structure Genuine (s : Store) (o : Object) : Prop where
  known : s.Knows o
  elemental : ∀ n, o = .node n → s.Elemental n

theorem Genuine.of_elements (genuine : s.Genuine o) (known : s'.Knows o)
    (same : ∀ n, o = .node n → s'.element n = s.element n) : s'.Genuine o where
  known := known
  elemental := by
    intro n isNode
    rw [Elemental, same n isNode]
    exact genuine.elemental n isNode

theorem Genuine.of_extends (genuine : s.Genuine o) (h : s.Extends s') : s'.Genuine o := by
  refine genuine.of_elements (h.knows genuine.known) ?_
  rintro n rfl
  exact (h.node genuine.known).element

/-- A tree without sharing and without lists in it, of which the store has all objects. -/
def Intact (root : Root) (s : Store) : Prop :=
  ∃ all, s.Spans [root.object] all ∧ all.Nodup ∧ ∀ o ∈ all, s.Genuine o

namespace Intact

variable {root : Root}

theorem unshared (h : s.Intact root) : s.Unshared root := by
  obtain ⟨all, spans, nodup, _⟩ := h
  exact ⟨all, spans, nodup⟩

theorem typed (h : s.Intact root) : s.Typed root := by
  obtain ⟨all, spans, _, genuine⟩ := h
  exact typed_of_elemental spans fun m member => (genuine _ member).elemental m rfl

theorem of_extends (h : s.Intact root) (extends_ : s.Extends s') : s'.Intact root := by
  obtain ⟨all, spans, nodup, genuine⟩ := h
  exact ⟨all, spans.agree fun o member => extends_.same (genuine o member).known, nodup,
    fun o member => (genuine o member).of_extends extends_⟩

end Intact

theorem loadTree_intact {t : Tree} (proper : t.Proper) (keyed : t.Keyed) (s : Store) :
    (loadTree t s).2.Intact (loadTree t s).1 := by
  obtain ⟨all, added⟩ := adds_loadTree proper keyed s
  have typed := (loadTree_proper proper s).typed
  exact ⟨all, added.spans, added.nodup, fun o member => ⟨added.known o member, fun n isNode =>
    typed.elemental added.spans (isNode ▸ member)⟩⟩

end DocTree.Store
