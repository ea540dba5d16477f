import DocTree.Proofs.Node.Proper
import DocTree.Proofs.Store.Below
import DocTree.Store.Transfer
/-!
A tree that is loaded into a store can be read out of it again, also after more is added, and nothing
in it is a list.
-/

namespace DocTree.Store

/-- A store in which all that another store knows is still as it was. -/
structure Extends (s s' : Store) : Prop where
  records : ∀ (i : Nat) (r : Record), s.records[i]? = some r → s'.records[i]? = some r
  fittings : ∀ (i : Nat) (f : Fitting), s.fittings[i]? = some f → s'.fittings[i]? = some f
  sequences : ∀ (i : Nat) (ns : List NodeId), s.sequences[i]? = some ns → s'.sequences[i]? = some ns
  mappings : ∀ (i : Nat) (m : Mapping NodeId), s.mappings[i]? = some m → s'.mappings[i]? = some m

namespace Extends

variable {s s₁ s₂ : Store}

theorem refl (s : Store) : s.Extends s := ⟨fun _ _ h => h, fun _ _ h => h, fun _ _ h => h, fun _ _ h => h⟩

theorem trans (h : s.Extends s₁) (h' : s₁.Extends s₂) : s.Extends s₂ :=
  ⟨fun i r known => h'.records i r (h.records i r known),
    fun i f known => h'.fittings i f (h.fittings i f known),
    fun i ns known => h'.sequences i ns (h.sequences i ns known),
    fun i m known => h'.mappings i m (h.mappings i m known)⟩

end Extends

theorem size_le_of_kept {α : Type} {xs ys : Array α} (kept : ∀ (i : Nat) (a : α), xs[i]? = some a → ys[i]? = some a) :
    xs.size ≤ ys.size := by
  cases size : xs.size with
  | zero => exact Nat.zero_le _
  | succ n =>
    have last : n < xs.size := by omega
    exact (Array.getElem?_eq_some_iff.mp (kept n _ (Array.getElem?_eq_getElem last))).1

theorem getElem?_push_of_some {α : Type} {xs : Array α} {x y : α} {i : Nat} (known : xs[i]? = some y) :
    (xs.push x)[i]? = some y := by
  have bound := (Array.getElem?_eq_some_iff.mp known).1
  rwa [Array.getElem?_push, if_neg (by omega)]

section

variable (s : Store)

theorem newRecord_extends (r : Record) : s.Extends (newRecord r s).2 :=
  ⟨fun _ _ => getElem?_push_of_some, fun _ _ h => h, fun _ _ h => h, fun _ _ h => h⟩

theorem newFitting_extends (f : Fitting) : s.Extends (newFitting f s).2 :=
  ⟨fun _ _ h => h, fun _ _ => getElem?_push_of_some, fun _ _ h => h, fun _ _ h => h⟩

theorem newSequence_extends (ns : List NodeId) : s.Extends (newSequence ns s).2 :=
  ⟨fun _ _ h => h, fun _ _ h => h, fun _ _ => getElem?_push_of_some, fun _ _ h => h⟩

theorem newMapping_extends (m : Mapping NodeId) : s.Extends (newMapping m s).2 :=
  ⟨fun _ _ h => h, fun _ _ h => h, fun _ _ h => h, fun _ _ => getElem?_push_of_some⟩

end

/-- A store that may have grown, with a number of levels that all elements so far fit in. -/
structure Later where
  store : Store
  fuel : Nat

def adding : Account Adding Later where
  Yields x Q := ∀ s : Store, s.Extends (x s).2 ∧
    ∀ w : Later, (x s).2.Extends w.store → (x s).2.records.size ≤ w.fuel → Q w (x s).1
  pure h s := ⟨.refl s, fun w _ _ => h w⟩
  bind := by
    intro α β x f Q Q' known later s
    obtain ⟨first, yields⟩ := known s
    obtain ⟨second, yields'⟩ := later (x s).1 (x s).2
    refine ⟨first.trans second, fun w extends_ enough => ?_⟩
    refine yields' w extends_ enough (yields w (second.trans extends_) ?_)
    exact Nat.le_trans (size_le_of_kept second.records) enough

theorem newRecord_yields (r : Record) : adding.Yields (newRecord r) fun w n => w.store.record n = r := by
  intro s
  refine ⟨s.newRecord_extends r, fun w later _ => ?_⟩
  have known := later.records s.records.size r Array.getElem?_push_size
  change w.store.records.getD s.records.size _ = r
  rw [Array.getD_eq_getD_getElem?, known, Option.getD_some]

theorem newFitting_yields (f : Fitting) : adding.Yields (newFitting f) fun w p => w.store.fitting? p = some f :=
  fun s => ⟨s.newFitting_extends f, fun _ later _ => later.fittings s.fittings.size f Array.getElem?_push_size⟩

theorem newSequence_yields (ns : List NodeId) :
    adding.Yields (newSequence ns) fun w q => w.store.sequence q = ns := by
  intro s
  refine ⟨s.newSequence_extends ns, fun w later _ => ?_⟩
  have known := later.sequences s.sequences.size ns Array.getElem?_push_size
  change w.store.sequences.getD s.sequences.size [] = ns
  rw [Array.getD_eq_getD_getElem?, known, Option.getD_some]

theorem newMapping_yields (m : Mapping NodeId) :
    adding.Yields (newMapping m) fun w id => w.store.mapping id = m := by
  intro s
  refine ⟨s.newMapping_extends m, fun w later _ => ?_⟩
  have known := later.mappings s.mappings.size m Array.getElem?_push_size
  change w.store.mappings.getD s.mappings.size [] = m
  rw [Array.getD_eq_getD_getElem?, known, Option.getD_some]

section

theorem newList_yields {α : Type} {item : α → Adding FittingId} {read : Store → FittingId → Option α}
    (each : ∀ a, adding.Yields (item a) fun w p => read w.store p = some a) (items : List α) :
    adding.Yields (newList item items) fun w p => (w.store.listAt p).filterMap (read w.store) = items := by
  have members : adding.Yields ((items.map id).mapM item) fun w ps => ps.map (read w.store) = items.map some :=
    adding.mapM fun a _ => each a
  rw [List.map_id] at members
  refine adding.bind members fun ps => adding.imp (newFitting_yields (.list ps)) fun w p here known => ?_
  have flat : ps.filterMap (read w.store) = (ps.map (read w.store)).filterMap id := by
    rw [List.filterMap_map]
    rfl
  rw [listAt, here]
  refine flat.trans ?_
  rw [known, List.filterMap_map]
  exact List.filterMap_some

theorem newSequences_yields (items : List SequenceId) :
    adding.Yields (newFitting (.sequences items)) fun w p => w.store.sequencesAt p = items :=
  adding.imp (newFitting_yields _) fun w p here => by rw [sequencesAt, here]

theorem newCaption_yields (c : Caption SequenceId) :
    adding.Yields (newFitting (.caption c)) fun w p => w.store.caption? p = some c :=
  adding.imp (newFitting_yields _) fun w p here => by rw [caption?, here]

theorem newCitation_yields (c : Citation SequenceId) :
    adding.Yields (newFitting (.citation c)) fun w p => w.store.citation? p = some c :=
  adding.imp (newFitting_yields _) fun w p here => by rw [citation?, here]

theorem newCell_yields (c : Cell SequenceId) :
    adding.Yields (newFitting (.cell c)) fun w p => w.store.cell? p = some c :=
  adding.imp (newFitting_yields _) fun w p here => by rw [cell?, here]

theorem newDefinition_yields (d : Definition SequenceId) :
    adding.Yields (newDefinition d) fun w p => w.store.definition? p = some d := by
  refine adding.bind (newSequences_yields d.meanings) fun meanings => ?_
  refine adding.imp (newFitting_yields _) fun w p here known => ?_
  rw [definition?, here]
  simp only [known]

theorem newRow_yields (r : Row SequenceId) : adding.Yields (newRow r) fun w p => w.store.row? p = some r := by
  refine adding.bind (newList_yields newCell_yields r.cells) fun cells => ?_
  refine adding.imp (newFitting_yields _) fun w p here known => ?_
  rw [row?, here]
  simp only [known]

theorem newRows_yields (rows : List (Row SequenceId)) :
    adding.Yields (newList newRow rows) fun w p => w.store.rowsAt p = rows := newList_yields newRow_yields rows

theorem newRowGroup_yields (g : RowGroup SequenceId) :
    adding.Yields (newRowGroup g) fun w p => w.store.rowGroup? p = some g := by
  refine adding.bind (newRows_yields g.rows) fun rows => ?_
  refine adding.imp (newFitting_yields _) fun w p here known => ?_
  rw [rowGroup?, here]
  simp only [known]

theorem newTableSection_yields (t : Section SequenceId) :
    adding.Yields (newTableSection t) fun w p => w.store.tableSection? p = some t := by
  refine adding.bind (newRows_yields t.head) fun head => adding.bind (newRows_yields t.body) fun body => ?_
  refine adding.imp (newFitting_yields _) fun w p here knownBody knownHead => ?_
  rw [tableSection?, here]
  simp only [knownHead, knownBody]

end

theorem fit_yields (e : StoredElement) : adding.Yields (fit e) fun w r => w.store.elementOf r = e := by
  cases e with
  | items kind parts | orderedList numbering parts =>
    exact adding.map (newSequences_yields parts) fun w p known => by rw [elementOf, known]
  | definitionList parts =>
    exact adding.map (newList_yields newDefinition_yields parts) fun w p known => by rw [elementOf, known]
  | table t =>
    refine adding.bind (newCaption_yields t.caption) fun caption => ?_
    refine adding.bind (newRowGroup_yields t.head) fun head => ?_
    refine adding.bind (newList_yields newTableSection_yields t.sections) fun sections => ?_
    refine adding.bind (newRowGroup_yields t.foot) fun foot => adding.pure ?_
    intro w knownFoot knownSections knownHead knownCaption
    simp only [elementOf, knownCaption, knownHead, knownFoot, knownSections]
  | figure attr caption content =>
    refine adding.bind (newCaption_yields caption) fun caption => adding.pure fun w known => ?_
    simp only [elementOf, known]
  | cite citations content =>
    refine adding.bind (newList_yields newCitation_yields citations) fun citations => adding.pure fun w known => ?_
    simp only [elementOf, known]
  | _ => exact adding.pure fun _ => rfl

theorem newElement_yields (e : StoredElement) : adding.Yields (newElement e) fun w n => w.store.element n = e := by
  refine adding.bind (fit_yields e) fun r => adding.imp (newRecord_yields r) fun w n here known => ?_
  rw [element, here, known]

theorem newElement_size (e : StoredElement) (s : Store) : s.records.size + 1 ≤ (newElement e s).2.records.size := by
  have grown := size_le_of_kept (fit_yields e s).1.records
  have size : (newElement e s).2.records.size = (fit e s).2.records.size + 1 := Array.size_push _
  omega

def Later.nodesOf (w : Later) (q : SequenceId) : List Node :=
  (w.store.sequence q).map (w.store.nodeWithin w.fuel)

def Later.entriesOf (w : Later) (id : MappingId) : Mapping Node :=
  (w.store.mapping id).map fun (key, n) => (key, w.store.nodeWithin w.fuel n)

def Loads (n : Node) : Prop :=
  adding.Yields (load n) fun w id => w.store.nodeWithin w.fuel id = n

theorem loadSequence_yields {ns : List Node} (known : ∀ n ∈ ns, Loads n) :
    adding.Yields (loadSequence (ns.map load)) fun w q => w.nodesOf q = ns := by
  have members : adding.Yields ((ns.map load).mapM id) fun w ids =>
      ids.map (w.store.nodeWithin w.fuel) = ns.map id := adding.mapM known
  refine adding.bind members fun ids => adding.imp (newSequence_yields ids) ?_
  intro w q stored read
  rw [Later.nodesOf, stored, read, List.map_id]

theorem loadMapping_yields {m : Mapping Node} (known : ∀ entry ∈ m, Loads entry.2) :
    adding.Yields (loadMapping (m.map fun (key, n) => (key, load n))) fun w id =>
      w.entriesOf id = m := by
  have each : ∀ entry ∈ m, adding.Yields (loadEntry (entry.1, load entry.2)) fun w loaded =>
      (loaded.1, w.store.nodeWithin w.fuel loaded.2) = id entry := fun entry member =>
    adding.map (known entry member) fun w n read => by rw [read]; rfl
  have members : adding.Yields ((m.map fun (key, n) => (key, load n)).mapM loadEntry) fun w entries =>
      (entries.map fun (key, n) => (key, w.store.nodeWithin w.fuel n)) = m.map id := adding.mapM each
  refine adding.bind members fun entries => adding.imp (newMapping_yields entries) ?_
  intro w id stored read
  rw [Later.entriesOf, stored, read, List.map_id]

theorem load_mk {e : Element (List Node) (Mapping Node)} (named : e.kind ≠ .list)
    (known : ∀ n ∈ e.children, Loads n) : Loads (.mk e) := by
  have parts : adding.Yields ((e.mapChildren load).traverse .decoded loadSequence loadMapping) fun w e' =>
      e'.map w.nodesOf w.entriesOf = e.map id id :=
    Element.yields .decoded named
      (fun ns slot => loadSequence_yields fun n member => known n (Element.sequence_children slot member))
      fun m slot => loadMapping_yields fun entry member =>
        known entry.2 (Element.mapping_children slot member)
  have loaded : load (.mk e) =
      (e.mapChildren load).traverse .decoded loadSequence loadMapping >>= newElement := by
    rw [load, Node.fold_mapChildren]
    rfl
  intro s
  rw [loaded]
  obtain ⟨grown, read⟩ := parts s
  generalize (e.mapChildren load).traverse .decoded loadSequence loadMapping = x at grown read
  obtain ⟨added, stored⟩ := newElement_yields (x s).1 (x s).2
  refine ⟨grown.trans added, fun w later enough => ?_⟩
  obtain ⟨s₂, fuel⟩ := w
  -- The element takes one of the levels, so that its children have one less.
  have size : (x s).2.records.size + 1 ≤ fuel := Nat.le_trans (newElement_size _ _) enough
  cases fuel with
  | zero => exact absurd size (Nat.not_succ_le_zero _)
  | succ fuel =>
    have children := read ⟨s₂, fuel⟩ (added.trans later) (Nat.le_of_succ_le_succ size)
    have here : s₂.element ((x >>= newElement) s).1 = (x s).1 := stored ⟨s₂, fuel + 1⟩ later enough
    change nodeWithin s₂ (fuel + 1) _ = .mk e
    rw [nodeWithin, here]
    exact congrArg Node.mk (children.trans e.map_id)

theorem load_yields {n : Node} (proper : n.Proper) : Loads n := by
  induction proper with
  | mk _ named _ ih => exact load_mk named ih

def top (s : Store) : Root → List NodeId
  | .node id => s.children id
  | .list q => s.sequence q

theorem children_nodeWithin (s : Store) (fuel : Nat) (id : NodeId) :
    (s.nodeWithin (fuel + 1) id).element.children = (s.children id).map (s.nodeWithin fuel) := by
  rw [nodeWithin, Node.element, Element.children, Element.slots_map, List.flatMap_map, children,
    List.map_flatMap]
  congr 1
  funext slot
  cases slot <;> simp [Slot.map, Node.members, members]

theorem read_each {s : Store} {ids : List NodeId} {ns : List Node} {least : Nat}
    (read : ∀ fuel, least ≤ fuel → ids.map (s.nodeWithin fuel) = ns) {id : NodeId} (member : id ∈ ids) :
    ∃ n ∈ ns, ∀ fuel, least ≤ fuel → s.nodeWithin fuel id = n := by
  refine ⟨s.nodeWithin least id, ?_, fun fuel enough => ?_⟩
  · rw [← read least (Nat.le_refl _)]
    exact List.mem_map_of_mem member
  · have same := (read fuel enough).trans (read least (Nat.le_refl _)).symm
    exact List.map_inj_left.mp same id member

theorem children_read {s : Store} {e : Element (List Node) (Mapping Node)} {least : Nat} {id : NodeId}
    (read : ∀ fuel, least ≤ fuel → s.nodeWithin fuel id = .mk e) :
    ∀ fuel, least ≤ fuel → (s.children id).map (s.nodeWithin fuel) = e.children := by
  intro fuel enough
  rw [← children_nodeWithin, read (fuel + 1) (Nat.le_succ_of_le enough)]
  rfl

theorem allBelow_of_read {s : Store} {n : Node} (proper : n.Proper) {least : Nat} {id : NodeId}
    (read : ∀ fuel, least ≤ fuel → s.nodeWithin fuel id = n) :
    s.AllBelow (fun m => (s.element m).kind ≠ .list) id := by
  induction proper generalizing id with
  | @mk e inner named below ih =>
    have here : (s.element id).kind = e.kind := by
      have shape := congrArg (·.element.kind) (read (least + 1) (Nat.le_succ _))
      simpa only [nodeWithin, Node.element, Element.kind_map] using shape
    refine .intro (here ▸ named) fun m child => ?_
    obtain ⟨n, inside, readChild⟩ := read_each (children_read read) child
    exact ih n inside readChild

/-- A tree that is loaded is there afterwards, and stays there if more is added. -/
theorem loadTree_read {t : Tree} (proper : t.Proper) (s : Store) {s₂ : Store}
    (later : (loadTree t s).2.Extends s₂) :
    s₂.tree (loadTree t s).1 = t ∧
      ∀ m ∈ s₂.top (loadTree t s).1, s₂.AllBelow (fun m => (s₂.element m).kind ≠ .list) m := by
  cases t with
  | node n =>
    obtain ⟨e⟩ := n
    obtain ⟨named, below⟩ := proper
    have loads : Loads (.mk e) := load_mk named fun n child => load_yields (below n child)
    obtain ⟨_, yields⟩ := loads s
    have read : ∀ fuel, (load (.mk e) s).2.records.size ≤ fuel →
        s₂.nodeWithin fuel (load (.mk e) s).1 = .mk e := fun fuel => yields ⟨s₂, fuel⟩ later
    refine ⟨congrArg Tree.node (read _ (Nat.le_succ_of_le (size_le_of_kept later.records))), fun m inside => ?_⟩
    obtain ⟨n, child, readChild⟩ := read_each (children_read read) inside
    exact allBelow_of_read (below n child) readChild
  | list ns =>
    have joined : loadList ns = loadSequence (ns.map load) := by
      rw [loadList, loadSequence, List.mapM_map]
      rfl
    obtain ⟨_, yields⟩ := loadSequence_yields (fun n member => load_yields (proper n member)) s
    rw [← joined] at yields
    have read : ∀ fuel, (loadList ns s).2.records.size ≤ fuel →
        (s₂.sequence (loadList ns s).1).map (s₂.nodeWithin fuel) = ns :=
      fun fuel => yields ⟨s₂, fuel⟩ later
    refine ⟨congrArg Tree.list (read _ (Nat.le_succ_of_le (size_le_of_kept later.records))), fun m inside => ?_⟩
    obtain ⟨n, member, readMember⟩ := read_each read inside
    exact allBelow_of_read (proper n member) readMember

end DocTree.Store
