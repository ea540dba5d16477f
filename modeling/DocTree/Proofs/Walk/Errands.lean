import DocTree.Proofs.Store.Fittings
import DocTree.Walk.Machine
/-!
What the errands of a walk come to if nothing is edited: below a node, the containers of its element. Errands
that are about one node depend on the record and the fittings of that node only.
-/

namespace DocTree.Walk.Errand

open Store (SameNode)

section

variable (s : Store)

def ofSequences (q : List SequenceId) : List Container := q.map .sequence

def itemsFrom (item : FittingId → List SequenceId) (list : FittingId) (index : Nat) : List SequenceId :=
  ((s.listAt list).drop index).flatMap item

def definitionItem (p : FittingId) : List SequenceId := (s.definition? p).elim [] (·.sequences)

def citationItem (p : FittingId) : List SequenceId := (s.citation? p).elim [] (·.sequences)

def cellItem (p : FittingId) : List SequenceId := ((s.cell? p).map (·.content)).toList

def rowItem (p : FittingId) : List SequenceId := (s.row? p).elim [] (·.sequences)

def sectionItem (p : FittingId) : List SequenceId := (s.tableSection? p).elim [] (·.sequences)

def bodyItem (p : FittingId) : List SequenceId := (s.tableSection? p).elim [] fun t => t.body.flatMap (·.sequences)

def groupItem (p : FittingId) : List SequenceId := (s.rowGroup? p).elim [] (·.sequences)

/-- The containers that an errand leads to, in order. -/
def slots : Errand → List Container
  | node n => (s.element n).slots
  | containers list => list
  | blocks n => ofSequences (blocksOf s n).toList
  | content n => ofSequences (contentOf s n).toList
  | short p => ofSequences ((s.caption? p).bind (·.short)).toList
  | long p => ofSequences ((s.caption? p).map (·.long)).toList
  | trail p => ofSequences ((s.citation? p).map (·.trail)).toList
  | sequences p index => ofSequences ((s.sequencesAt p).drop index)
  | definitions p index => ofSequences (itemsFrom s (definitionItem s) p index)
  | citations p index => ofSequences (itemsFrom s (citationItem s) p index)
  | cells p index => ofSequences (itemsFrom s (cellItem s) p index)
  | rows p index => ofSequences (itemsFrom s (rowItem s) p index)
  | sections p index => ofSequences (itemsFrom s (sectionItem s) p index)
  | body p => ofSequences (bodyItem s p)
  | head n => ofSequences ((s.record n).rows?.elim [] fun (group, _, _) => groupItem s group)
  | allSections n => ofSequences ((s.record n).rows?.elim [] fun (_, list, _) => itemsFrom s (sectionItem s) list 0)
  | foot n => ofSequences ((s.record n).rows?.elim [] fun (_, _, group) => groupItem s group)

/-- The containers that some errands lead to. -/
def left (errands : List Errand) : List Container := errands.flatMap (slots s)

/-- An errand is about a node, and about its fittings only. -/
def Of (n : NodeId) : Errand → Prop
  | node m | blocks m | content m | head m | allSections m | foot m => m = n
  | containers _ => True
  | short p | long p | trail p | body p => s.HasFitting n p
  | sequences p _ | definitions p _ | citations p _ | cells p _ | rows p _ | sections p _ => s.HasFitting n p

/-- An opening is the first of some containers, and leads on to the others. From what is about a node it leads to
what is about that node. -/
def Opens (n : NodeId) (own : Prop) : Opening → List Container → Prop
  | none, list => list = []
  | some (container, more), list => list = container :: left s more ∧ (own → ∀ e ∈ more, e.Of s n)

end

section

variable {s s' : Store} {n : NodeId} {own : Prop} {p : FittingId} {e : Errand}

@[simp] theorem left_nil : left s [] = [] := rfl

@[simp] theorem left_cons (e : Errand) (errands : List Errand) :
    left s (e :: errands) = slots s e ++ left s errands :=
  rfl

@[simp] theorem left_append (first second : List Errand) : left s (first ++ second) = left s first ++ left s second :=
  List.flatMap_append

theorem ofSequences_append (first second : List SequenceId) :
    ofSequences (first ++ second) = ofSequences first ++ ofSequences second := List.map_append

theorem opens_just (q : Option SequenceId) : Opens s n own (just q) (ofSequences q.toList) := by
  cases q with
  | none => rfl
  | some q => exact ⟨rfl, fun _ => nofun⟩

theorem Opens.later {o : Opening} {list later : List Container} (h : Opens s n own o list) (last : List Errand)
    (comes : left s last = later) (about : own → ∀ e ∈ last, e.Of s n) {o' : Opening}
    (h' : Opens s n own o' later) :
    Opens s n own (orElse last o' o) (list ++ later) := by
  cases o with
  | none =>
    obtain rfl : list = [] := h
    exact h'
  | some opened =>
    obtain ⟨container, more⟩ := opened
    obtain ⟨rfl, inner⟩ := h
    refine ⟨?_, fun isOwn => List.forall_mem_append.mpr ⟨inner isOwn, about isOwn⟩⟩
    rw [left_append, comes, List.cons_append]

theorem firstItem_opens {item : FittingId → Opening} {read : FittingId → List SequenceId} {list : List FittingId}
    {onward : Nat → Errand} (each : ∀ p ∈ list, Opens s n own (item p) (ofSequences (read p)))
    (comes : ∀ index, slots s (onward index) = ofSequences ((list.drop index).flatMap read))
    (about : ∀ index, own → (onward index).Of s n) (index : Nat) :
    Opens s n own (firstItem item onward index (list.drop index)) (ofSequences ((list.drop index).flatMap read)) := by
  generalize here : list.drop index = todo
  induction todo generalizing index with
  | nil => exact rfl
  | cons p todo ih =>
    have member : p ∈ list := List.mem_of_mem_drop (here ▸ List.mem_cons_self)
    have next : list.drop (index + 1) = todo := by rw [← List.tail_drop, here, List.tail_cons]
    rw [List.flatMap_cons, ofSequences_append]
    refine (each p member).later _ ?_ ?_ (ih (index + 1) next)
    · rw [left_cons, left_nil, List.append_nil, comes, next]
    · exact fun isOwn => List.forall_mem_singleton.mpr (about _ isOwn)

theorem fromIndex_opens (onward : FittingId → Nat → Errand) {item : FittingId → Opening}
    {read : FittingId → List SequenceId}
    (each : ∀ q, Opens s n (s.HasFitting n q) (item q) (ofSequences (read q)))
    (comes : ∀ index, slots s (onward p index) = ofSequences (itemsFrom s read p index))
    (about : ∀ index, s.HasFitting n p → (onward p index).Of s n) (index : Nat) :
    Opens s n (s.HasFitting n p) (fromIndex s item onward p index) (ofSequences (itemsFrom s read p index)) := by
  refine firstItem_opens (fun q member => ?_) comes about index
  have known := each q
  cases opened : item q with
  | none =>
    rw [opened] at known
    exact known
  | some o =>
    rw [opened] at known
    exact ⟨known.1, fun has => known.2 (has.listed member)⟩

theorem Opens.imp {own' : Prop} {o : Opening} {list : List Container} (h : Opens s n own o list)
    (implies : own' → own) : Opens s n own' o list := by
  cases o with
  | none => exact h
  | some opened => exact ⟨h.1, fun isOwn => h.2 (implies isOwn)⟩

theorem flatMap_filterMap {α β γ : Type} (f : α → Option β) (g : β → List γ) (l : List α) :
    (l.filterMap f).flatMap g = l.flatMap fun a => (f a).elim [] g := by
  induction l with
  | nil => rfl
  | cons a l ih => cases here : f a <;> simp [here, ih]

theorem openCell_opens (q : FittingId) :
    Opens s n (s.HasFitting n q) (openCell s q) (ofSequences (cellItem s q)) := opens_just _

theorem openDefinition_opens (q : FittingId) :
    Opens s n (s.HasFitting n q) (openDefinition s q) (ofSequences (definitionItem s q)) := by
  cases here : s.fitting? q with
  | none => simp [openDefinition, definitionItem, Store.definition?, here, Opens, ofSequences]
  | some f =>
    cases f with
    | definition term meanings =>
      simp only [openDefinition, definitionItem, Store.definition?, here]
      refine ⟨?_, fun has => List.forall_mem_singleton.mpr (.inner has here (List.mem_singleton_self _))⟩
      rw [left_cons, left_nil, List.append_nil, slots, List.drop_zero]
      rfl
    | _ => simp [openDefinition, definitionItem, Store.definition?, here, Opens, ofSequences]

theorem openCitation_opens (q : FittingId) :
    Opens s n (s.HasFitting n q) (openCitation s q) (ofSequences (citationItem s q)) := by
  rw [openCitation, citationItem]
  cases here : s.citation? q with
  | none => exact rfl
  | some c =>
    refine ⟨?_, fun has => List.forall_mem_singleton.mpr has⟩
    rw [left_cons, left_nil, List.append_nil, slots, here]
    rfl

theorem openRow_opens (q : FittingId) : Opens s n (s.HasFitting n q) (openRow s q) (ofSequences (rowItem s q)) := by
  cases here : s.fitting? q with
  | none => simp [openRow, rowItem, Store.row?, here, Opens, ofSequences]
  | some f =>
    cases f with
    | row attr list =>
      have items : rowItem s q = itemsFrom s (cellItem s) list 0 := by
        simp only [rowItem, Store.row?, here, Option.elim_some, Row.sequences, itemsFrom, List.drop_zero,
          List.map_filterMap]
        exact List.filterMap_eq_flatMap_toList _ _
      rw [items]
      simp only [openRow, here]
      have opened : Opens s n (s.HasFitting n list) (fromIndex s (openCell s) cells list 0) _ :=
        fromIndex_opens cells openCell_opens (fun _ => rfl) (fun _ has => has) 0
      exact opened.imp fun has => .inner has here (List.mem_singleton_self _)
    | _ => simp [openRow, rowItem, Store.row?, here, Opens, ofSequences]

theorem openRows_opens (index : Nat) :
    Opens s n (s.HasFitting n p) (openRows s p index) (ofSequences (itemsFrom s (rowItem s) p index)) :=
  fromIndex_opens rows openRow_opens (fun _ => rfl) (fun _ has => has) index

theorem rowsAt_items (list : FittingId) :
    (s.rowsAt list).flatMap (·.sequences) = itemsFrom s (rowItem s) list 0 := by
  rw [Store.rowsAt, flatMap_filterMap, itemsFrom, List.drop_zero]
  rfl

theorem openBody_opens (q : FittingId) :
    Opens s n (s.HasFitting n q) (openBody s q) (ofSequences (bodyItem s q)) := by
  cases here : s.fitting? q with
  | none => simp [openBody, bodyItem, Store.tableSection?, here, Opens, ofSequences]
  | some f =>
    cases f with
    | tableSection attr headColumns head list =>
      simp only [openBody, bodyItem, Store.tableSection?, here, Option.elim_some, rowsAt_items]
      exact (openRows_opens 0).imp fun has => .inner has here (by simp [Fitting.inner])
    | _ => simp [openBody, bodyItem, Store.tableSection?, here, Opens, ofSequences]

theorem openSection_opens (q : FittingId) :
    Opens s n (s.HasFitting n q) (openSection s q) (ofSequences (sectionItem s q)) := by
  cases here : s.fitting? q with
  | none => simp [openSection, sectionItem, Store.tableSection?, here, Opens, ofSequences]
  | some f =>
    cases f with
    | tableSection attr headColumns list rest =>
      have body : bodyItem s q = (s.rowsAt rest).flatMap (·.sequences) := by
        simp only [bodyItem, Store.tableSection?, here, Option.elim_some]
      simp only [openSection, sectionItem, Store.tableSection?, here, Option.elim_some, Section.sequences, ← body,
        ofSequences_append, rowsAt_items]
      have rows : Opens s n (s.HasFitting n q) (openRows s list 0) _ :=
        (openRows_opens 0).imp fun has => .inner has here (by simp [Fitting.inner])
      refine rows.later [.body q] ?_ (fun has => List.forall_mem_singleton.mpr has) (openBody_opens q)
      rw [left_cons, left_nil, List.append_nil, slots]
    | _ => simp [openSection, sectionItem, Store.tableSection?, here, Opens, ofSequences]

theorem openGroup_opens (q : FittingId) :
    Opens s n (s.HasFitting n q) (openGroup s q) (ofSequences (groupItem s q)) := by
  cases here : s.fitting? q with
  | none => simp [openGroup, groupItem, Store.rowGroup?, here, Opens, ofSequences]
  | some f =>
    cases f with
    | rowGroup attr list =>
      simp only [openGroup, groupItem, Store.rowGroup?, here, Option.elim_some, RowGroup.sequences, rowsAt_items]
      exact (openRows_opens 0).imp fun has => .inner has here (List.mem_singleton_self _)
    | _ => simp [openGroup, groupItem, Store.rowGroup?, here, Opens, ofSequences]

theorem mem_fittings_of_rows {r : Record} {group list last : FittingId} (rows : r.rows? = some (group, list, last)) :
    group ∈ r.fittings ∧ list ∈ r.fittings ∧ last ∈ r.fittings := by
  cases r with
  | table =>
    cases rows
    simp [Record.fittings]
  | _ => cases rows

theorem opens_rows {m : NodeId} {item : FittingId → Opening} {read : FittingId → List SequenceId}
    (pick : FittingId × FittingId × FittingId → FittingId)
    (picked : ∀ {group list last : FittingId}, (s.record m).rows? = some (group, list, last) →
      pick (group, list, last) ∈ (s.record m).fittings)
    (each : ∀ q, Opens s n (s.HasFitting n q) (item q) (ofSequences (read q))) :
    Opens s n (m = n) ((s.record m).rows?.bind fun rows => item (pick rows))
      (ofSequences ((s.record m).rows?.elim [] fun rows => read (pick rows))) := by
  cases known : (s.record m).rows? with
  | none => exact rfl
  | some rows =>
    refine (each (pick rows)).imp ?_
    rintro rfl
    exact .own (picked known)

def Begun : Errand → Prop
  | node _ => False
  | _ => True

theorem opening_opens (begun : e.Begun) : Opens s n (e.Of s n) (opening s e) (slots s e) := by
  cases e with
  | node m => cases begun
  | containers list =>
    cases list with
    | nil => exact rfl
    | cons container more =>
      refine ⟨?_, fun _ => List.forall_mem_singleton.mpr trivial⟩
      rw [left_cons, left_nil, List.append_nil]
      rfl
  | blocks | content | short | long | trail => exact opens_just _
  | sequences p index =>
    rw [opening, slots]
    cases here : (s.sequencesAt p)[index]? with
    | none =>
      rw [List.drop_eq_nil_of_le (List.getElem?_eq_none_iff.mp here)]
      exact rfl
    | some q =>
      refine ⟨?_, fun has => List.forall_mem_singleton.mpr has⟩
      obtain ⟨inside, rfl⟩ := List.getElem?_eq_some_iff.mp here
      rw [left_cons, left_nil, List.append_nil, slots, List.drop_eq_getElem_cons inside]
      rfl
  | definitions p index =>
    exact fromIndex_opens definitions openDefinition_opens (fun _ => rfl) (fun _ has => has) index
  | citations p index =>
    exact fromIndex_opens citations openCitation_opens (fun _ => rfl) (fun _ has => has) index
  | cells p index => exact fromIndex_opens cells openCell_opens (fun _ => rfl) (fun _ has => has) index
  | rows p index => exact openRows_opens index
  | sections p index =>
    exact fromIndex_opens sections openSection_opens (fun _ => rfl) (fun _ has => has) index
  | body p => exact openBody_opens p
  | head m =>
    exact opens_rows (fun rows => rows.1) (fun known => (mem_fittings_of_rows known).1) openGroup_opens
  | allSections m =>
    exact opens_rows (fun rows => rows.2.1) (fun known => (mem_fittings_of_rows known).2.1)
      fun _ => fromIndex_opens sections openSection_opens (fun _ => rfl) (fun _ has => has) 0
  | foot m =>
    exact opens_rows (fun rows => rows.2.2) (fun known => (mem_fittings_of_rows known).2.2) openGroup_opens

theorem first_opens {errands : List Errand} (begun : ∀ e ∈ errands, e.Begun) :
    Opens s n (∀ e ∈ errands, e.Of s n) (first s errands) (left s errands) := by
  induction errands with
  | nil => exact rfl
  | cons e errands ih =>
    obtain ⟨here, later⟩ := List.forall_mem_cons.mp begun
    have one : Opens s n (∀ e' ∈ e :: errands, e'.Of s n) (opening s e) (slots s e) :=
      (opening_opens here).imp fun own => own e List.mem_cons_self
    exact one.later errands rfl (fun own => (List.forall_mem_cons.mp own).2)
      ((ih later).imp fun own => (List.forall_mem_cons.mp own).2)

theorem begun_below (n : NodeId) : ∀ e ∈ below s n, e.Begun := by
  unfold below
  split <;> simp [Begun]

theorem left_below (s : Store) (n : NodeId) : left s (below s n) = (s.element n).slots := by
  have definitions (list : List FittingId) :
      list.flatMap (definitionItem s) = (list.filterMap s.definition?).flatMap (·.sequences) :=
    (flatMap_filterMap ..).symm
  have citations (list : List FittingId) :
      list.flatMap (citationItem s) = (list.filterMap s.citation?).flatMap (·.sequences) :=
    (flatMap_filterMap ..).symm
  have sections (list : List FittingId) :
      list.flatMap (sectionItem s) = (list.filterMap s.tableSection?).flatMap (·.sequences) :=
    (flatMap_filterMap ..).symm
  cases here : s.record n with
  | simple e =>
    have element : s.element n = e := by
      rw [Store.element, here]
      rfl
    cases e with
    | document | figure | cite =>
      simp [below, here, element, slots, blocksOf, contentOf, ofSequences, Element.slots, Element.content?]
    | _ => simp [below, here, element, slots]
  | items kind list | orderedList numbering list =>
    simp [below, here, Store.element, Store.elementOf, slots, ofSequences, Element.slots]
  | definitionList list =>
    simp [below, here, Store.element, Store.elementOf, slots, ofSequences, Element.slots, itemsFrom, definitions]
  | table attr caption columns head list foot =>
    cases isCaption : s.caption? caption with
    | none => simp [below, here, Store.element, Store.elementOf, isCaption, Element.slots]
    | some c =>
      cases isHead : s.rowGroup? head with
      | none => simp [below, here, Store.element, Store.elementOf, isCaption, isHead, Element.slots]
      | some h =>
        cases isFoot : s.rowGroup? foot with
        | none => simp [below, here, Store.element, Store.elementOf, isCaption, isHead, isFoot, Element.slots]
        | some f =>
          simp [below, here, Store.element, Store.elementOf, isCaption, isHead, isFoot, slots, ofSequences,
            Element.slots, Table.sequences, Caption.sequences, groupItem, Record.rows?, itemsFrom, sections]
  | figure attr caption content =>
    cases isCaption : s.caption? caption with
    | none => simp [below, here, Store.element, Store.elementOf, isCaption, Element.slots]
    | some c =>
      simp [below, here, Store.element, Store.elementOf, isCaption, slots, ofSequences, Element.slots,
        Caption.sequences, contentOf]
  | cite list content =>
    simp [below, here, Store.element, Store.elementOf, slots, ofSequences, Element.slots, itemsFrom, citations,
      contentOf]

theorem below_of (s : Store) (n : NodeId) : ∀ e ∈ below s n, e.Of s n := by
  have own (p : FittingId) (member : p ∈ (s.record n).fittings) : s.HasFitting n p := .own member
  unfold below
  split <;> simp_all [Of, Record.fittings]

theorem mem_unfolded {errands : List Errand} {P : Errand → Prop} (begun : ∀ e ∈ errands, ∀ e' ∈ unfolded s e, P e') :
    ∀ e ∈ errands.flatMap (unfolded s), P e := by
  intro e member
  obtain ⟨e', inside, unfolds⟩ := List.mem_flatMap.mp member
  exact begun e' inside e unfolds

theorem left_unfolded (errands : List Errand) : left s (errands.flatMap (unfolded s)) = left s errands := by
  induction errands with
  | nil => rfl
  | cons e errands ih =>
    have here : left s (unfolded s e) = slots s e := by
      cases e with
      | node n => exact left_below s n
      | _ => exact List.append_nil _
    rw [List.flatMap_cons, left_append, here, ih, left_cons]

theorem resume_opens (n : NodeId) (errands : List Errand) :
    Opens s n (∀ e ∈ errands, e.Of s n) (resume s errands) (left s errands) := by
  have begun : ∀ e ∈ errands.flatMap (unfolded s), e.Begun := by
    refine mem_unfolded fun e _ => ?_
    cases e with
    | node m => exact begun_below m
    | _ => simp [unfolded, Begun]
  have opened := (first_opens (n := n) begun).imp fun own : ∀ e ∈ errands, e.Of s n => mem_unfolded fun e member => by
    have isOwn := own e member
    cases e with
    | node m =>
      obtain rfl : m = n := isOwn
      exact below_of s m
    | _ => simpa [unfolded] using isOwn
  rwa [left_unfolded] at opened

theorem resume_none {errands : List Errand} (done : left s errands = []) : resume s errands = none := by
  have opened := resume_opens (s := s) ⟨0⟩ errands
  cases resumed : resume s errands with
  | none => rfl
  | some o =>
    rw [resumed, done] at opened
    cases opened.1

theorem resume_some {errands : List Errand} {container : Container} {containers : List Container}
    (todo : left s errands = container :: containers) (n : NodeId) :
    ∃ more, resume s errands = some (container, more) ∧ left s more = containers ∧
      ((∀ e ∈ errands, e.Of s n) → ∀ e ∈ more, e.Of s n) := by
  have opened := resume_opens (s := s) n errands
  cases resumed : resume s errands with
  | none =>
    rw [resumed, todo] at opened
    cases opened
  | some o =>
    obtain ⟨first, more⟩ := o
    rw [resumed, todo] at opened
    obtain ⟨eq, own⟩ := opened
    obtain ⟨rfl, rfl⟩ := List.cons.inj eq
    exact ⟨more, rfl, rfl, own⟩

theorem left_of_resume_none {errands : List Errand} (resumed : resume s errands = none) : left s errands = [] := by
  have opened := resume_opens (s := s) ⟨0⟩ errands
  rw [resumed] at opened
  exact opened

theorem left_of_resume {errands more : List Errand} {container : Container}
    (resumed : resume s errands = some (container, more)) : left s errands = container :: left s more := by
  have opened := resume_opens (s := s) ⟨0⟩ errands
  rw [resumed] at opened
  exact opened.1

@[simp] theorem left_node (s : Store) (n : NodeId) : left s [.node n] = (s.element n).slots := List.append_nil _

end

section

variable {s s' : Store} {n : NodeId} {p : FittingId} {e : Errand} {errands : List Errand} (same : SameNode s s' n)
include same

theorem itemsFrom_same {read read' : FittingId → List SequenceId} (known : s.HasFitting n p)
    (each : ∀ q, s.HasFitting n q → read' q = read q) (index : Nat) :
    itemsFrom s' read' p index = itemsFrom s read p index := by
  rw [itemsFrom, itemsFrom, same.listAt known]
  exact List.flatMap_congr fun q member => each q (known.listed (List.mem_of_mem_drop member))

theorem groupItem_same (known : s.HasFitting n p) : groupItem s' p = groupItem s p := by
  rw [groupItem, groupItem, same.rowGroup? known]

theorem sectionItem_same (known : s.HasFitting n p) : sectionItem s' p = sectionItem s p := by
  rw [sectionItem, sectionItem, same.tableSection? known]

theorem slots_same (own : e.Of s n) : slots s' e = slots s e := by
  have rows {group list last : FittingId} (known : (s.record n).rows? = some (group, list, last)) :
      s.HasFitting n group ∧ s.HasFitting n list ∧ s.HasFitting n last := by
    obtain ⟨first, second, third⟩ := mem_fittings_of_rows known
    exact ⟨.own first, .own second, .own third⟩
  cases e with
  | containers => rfl
  | node m =>
    obtain rfl : m = n := own
    exact congrArg Element.slots same.element
  | blocks m =>
    obtain rfl : m = n := own
    simp only [slots, blocksOf, same.record]
  | content m =>
    obtain rfl : m = n := own
    simp only [slots, contentOf, same.record]
  | short p => simp only [slots, same.caption? own]
  | long p => simp only [slots, same.caption? own]
  | trail p => simp only [slots, same.citation? own]
  | sequences p index => simp only [slots, same.sequencesAt own]
  | definitions p index =>
    refine congrArg ofSequences (itemsFrom_same same own (fun q known => ?_) index)
    rw [definitionItem, definitionItem, same.definition? known]
  | citations p index =>
    refine congrArg ofSequences (itemsFrom_same same own (fun q known => ?_) index)
    rw [citationItem, citationItem, same.citation? known]
  | cells p index =>
    refine congrArg ofSequences (itemsFrom_same same own (fun q known => ?_) index)
    rw [cellItem, cellItem, same.cell? known]
  | rows p index =>
    refine congrArg ofSequences (itemsFrom_same same own (fun q known => ?_) index)
    rw [rowItem, rowItem, same.row? known]
  | sections p index =>
    exact congrArg ofSequences (itemsFrom_same same own (fun q known => sectionItem_same same known) index)
  | body p => simp only [slots, bodyItem, same.tableSection? own]
  | head m =>
    obtain rfl : m = n := own
    rw [slots, slots, same.record]
    cases known : (s.record m).rows? with
    | none => rfl
    | some parts => exact congrArg ofSequences (groupItem_same same (rows known).1)
  | allSections m =>
    obtain rfl : m = n := own
    rw [slots, slots, same.record]
    cases known : (s.record m).rows? with
    | none => rfl
    | some parts =>
      exact congrArg ofSequences (itemsFrom_same same (rows known).2.1 (fun q => sectionItem_same same) 0)
  | foot m =>
    obtain rfl : m = n := own
    rw [slots, slots, same.record]
    cases known : (s.record m).rows? with
    | none => rfl
    | some parts => exact congrArg ofSequences (groupItem_same same (rows known).2.2)

theorem left_same (own : ∀ e ∈ errands, e.Of s n) : left s' errands = left s errands :=
  List.flatMap_congr fun e member => slots_same same (own e member)

theorem of_same (own : e.Of s n) : e.Of s' n := by
  cases e with
  | containers => trivial
  | node | blocks | content | head | allSections | foot => exact own
  | short | long | trail | body | sequences | definitions | citations | cells | rows | sections =>
    exact SameNode.has same own

end

end DocTree.Walk.Errand
