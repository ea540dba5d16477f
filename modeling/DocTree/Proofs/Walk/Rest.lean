import DocTree.Proofs.Store.Loading
import DocTree.Proofs.Text.Mapping
import DocTree.Proofs.Walk.Course
import DocTree.Proofs.Walk.Errands
/-!
A walk in which every node is kept and nothing is edited. On a finite tree it comes to its end, from
whatever stack it goes on, and the tree is as it was.
-/

namespace DocTree.Walk

def Cursor.nodes (s : Store) : Cursor → List NodeId
  | .sequence id _ settled => settled ++ s.sequence id
  | .mapping id _ settled => settled ++ (s.mapping id).map (·.2)

def Cursor.withSettled (ns : List NodeId) : Cursor → Cursor
  | .sequence id index _ => .sequence id index ns
  | .mapping id keys _ => .mapping id keys ns

/-- The nodes that a frame has open: those in its container, and those in the containers that are to follow. -/
def Frame.nodes (s : Store) (frame : Frame) : List NodeId :=
  (frame.cursor.map (·.nodes s)).getD [] ++ (Errand.left s frame.errands).flatMap s.members

variable {ε σ : Type}

/-- A visitor that keeps every good node and edits nothing, in a kind of world that it stays in. -/
structure Rests (v : Visitor ε σ) (s : Store) (good : NodeId → Prop) (calm : World σ → Prop) :
    Prop where
  store : ∀ w, calm w → w.store = s
  offers : ∀ n w, good n → calm w → ∃ w', (v.offer n).run w = (.ok .keep, w') ∧ calm w'
  visits : ∀ n depth w, good n → calm w → ∃ w', (v.visit n depth).run w = (.ok (), w') ∧ calm w'

def GoesOn (v : Visitor ε σ) (calm : World σ → Prop) (stack stack' : List Frame) : Prop :=
  ∀ w, calm w → ∃ n calls w', Reaches v n stack w calls stack' w' ∧ calm w'

section

variable {v : Visitor ε σ} {s : Store} {good : NodeId → Prop} {calm : World σ → Prop}
  {stack stack₁ stack₂ rest : List Frame}

theorem GoesOn.refl (stack : List Frame) : GoesOn v calm stack stack :=
  fun w h => ⟨0, [], w, .refl _ _, h⟩

theorem GoesOn.trans (h : GoesOn v calm stack stack₁) (h' : GoesOn v calm stack₁ stack₂) :
    GoesOn v calm stack stack₂ := by
  intro w before
  obtain ⟨n, calls, w₁, first, between⟩ := h w before
  obtain ⟨m, later, w₂, second, after⟩ := h' w₁ between
  exact ⟨n + m, calls ++ later, w₂, first.trans second, after⟩

theorem GoesOn.of_go {frame : Frame} (rests : Rests v s good calm)
    (next : move s frame rest = .go stack) : GoesOn v calm (frame :: rest) stack := by
  intro w before
  have course : Reaches v 1 (frame :: rest) w [] stack w := .of_go (rests.store w before ▸ next)
  exact ⟨1, [], w, course, before⟩

theorem GoesOn.of_visit {frame frame' : Frame} {n : NodeId} (rests : Rests v s good calm)
    (next : move s frame rest = .visit n frame') (h : good n) :
    GoesOn v calm (frame :: rest) (.below n :: frame' :: rest) := by
  intro w before
  obtain ⟨w', visited, after⟩ := rests.visits n (rest.length + 1) w h before
  exact ⟨1, [], w', .of_visit (rests.store w before ▸ next) visited, after⟩

theorem GoesOn.of_offer {frame : Frame} {n : NodeId} {cursor : Cursor}
    {settle : Store → Option (List NodeId) → Except Rejection (Cursor × Store)}
    (rests : Rests v s good calm) (next : move s frame rest = .offer n settle)
    (kept : settle s none = .ok (cursor, s)) (h : good n) :
    GoesOn v calm (frame :: rest) ({ frame with cursor := some cursor } :: rest) := by
  intro w before
  obtain ⟨w', answered, after⟩ := rests.offers n w h before
  have first : step v frame rest w = (.ok ({ frame with cursor := some cursor } :: rest), w') := by
    have settled := rests.store w' after ▸ kept
    rw [step_eq, rests.store w before, next]
    simp only [perform, offer, answered, Reply.replacement, bind, Except.bind, settled]
    rfl
  exact ⟨1, _, w', .step first (.refl _ _), after⟩

def Passed (v : Visitor ε σ) (good : NodeId → Prop) (calm : World σ → Prop) (n : NodeId) : Prop :=
  good n ∧ ∀ rest, GoesOn v calm (.below n :: rest) rest

variable (errands : List Errand) (rest : List Frame)

theorem move_withSettled (cursor : Cursor) (n : NodeId) (ns : List NodeId) :
    move s ⟨errands, some (cursor.withSettled (n :: ns))⟩ rest =
      .visit n ⟨errands, some (cursor.withSettled ns)⟩ := by
  cases cursor <;> rfl

theorem settled_go_on (rests : Rests v s good calm) (cursor : Cursor)
    (ns : List NodeId) (passed : ∀ n ∈ ns, Passed v good calm n) :
    GoesOn v calm (⟨errands, some (cursor.withSettled ns)⟩ :: rest)
      (⟨errands, some (cursor.withSettled [])⟩ :: rest) := by
  induction ns with
  | nil => exact .refl _
  | cons n ns ih =>
    obtain ⟨h, down⟩ := passed n List.mem_cons_self
    have visit := GoesOn.of_visit rests (move_withSettled errands rest cursor n ns) h
    have later := ih fun m member => passed m (List.mem_cons_of_mem _ member)
    exact visit.trans ((down _).trans later)

theorem sequence_goes_on (rests : Rests v s good calm) (id : SequenceId)
    (passed : ∀ n ∈ s.sequence id, Passed v good calm n) (left : Nat) (index : Nat)
    (count : (s.sequence id).length - index = left) :
    GoesOn v calm (⟨errands, some (.sequence id index [])⟩ :: rest)
      (⟨errands, none⟩ :: rest) := by
  induction left generalizing index with
  | zero =>
    have beyond : (s.sequence id)[index]? = none := List.getElem?_eq_none (by omega)
    exact .of_go rests (move_past beyond)
  | succ left ih =>
    have inside : index < (s.sequence id).length := by omega
    have member := List.getElem_mem inside
    have next := List.getElem?_eq_getElem inside
    generalize (s.sequence id)[index] = n at member next
    have offer : GoesOn v calm (⟨errands, some (.sequence id index [])⟩ :: rest)
        (⟨errands, some (.sequence id (index + 1) [n])⟩ :: rest) :=
      .of_offer rests (move_member next) rfl (passed n member).1
    have visit := settled_go_on errands rest rests (.sequence id (index + 1) []) [n]
      (by simpa using passed n member)
    exact offer.trans (visit.trans (ih (index + 1) (by omega)))

theorem mapping_goes_on (rests : Rests v s good calm) (id : MappingId)
    (passed : ∀ n ∈ (s.mapping id).map (·.2), Passed v good calm n) (keys : List Text) :
    GoesOn v calm (⟨errands, some (.mapping id keys [])⟩ :: rest)
      (⟨errands, none⟩ :: rest) := by
  induction keys with
  | nil => exact .of_go rests rfl
  | cons key keys ih =>
    cases found : (s.mapping id).get? key with
    | none =>
      have skip : GoesOn v calm (⟨errands, some (.mapping id (key :: keys) [])⟩ :: rest)
          (⟨errands, some (.mapping id keys [])⟩ :: rest) :=
        .of_go rests (move_skip found)
      exact skip.trans ih
    | some n =>
      have member : n ∈ (s.mapping id).map (·.2) := List.mem_map_of_mem (f := (·.2)) (Mapping.get?_mem found)
      have offer : GoesOn v calm (⟨errands, some (.mapping id (key :: keys) [])⟩ :: rest)
          (⟨errands, some (.mapping id keys [n])⟩ :: rest) :=
        .of_offer rests (move_value found) rfl (passed n member).1
      have visit := settled_go_on errands rest rests (.mapping id keys []) [n]
        (by simpa using passed n member)
      exact offer.trans (visit.trans ih)

theorem cursor_goes_on (rests : Rests v s good calm) (cursor : Cursor)
    (passed : ∀ n ∈ cursor.nodes s, Passed v good calm n) :
    GoesOn v calm (⟨errands, some cursor⟩ :: rest)
      (⟨errands, none⟩ :: rest) := by
  cases cursor with
  | sequence id index settled =>
    simp only [Cursor.nodes, List.mem_append] at passed
    have first := settled_go_on errands rest rests (.sequence id index []) settled
      fun n member => passed n (.inl member)
    exact first.trans (sequence_goes_on errands rest rests id (fun n member => passed n (.inr member)) _ _ rfl)
  | mapping id keys settled =>
    simp only [Cursor.nodes, List.mem_append] at passed
    have first := settled_go_on errands rest rests (.mapping id keys []) settled
      fun n member => passed n (.inl member)
    exact first.trans (mapping_goes_on errands rest rests id (fun n member => passed n (.inr member)) keys)

theorem errands_go_on (rests : Rests v s good calm) {containers : List Container}
    (todo : Errand.left s errands = containers)
    (passed : ∀ m ∈ containers.flatMap s.members, Passed v good calm m) :
    GoesOn v calm (⟨errands, none⟩ :: rest) rest := by
  induction containers generalizing errands with
  | nil => exact .of_go rests (move_leave (Errand.resume_none todo))
  | cons container containers ih =>
    obtain ⟨more, next, others, _⟩ := Errand.resume_some todo ⟨0⟩
    have enter : GoesOn v calm (⟨errands, none⟩ :: rest) (⟨more, some (.enter s container)⟩ :: rest) :=
      .of_go rests (move_enter next)
    rw [List.flatMap_cons, List.forall_mem_append] at passed
    have out : GoesOn v calm (⟨more, some (.enter s container)⟩ :: rest) (⟨more, none⟩ :: rest) := by
      cases container with
      | sequence id => exact cursor_goes_on more rest rests (.sequence id 0 []) passed.1
      | mapping id => exact cursor_goes_on more rest rests (.mapping id _ []) passed.1
    exact enter.trans (out.trans (ih more others passed.2))

theorem passed_of_allBelow (rests : Rests v s good calm) {n : NodeId} (h : s.AllBelow good n) :
    Passed v good calm n := by
  induction h with
  | @intro n here _ ih =>
    have todo : Errand.left s [.node n] = (s.element n).slots := List.append_nil _
    exact ⟨here, fun rest => errands_go_on _ rest rests todo ih⟩

theorem frame_goes_on (rests : Rests v s good calm) (frame : Frame)
    (finite : ∀ n ∈ frame.nodes s, s.AllBelow good n) : GoesOn v calm (frame :: rest) rest := by
  have passed : ∀ n ∈ frame.nodes s, Passed v good calm n :=
    fun n member => passed_of_allBelow rests (finite n member)
  simp only [Frame.nodes, List.mem_append] at passed
  obtain ⟨errands, cursor⟩ := frame
  have leave : GoesOn v calm (⟨errands, none⟩ :: rest) rest :=
    errands_go_on errands rest rests rfl fun m member => passed m (.inr member)
  cases cursor with
  | none => exact leave
  | some cursor =>
    have inner := cursor_goes_on errands rest rests cursor
      fun n member => passed n (.inl member)
    exact inner.trans leave

/-- A walk at rest comes to its end if all that it has open is finite. -/
theorem stack_goes_on (rests : Rests v s good calm) (stack : List Frame)
    (finite : ∀ frame ∈ stack, ∀ n ∈ frame.nodes s, s.AllBelow good n) : GoesOn v calm stack [] := by
  induction stack with
  | nil => exact .refl _
  | cons frame rest ih =>
    have first := frame_goes_on rest rests frame (finite frame List.mem_cons_self)
    exact first.trans (ih fun frame' member => finite frame' (List.mem_cons_of_mem _ member))

theorem root_goes_on (rests : Rests v s good calm) {root : Root}
    (finite : ∀ n ∈ s.top root, s.AllBelow good n) : GoesOn v calm [.ofRoot root] [] := by
  refine stack_goes_on rests _ fun frame member n inside => finite n ?_
  obtain rfl := List.mem_singleton.mp member
  cases root with
  | node id => simpa [Store.top, Store.children, Frame.nodes, Frame.ofRoot, Frame.below, Errand.slots] using inside
  | list id => simpa [Store.top, Frame.nodes, Frame.ofRoot, Cursor.nodes] using inside

/-- A walk at rest through a whole tree comes to its end. -/
theorem rests_to_end (rests : Rests v s good calm) {root : Root}
    (finite : ∀ n ∈ s.top root, s.AllBelow good n) {w : World σ} (calmly : calm w) :
    ∃ bound w', calm w' ∧ ∀ fuel, bound ≤ fuel → run v fuel [.ofRoot root] w = (.ok (), w') := by
  obtain ⟨n, calls, w', course, after⟩ := root_goes_on rests finite w calmly
  exact ⟨n, w', after, fun fuel enough => run_eq_ok_iff.mpr ⟨n, enough, calls, course⟩⟩

end

end DocTree.Walk
