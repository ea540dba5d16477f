import DocTree.Proofs.Stateful
import DocTree.Proofs.Store.Listed
import DocTree.Proofs.Walk.Rest
import DocTree.Walk.Basic
/-!
The walk that keeps every node visits them in pre-order. What the frames of a stack have still ahead of
them is a listing by recursion; a visit takes the first node off it, and every other step leaves it.
-/

namespace DocTree

/-- What a value adds to a collection: nothing, its members if it is a list, or itself. -/
def Value.added {β : Type} : Value β → List (Value β)
  | none => []
  | list items => items
  | v => [v]

namespace Trial

variable {ε ε' σ α β : Type}

theorem run_bind (x : Trial ε σ α) (f : α → Trial ε σ β) (w : World σ) :
    (x >>= f).run w = match x.run w with
      | (.ok a, w) => (f a).run w
      | (.error e, w) => (.error e, w) := by
  change ExceptT.bindCont f (x.run w).1 (x.run w).2 = _
  cases x.run w with
  | mk result w' => cases result <;> rfl

theorem run_adapt (f : ε → ε') (x : Trial ε σ α) (w : World σ) :
    Trial.run (ExceptT.adapt f x) w = ((x.run w).1.mapError f, (x.run w).2) := rfl

theorem run_ofFunction (f : World σ → Except ε α × World σ) (w : World σ) : (ofFunction f).run w = f w :=
  rfl

end Trial

namespace Walk

def Cursor.ahead (s : Store) : Cursor → List NodeId
  | .sequence id index settled => settled ++ (s.sequence id).drop index
  | .mapping id keys settled => settled ++ keys.filterMap (s.mapping id).get?

/-- The nodes that a frame has still to visit: those in its container, and those in the containers that
it has not opened. -/
def Frame.ahead (s : Store) (frame : Frame) : List NodeId :=
  (frame.cursor.map (·.ahead s)).getD [] ++ (Errand.left s frame.errands).flatMap s.members

/-- The listing that a stack has ahead of it. No mapping that is in an open node has a key twice. -/
inductive Ahead (s : Store) : List Frame → List (NodeId × Nat) → Prop
  | nil : Ahead s [] []
  | cons {frame : Frame} {rest : List Frame} {inside later : List (NodeId × Nat)}
      (keyed : ∀ id, .mapping id ∈ Errand.left s frame.errands → (s.mapping id).keys.Nodup)
      (here : s.Listed (rest.length + 1) (frame.ahead s) inside) (outside : Ahead s rest later) :
      Ahead s (frame :: rest) (inside ++ later)

section

variable {s : Store} {frame frame' : Frame} {rest stack : List Frame} {n : NodeId}

theorem ahead_below (s : Store) (n : NodeId) : (Frame.below n).ahead s = s.children n := by
  rw [Frame.ahead, Frame.below, Errand.left_node]
  rfl

theorem ahead_ofRoot (s : Store) (root : Root) : (Frame.ofRoot root).ahead s = s.top root := by
  cases root with
  | node id => exact ahead_below s id
  | list id => exact List.append_nil _

theorem ahead_enter {errands more : List Errand} {container : Container}
    (keyed : ∀ id, .mapping id ∈ Errand.left s errands → (s.mapping id).keys.Nodup)
    (next : Errand.resume s errands = some (container, more)) :
    Frame.ahead s ⟨more, some (.enter s container)⟩ = Frame.ahead s ⟨errands, none⟩ := by
  have split := Errand.left_of_resume next
  cases container with
  | sequence id => simp [Frame.ahead, Cursor.enter, Cursor.ahead, split, Store.members]
  | mapping id =>
    have distinct := keyed id (split ▸ List.mem_cons_self)
    simp [Frame.ahead, Cursor.enter, Cursor.ahead, split, Store.members, Mapping.filterMap_get? distinct]

theorem ahead_leave {errands : List Errand} (next : Errand.resume s errands = none) :
    Frame.ahead s ⟨errands, none⟩ = [] := by
  simp [Frame.ahead, Errand.left_of_resume_none next]

theorem ahead_visit (next : move s frame rest = .visit n frame') :
    frame.ahead s = n :: frame'.ahead s := by
  obtain ⟨errands, cursor⟩ := frame
  match cursor with
  | none =>
    cases opened : Errand.resume s errands with
    | none => simp [move_leave opened] at next
    | some o => simp [move_enter opened] at next
  | some (.sequence id index (m :: settled)) =>
    cases next
    rfl
  | some (.mapping id keys (m :: settled)) =>
    cases next
    rfl
  | some (.sequence id index []) =>
    cases member : (s.sequence id)[index]? with
    | none => simp [move_past member] at next
    | some m => simp [move_member member] at next
  | some (.mapping id [] []) => cases next
  | some (.mapping id (key :: keys) []) =>
    cases value : (s.mapping id).get? key with
    | none => simp [move_skip value] at next
    | some m => simp [move_value value] at next

theorem errands_of_visit (next : move s frame rest = .visit n frame') : frame'.errands = frame.errands := by
  unfold move at next
  repeat' split at next
  all_goals cases next
  all_goals rfl

theorem ahead_offer {settle : Store → Option (List NodeId) → Except Rejection (Cursor × Store)}
    (next : move s frame rest = .offer n settle) :
    ∃ cursor, settle s none = .ok (cursor, s) ∧
      Frame.ahead s { frame with cursor := some cursor } = frame.ahead s := by
  obtain ⟨errands, cursor⟩ := frame
  rcases offered?_cases (offered?_of_move next) with
    ⟨id, index, isCursor, member⟩ | ⟨id, key, keys, isCursor, value⟩
  · obtain rfl := isCursor
    rw [move_member member] at next
    cases next
    obtain ⟨inside, here⟩ := List.getElem?_eq_some_iff.mp member
    have split := List.drop_eq_getElem_cons inside
    rw [here] at split
    exact ⟨.sequence id (index + 1) [n], rfl, by simp [Frame.ahead, Cursor.ahead, split]⟩
  · obtain rfl := isCursor
    rw [move_value value] at next
    cases next
    exact ⟨.mapping id keys [n], rfl, by simp [Frame.ahead, Cursor.ahead, value]⟩

theorem ahead_go {all : List (NodeId × Nat)} (next : move s frame rest = .go stack)
    (ahead : Ahead s (frame :: rest) all) : Ahead s stack all := by
  cases ahead with
  | @cons _ _ inside later keyed here outside =>
  obtain ⟨errands, cursor⟩ := frame
  match cursor with
  | none =>
    cases opened : Errand.resume s errands with
    | none =>
      rw [move_leave opened] at next
      cases next
      rw [ahead_leave opened] at here
      cases here
      exact outside
    | some o =>
      rw [move_enter opened] at next
      cases next
      refine .cons (fun id member => keyed id ?_) (ahead_enter keyed opened ▸ here) outside
      rw [Errand.left_of_resume opened]
      exact List.mem_cons_of_mem _ member
  | some (.sequence id index (m :: settled)) => cases next
  | some (.mapping id keys (m :: settled)) => cases next
  | some (.sequence id index []) =>
    cases member : (s.sequence id)[index]? with
    | none =>
      rw [move_past member] at next
      cases next
      have beyond : (s.sequence id).drop index = [] :=
        List.drop_eq_nil_of_le (List.getElem?_eq_none_iff.mp member)
      refine .cons keyed ?_ outside
      simpa [Frame.ahead, Cursor.ahead, beyond] using here
    | some m => simp [move_member member] at next
  | some (.mapping id [] []) =>
    cases next
    exact .cons keyed here outside
  | some (.mapping id (key :: keys) []) =>
    cases value : (s.mapping id).get? key with
    | none =>
      rw [move_skip value] at next
      cases next
      refine .cons keyed ?_ outside
      simpa [Frame.ahead, Cursor.ahead, value] using here
    | some m => simp [move_value value] at next

end

theorem step_keeping {s : Store} {frame : Frame} {rest : List Frame} {all : List (NodeId × Nat)}
    (keyed : ∀ entry ∈ all, s.KeyedAt entry.1) (ahead : Ahead s (frame :: rest) all) : ∃ stack,
    (∃ n depth later, all = (n, depth) :: later ∧ Ahead s stack later ∧
      ∀ {ε σ : Type} (tell : NodeId → Nat → Effect ε σ Unit) (w : World σ), w.store = s →
        step ⟨keepAll, tell⟩ frame rest w = match (tell n depth).run w with
          | (.error e, w) => (.error (.raised e), w)
          | (.ok (), w) => (.ok stack, w)) ∨
    Ahead s stack all ∧
      ∀ {ε σ : Type} (tell : NodeId → Nat → Effect ε σ Unit) (w : World σ), w.store = s →
        step ⟨keepAll, tell⟩ frame rest w = (.ok stack, w) := by
  cases next : move s frame rest with
  | visit n frame' =>
    refine ⟨.below n :: frame' :: rest, .inl ?_⟩
    cases ahead with
    | cons own here outside =>
    rw [ahead_visit next] at here
    cases here with
    | @cons _ _ _ inside later below others =>
    have owner : frame'.errands = frame.errands := errands_of_visit next
    refine ⟨n, rest.length + 1, _, by rw [List.cons_append, List.append_assoc], ?_, ?_⟩
    · refine .cons ?_ (ahead_below s n ▸ below) (.cons (owner ▸ own) others outside)
      exact fun id member => keyed (n, rest.length + 1) List.mem_cons_self id (Errand.left_node s n ▸ member)
    · intro ε σ tell w known
      rw [step_eq, known, next]
      rfl
  | offer n settle =>
    obtain ⟨cursor, kept, same⟩ := ahead_offer next
    refine ⟨{ frame with cursor := some cursor } :: rest, .inr ⟨?_, ?_⟩⟩
    · cases ahead with
      | cons own here outside => exact .cons own (same ▸ here) outside
    · intro ε σ tell w known
      rw [step_eq, known, next]
      have answered : ((keepAll n : Effect ε σ Reply)).run w = (.ok .keep, w) := rfl
      simp only [perform, offer, answered, Reply.replacement, bind, Except.bind, known, kept]
      cases w
      cases known
      rfl
  | go stack =>
    refine ⟨stack, .inr ⟨ahead_go next ahead, ?_⟩⟩
    intro ε σ tell w known
    rw [step_eq, known, next]
    rfl

section

variable {ε σ : Type} {s : Store}

def tellAll (tell : NodeId → Nat → Effect ε σ Unit) (all : List (NodeId × Nat)) : Effect ε σ Unit :=
  all.forM fun (n, depth) => tell n depth

theorem tellAll_cons (tell : NodeId → Nat → Effect ε σ Unit) (n : NodeId) (depth : Nat)
    (later : List (NodeId × Nat)) :
    tellAll tell ((n, depth) :: later) = tell n depth >>= fun _ => tellAll tell later := rfl

/-- A walk that keeps every node tells of what is ahead, in order, if it has the steps to come to its
end when nobody listens. -/
theorem run_tells {tell : NodeId → Nat → Effect ε σ Unit}
    (calm : ∀ n depth w, w.store = s → ((tell n depth).run w).2.store = s) {fuel : Nat}
    {stack : List Frame} {all : List (NodeId × Nat)} (keyed : ∀ entry ∈ all, s.KeyedAt entry.1)
    (ahead : Ahead s stack all)
    (ends : (run (⟨keepAll, ignore⟩ : Visitor Empty Unit) fuel stack ⟨s, ()⟩).1.isOk)
    (w : World σ) (known : w.store = s) :
    run ⟨keepAll, tell⟩ fuel stack w = Trial.run (ExceptT.adapt .raised (tellAll tell all)) w := by
  induction fuel generalizing stack all w with
  | zero =>
    cases ahead with
    | nil => rfl
    | cons => cases ends
  | succ fuel ih =>
    cases stack with
    | nil =>
      cases ahead
      rfl
    | cons frame rest =>
      obtain ⟨stack, ⟨n, depth, later, rfl, ahead', steps⟩ | ⟨ahead', steps⟩⟩ := step_keeping keyed ahead
      · have still := calm n depth w known
        rw [run, steps tell w known, Trial.run_adapt, tellAll_cons, Trial.run_bind]
        rw [run, steps ignore _ rfl] at ends
        generalize (tell n depth).run w = heard at still ⊢
        obtain ⟨answer, w'⟩ := heard
        cases answer with
        | error e => rfl
        | ok _ => exact ih (List.forall_mem_cons.mp keyed).2 ahead' ends w' still
      · rw [run, steps tell w known]
        rw [run, steps ignore _ rfl] at ends
        exact ih keyed ahead' ends w known

/-- With enough fuel, a walk that keeps every node of a finite tree tells of its listing. -/
theorem tells {root : Root} (acyclic : s.Acyclic root) (keyed : s.KeyedIn root) {all : List (NodeId × Nat)}
    (listed : s.Listed 1 (s.top root) all) : ∃ bound, ∀ fuel, bound ≤ fuel →
      ∀ {ε σ : Type} (tell : NodeId → Nat → Effect ε σ Unit),
        (∀ n depth w, w.store = s → ((tell n depth).run w).2.store = s) → ∀ w, w.store = s →
          run ⟨keepAll, tell⟩ fuel [.ofRoot root] w =
            Trial.run (ExceptT.adapt .raised (tellAll tell all)) w := by
  have rests : Rests (⟨keepAll, ignore⟩ : Visitor Empty Unit) s (fun _ => True) fun w => w.store = s :=
    ⟨fun _ known => known, fun _ w _ known => ⟨w, rfl, known⟩, fun _ _ w _ known => ⟨w, rfl, known⟩⟩
  obtain ⟨bound, w', _, ended⟩ := rests_to_end rests acyclic (w := ⟨s, ()⟩) rfl
  refine ⟨bound, fun fuel enough ε σ tell calm w known => ?_⟩
  have top : ∀ id, .mapping id ∈ Errand.left s (Frame.ofRoot root).errands → (s.mapping id).keys.Nodup := by
    intro id member
    cases root with
    | node n => exact keyed.top n rfl id (Errand.left_node s n ▸ member)
    | list q => cases member
  have ahead : Ahead s [.ofRoot root] (all ++ []) := .cons top (ahead_ofRoot s root ▸ listed) .nil
  rw [List.append_nil] at ahead
  exact run_tells calm (fun entry member => keyed.below entry.1 (listed.way member)) ahead
    (by rw [ended fuel enough]; rfl) w known

theorem tellAll_noteNode (all earlier : List (NodeId × Nat)) :
    (tellAll noteNode all).run ⟨s, earlier⟩ = (.ok (), ⟨s, all.reverse ++ earlier⟩) := by
  induction all generalizing earlier with
  | nil => rfl
  | cons first later ih =>
    rw [tellAll_cons, Trial.run_bind, List.reverse_cons, List.append_assoc]
    exact ih (first :: earlier)

theorem lists_within {root : Root} (acyclic : s.Acyclic root) (keyed : s.KeyedIn root) {all : List (NodeId × Nat)}
    (listed : s.Listed 1 (s.top root) all) : ∃ bound, ∀ fuel, bound ≤ fuel →
      run ⟨keepAll, noteNode⟩ fuel [.ofRoot root] ⟨s, []⟩ = (.ok (), ⟨s, all.reverse⟩) ∧
        listing fuel s root = all := by
  obtain ⟨bound, walks⟩ := tells acyclic keyed listed
  refine ⟨bound, fun fuel enough => ?_⟩
  have walked : run ⟨keepAll, noteNode⟩ fuel [.ofRoot root] ⟨s, []⟩ = (.ok (), ⟨s, all.reverse⟩) := by
    rw [walks fuel enough noteNode (fun _ _ _ known => known) ⟨s, []⟩ rfl, Trial.run_adapt,
      tellAll_noteNode, List.append_nil]
    rfl
  exact ⟨walked, by rw [listing, walked, List.reverse_reverse]⟩

theorem lists {root : Root} (acyclic : s.Acyclic root) (keyed : s.Keyed) {all : List (NodeId × Nat)}
    (listed : s.Listed 1 (s.top root) all) : ∃ bound, ∀ fuel, bound ≤ fuel →
      run ⟨keepAll, noteNode⟩ fuel [.ofRoot root] ⟨s, []⟩ = (.ok (), ⟨s, all.reverse⟩) ∧
        listing fuel s root = all :=
  lists_within acyclic (keyed.within root) listed

def gather {α β : Type} (results : α → List β) (f : NodeId → Effect ε σ α) :
    List NodeId → Effect ε σ (List β)
  | [] => return []
  | n :: ns => do
    let answer ← f n
    let later ← gather results f ns
    return results answer ++ later

def EditsNothing {α : Type} (s : Store) (f : NodeId → Effect ε σ α) : Prop :=
  ∀ n w, w.store = s → ((f n).run w).2.store = s

section

variable {α β : Type} {results : α → List β} {f : NodeId → Effect ε σ α}

theorem EditsNothing.map {γ : Type} {s : Store} (idle : EditsNothing s f) (g : α → γ) :
    EditsNothing s fun n => g <$> f n := by
  intro n w known
  have still := idle n w known
  simp only [map_eq_pure_bind, Trial.run_bind]
  generalize (f n).run w = asked at still ⊢
  obtain ⟨_ | _, _⟩ := asked
  · exact still
  · exact still

theorem EditsNothing.gather {s : Store} (idle : EditsNothing s f) (results : α → List β)
    (ns : List NodeId) {w : World σ} (known : w.store = s) :
    ((gather results f ns).run w).2.store = s := by
  induction ns generalizing w with
  | nil => exact known
  | cons n ns ih =>
    have still := idle n w known
    rw [Walk.gather, Trial.run_bind]
    generalize (f n).run w = asked at still ⊢
    obtain ⟨answer, w₁⟩ := asked
    cases answer with
    | error e => exact still
    | ok answer =>
      have later := ih still
      simp only [Trial.run_bind]
      generalize (Walk.gather results f ns).run w₁ = gathered at later ⊢
      obtain ⟨_ | _, _⟩ := gathered
      · exact later
      · exact later

theorem gather_append (ns ms : List NodeId) : gather results f (ns ++ ms) = (do
    let first ← gather results f ns
    let later ← gather results f ms
    return first ++ later) := by
  induction ns with
  | nil => simp [gather]
  | cons n ns ih => simp only [List.cons_append, gather, ih, bind_assoc, pure_bind, List.append_assoc]

theorem gather_map {γ : Type} (g : α → γ) (results : γ → List β) (ns : List NodeId) :
    gather results (fun n => g <$> f n) ns = gather (fun a => results (g a)) f ns := by
  induction ns with
  | nil => rfl
  | cons n ns ih => simp [gather, ih]

end

theorem results_ofValue {β : Type} (v : Value β) : (Answer.ofValue v).results = v.added := by
  cases v <;> rfl

theorem run_noting {β : Type} (f : NodeId → Effect ε σ (Answer β)) (n : NodeId) (w : World (σ × List β)) :
    (noting f n).run w = match (f n).run ⟨w.store, w.state.1⟩ with
      | (.ok answer, ⟨store, state⟩) => (.ok (), ⟨store, state, answer.results.reverse ++ w.state.2⟩)
      | (.error e, ⟨store, state⟩) => (.error e, ⟨store, state, w.state.2⟩) := rfl

theorem tellAll_noting {β : Type} (f : NodeId → Effect ε σ (Answer β)) (all : List (NodeId × Nat))
    (w : World σ) (noted : List β) :
    match (gather Answer.results f (all.map (·.1))).run w with
    | (.ok found, w') => (tellAll (fun n _ => noting f n) all).run ⟨w.store, w.state, noted⟩ =
        (.ok (), ⟨w'.store, w'.state, found.reverse ++ noted⟩)
    | (.error e, w') => ∃ noted', (tellAll (fun n _ => noting f n) all).run ⟨w.store, w.state, noted⟩ =
        (.error e, ⟨w'.store, w'.state, noted'⟩) := by
  induction all generalizing w noted with
  | nil => rfl
  | cons first later ih =>
    obtain ⟨n, depth⟩ := first
    rw [tellAll_cons, Trial.run_bind, List.map_cons, gather, Trial.run_bind]
    rw [run_noting]
    generalize (f n).run w = asked
    obtain ⟨answer, w₁⟩ := asked
    cases answer with
    | error e => exact ⟨noted, rfl⟩
    | ok answer =>
      have rest := ih w₁ (answer.results.reverse ++ noted)
      simp only [Trial.run_bind]
      generalize (gather Answer.results f (later.map (·.1))).run w₁ = gathered at rest ⊢
      obtain ⟨found, w₂⟩ := gathered
      cases found with
      | error e => exact rest
      | ok found =>
        refine rest.trans ?_
        simp

/-- With enough fuel, a query of a finite tree gathers the answers of the nodes of its listing. -/
theorem query_gathers {s : Store} {root : Root} (acyclic : s.Acyclic root) (keyed : s.Keyed)
    {all : List (NodeId × Nat)} (listed : s.Listed 1 (s.top root) all) : ∃ bound, ∀ fuel, bound ≤ fuel →
      ∀ {ε σ β : Type} (f : NodeId → Effect ε σ (Answer β)), EditsNothing s f → ∀ w, w.store = s →
        query fuel f root w =
          Trial.run (ExceptT.adapt .raised (gather Answer.results f (all.map (·.1)))) w := by
  obtain ⟨bound, walks⟩ := tells acyclic (keyed.within root) listed
  refine ⟨bound, fun fuel enough ε σ β f idle w known => ?_⟩
  have calm : ∀ n (depth : Nat) (w : World (σ × List β)), w.store = s →
      ((noting f n).run w).2.store = s := by
    intro n _ w known
    have still := idle n ⟨w.store, w.state.1⟩ known
    rw [run_noting]
    generalize (f n).run ⟨w.store, w.state.1⟩ = asked at still ⊢
    obtain ⟨_ | _, _⟩ := asked
    · exact still
    · exact still
  have noted := tellAll_noting f all w []
  have walk := walks fuel enough (fun n _ => noting f n) calm ⟨w.store, w.state, []⟩ known
  rw [query, forEach, walk, Trial.run_adapt, Trial.run_adapt]
  generalize (gather Answer.results f (all.map (·.1))).run w = gathered at noted ⊢
  obtain ⟨found, w'⟩ := gathered
  cases found with
  | error e =>
    obtain ⟨noted', told⟩ := noted
    rw [told]
    rfl
  | ok found =>
    have told : (tellAll (fun n _ => noting f n) all).run ⟨w.store, w.state, []⟩ =
        (.ok (), ⟨w'.store, w'.state, found.reverse ++ []⟩) := noted
    rw [told]
    simp [Except.mapError]

theorem queryValues_gathers {s : Store} {root : Root} (acyclic : s.Acyclic root) (keyed : s.Keyed)
    {all : List (NodeId × Nat)} (listed : s.Listed 1 (s.top root) all) : ∃ bound, ∀ fuel, bound ≤ fuel →
      ∀ {ε σ β : Type} (f : NodeId → Effect ε σ (Value β)), EditsNothing s f → ∀ w, w.store = s →
        queryValues fuel f root w =
          Trial.run (ExceptT.adapt .raised (gather Value.added f (all.map (·.1)))) w := by
  obtain ⟨bound, gathers⟩ := query_gathers acyclic keyed listed
  refine ⟨bound, fun fuel enough ε σ β f idle w known => ?_⟩
  have asked := gathers fuel enough (fun n => Answer.ofValue <$> f n) (idle.map _) w known
  rw [gather_map] at asked
  simp only [results_ofValue] at asked
  exact asked

theorem queryValues_append {s : Store} {both first second : SequenceId} (acyclic : s.Acyclic (.list both))
    (keyed : s.Keyed) (joined : s.sequence both = s.sequence first ++ s.sequence second) :
    ∃ bound, ∀ fuel, bound ≤ fuel →
      ∀ {ε σ β : Type} (f : NodeId → Effect ε σ (Value β)), EditsNothing s f → ∀ w, w.store = s →
        queryValues fuel f (.list both) w = Trial.run (do
          let found ← Trial.ofFunction (queryValues fuel f (.list first))
          let more ← Trial.ofFunction (queryValues fuel f (.list second))
          return found ++ more) w := by
  have top : s.top (.list both) = s.top (.list first) ++ s.top (.list second) := joined
  have ofFirst : s.Acyclic (.list first) := fun n member =>
    acyclic n (top ▸ List.mem_append_left _ member)
  have ofSecond : s.Acyclic (.list second) := fun n member =>
    acyclic n (top ▸ List.mem_append_right _ member)
  obtain ⟨one, listedFirst⟩ := ofFirst.listed 1
  obtain ⟨two, listedSecond⟩ := ofSecond.listed 1
  have listed : s.Listed 1 (s.top (.list both)) (one ++ two) :=
    top ▸ listedFirst.append listedSecond
  obtain ⟨bound, whole⟩ := queryValues_gathers acyclic keyed listed
  obtain ⟨bound₁, left⟩ := queryValues_gathers ofFirst keyed listedFirst
  obtain ⟨bound₂, right⟩ := queryValues_gathers ofSecond keyed listedSecond
  refine ⟨bound + bound₁ + bound₂, fun fuel enough ε σ β f idle w known => ?_⟩
  -- The second query finds the tree as it was, whatever the first has done to the state.
  have still := idle.gather Value.added (one.map (·.1)) known
  rw [whole fuel (by omega) f idle w known, Trial.run_adapt, List.map_append, gather_append,
    Trial.run_bind, Trial.run_bind, Trial.run_ofFunction, left fuel (by omega) f idle w known,
    Trial.run_adapt]
  generalize (gather Value.added f (one.map (·.1))).run w = found at still ⊢
  obtain ⟨result, w₁⟩ := found
  cases result with
  | error e => rfl
  | ok found =>
    simp only [Except.mapError, Trial.run_bind, Trial.run_ofFunction]
    rw [right fuel (by omega) f idle w₁ still, Trial.run_adapt]
    generalize (gather Value.added f (two.map (·.1))).run w₁ = more
    obtain ⟨_ | _, _⟩ := more
    · rfl
    · rfl

/-- A walk that keeps every node of a finite tree, however much of it is shared, comes to its end,
leaves the tree as it is, and lists the nodes below the root in pre-order with their depths. A query
gathers, in the order of that list, what a function that edits nothing finds at each node; over the
members of two lists it brings what it brings over the one and then over the other. -/
theorem visits_in_preorder {s : Store} {root : Root} (acyclic : s.Acyclic root) (keyed : s.Keyed) :
    ∃ all, s.Listed 1 (s.top root) all ∧
      (∃ bound, ∀ fuel, bound ≤ fuel →
        run ⟨keepAll, noteNode⟩ fuel [.ofRoot root] ⟨s, []⟩ = (.ok (), ⟨s, all.reverse⟩) ∧
        listing fuel s root = all ∧
        ∀ {ε σ β : Type} (f : NodeId → Effect ε σ (Value β)), EditsNothing s f → ∀ w, w.store = s →
          queryValues fuel f root w =
            Trial.run (ExceptT.adapt .raised (gather Value.added f (all.map (·.1)))) w) ∧
      ∀ {both first second : SequenceId}, root = .list both →
        s.sequence both = s.sequence first ++ s.sequence second → ∃ bound, ∀ fuel, bound ≤ fuel →
          ∀ {ε σ β : Type} (f : NodeId → Effect ε σ (Value β)), EditsNothing s f → ∀ w, w.store = s →
            queryValues fuel f root w = Trial.run (do
              let found ← Trial.ofFunction (queryValues fuel f (.list first))
              let more ← Trial.ofFunction (queryValues fuel f (.list second))
              return found ++ more) w := by
  obtain ⟨all, listed⟩ := acyclic.listed 1
  refine ⟨all, listed, ?_, ?_⟩
  · obtain ⟨bound, walks⟩ := lists acyclic keyed listed
    obtain ⟨bound', gathers⟩ := queryValues_gathers acyclic keyed listed
    refine ⟨bound + bound', fun fuel enough => ?_⟩
    obtain ⟨walked, isListed⟩ := walks fuel (by omega)
    exact ⟨walked, isListed, gathers fuel (by omega)⟩
  · rintro both first second rfl joined
    exact queryValues_append acyclic keyed joined

end

/-- A document whose two paragraphs are one and the same, with a title that has the same word. -/
def refrain : Store :=
  .ofElements [.text .str "a", .wrap .metaInlines ⟨0⟩, .wrap .para ⟨0⟩, .document [1, 23] ⟨0⟩ ⟨1⟩]
    [[⟨0⟩], [⟨2⟩, ⟨2⟩]] [[("title", ⟨1⟩)]]

def ask (n : NodeId) : Effect Empty Unit (Value Unit) := do
  match (← Effect.store).element n with
  | .text _ t => return .list [.text t, .none]
  | .wrap .para _ => return .tuple []
  | _ => return .none

theorem refrain_visited : refrain.Acyclic (.node ⟨3⟩) ∧ refrain.Keyed ∧ EditsNothing refrain ask ∧
    ∃ bound, ∀ fuel, bound ≤ fuel →
      listing fuel refrain (.node ⟨3⟩) =
        [(⟨1⟩, 1), (⟨0⟩, 2), (⟨2⟩, 1), (⟨0⟩, 2), (⟨2⟩, 1), (⟨0⟩, 2)] ∧
      (queryValues fuel ask (.node ⟨3⟩) ⟨refrain, ()⟩).1 = .ok
        [.text "a", .none, .tuple [], .text "a", .none, .tuple [], .text "a", .none] := by
  have older : ∀ i < refrain.records.size, ∀ m ∈ refrain.children ⟨i⟩, m.index < i := by decide
  have acyclic : refrain.Acyclic (.node ⟨3⟩) := fun n _ => Store.finite_of_older older
  have keyed : refrain.Keyed := by decide
  have idle : EditsNothing refrain ask := by
    intro n w known
    change ((match w.store.element n with
      | .text _ t => pure (.list [.text t, .none])
      | .wrap .para _ => pure (.tuple [])
      | _ => pure .none : Effect Empty Unit (Value Unit)).run w).2.store = refrain
    split
    · exact known
    · exact known
    · exact known
  obtain ⟨all, listed, ⟨bound, walks⟩, _⟩ := visits_in_preorder acyclic keyed
  have word : refrain.Listed 2 [⟨0⟩] ((⟨0⟩, 2) :: ([] ++ [])) := .cons (.nil 3) (.nil 2)
  obtain rfl := listed.unique (.cons word (.cons word (.cons word (.nil 1))))
  refine ⟨acyclic, keyed, idle, bound, fun fuel enough => ?_⟩
  obtain ⟨_, listing, gathers⟩ := walks fuel enough
  refine ⟨listing, ?_⟩
  rw [gathers ask idle ⟨refrain, ()⟩ rfl]
  rfl

end Walk

end DocTree
