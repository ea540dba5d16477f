import DocTree.Filter.Build
import DocTree.Proofs.Filter.Passes
/-!
Filters one after the other. Their passes make up those of the filter that has the actions of both, with
the same calls, provided that all are called with the same metadata. A document keeps its metadata
mapping unless an action gives it another one: a walk edits containers only.
-/

namespace DocTree

variable {ε σ : Type}

namespace Walk

open Store (SameElements)

theorem settleSequence_elements (s : Store) (id : SequenceId) (index : Nat) (n : NodeId)
    (ns : Option (List NodeId)) : SameElements s (settleSequence s id index n ns).2 := by
  cases ns <;> exact ⟨rfl, rfl⟩

theorem settleMapping_elements {s s' : Store} {id : MappingId} {kind : Kind} {key : Text}
    {keys : List Text} {n : NodeId} {ns : Option (List NodeId)} {cursor : Cursor}
    (settled : settleMapping s id kind key keys n ns = .ok (cursor, s')) : SameElements s s' := by
  match ns, settled with
  | none, rfl | some [], rfl | some [_], rfl => exact ⟨rfl, rfl⟩

theorem move_settles {s : Store} {frame : Frame} {rest : List Frame} {n : NodeId}
    {settle : Store → Option (List NodeId) → Except Rejection (Cursor × Store)}
    (next : move s frame rest = .offer n settle) {s₁ s₂ : Store} {ns : Option (List NodeId)}
    {cursor : Cursor} (settled : settle s₁ ns = .ok (cursor, s₂)) : SameElements s₁ s₂ := by
  rcases offered?_cases (offered?_of_move next) with ⟨id, index, isCursor, member⟩ | ⟨id, key, keys, isCursor, value⟩
  · obtain ⟨errands, _⟩ := frame
    obtain rfl := isCursor
    rw [move_member member] at next
    cases next
    have store : (settleSequence s₁ id index n ns).2 = s₂ := congrArg (·.2) (Except.ok.inj settled)
    rw [← store]
    exact settleSequence_elements s₁ id index n ns
  · obtain ⟨errands, _⟩ := frame
    obtain rfl := isCursor
    rw [move_value value] at next
    cases next
    exact settleMapping_elements settled

section

variable {action : NodeId → Effect ε σ Reply} {P : Store → Prop}

theorem step_keeps (ofElements : ∀ {s s' : Store}, SameElements s s' → P s → P s')
    (acts : ∀ n w, P w.store → P ((action n).run w).2.store) (frame : Frame) (rest : List Frame)
    {w : World σ} (kept : P w.store) : P (step ⟨action, ignore⟩ frame rest w).2.store := by
  rw [step_eq]
  cases next : move w.store frame rest with
  | visit | go => exact kept
  | offer n settle =>
    have called := acts n w kept
    simp only [perform, offer]
    generalize (action n).run w = x at called ⊢
    obtain ⟨answer, w₁⟩ := x
    cases answer with
    | error e => exact called
    | ok reply =>
      simp only
      cases reply.replacement (w.store.element n).kind with
      | error r => exact called
      | ok ns =>
        cases settled : settle w₁.store ns with
        | error r =>
          simp only [bind, Except.bind, settled]
          exact called
        | ok place =>
          simp only [bind, Except.bind, settled]
          exact ofElements (move_settles next settled) called

theorem transform_keeps (ofElements : ∀ {s s' : Store}, SameElements s s' → P s → P s')
    (acts : ∀ n w, P w.store → P ((action n).run w).2.store) (fuel : Nat) (root : Root) {w : World σ}
    (kept : P w.store) : P (transform fuel action root w).2.store := by
  unfold transform
  generalize [Frame.ofRoot root] = stack
  induction fuel generalizing stack w with
  | zero => cases stack <;> exact kept
  | succ fuel ih =>
    cases stack with
    | nil => exact kept
    | cons frame rest =>
      have first := step_keeps ofElements acts frame rest kept
      rw [run]
      generalize step ⟨action, ignore⟩ frame rest w = x at first ⊢
      obtain ⟨result, w₁⟩ := x
      cases result with
      | error h => exact first
      | ok stack => exact ih first stack

end

theorem run_matches {σ' : Type} {v : Visitor ε σ} {v' : Visitor ε σ'} {S : σ → σ' → Prop}
    (offers : ∀ n (w : World σ) (w' : World σ'), w.Alike S w' →
      Matches S ((v.offer n).run w) ((v'.offer n).run w'))
    (visits : ∀ n depth (w : World σ) (w' : World σ'), w.Alike S w' →
      Matches S ((v.visit n depth).run w) ((v'.visit n depth).run w'))
    {fuel : Nat} {stack : List Frame} {w : World σ} {w' : World σ'} (alike : w.Alike S w') :
    Matches S (run v fuel stack w) (run v' fuel stack w') := by
  induction fuel generalizing stack w w' with
  | zero => cases stack <;> exact ⟨rfl, alike⟩
  | succ fuel ih =>
    cases stack with
    | nil => exact ⟨rfl, alike⟩
    | cons frame rest =>
      have first : Matches S (step v frame rest w) (step v' frame rest w') :=
        step_matches alike (fun n _ => offers n w w' alike) (fun _ n depth => visits n depth w w' alike)
          fun _ => alike.2
      rw [run, run]
      generalize step v frame rest w = x at first ⊢
      generalize step v' frame rest w' = y at first ⊢
      obtain ⟨result, w₁⟩ := x
      obtain ⟨result', w₁'⟩ := y
      obtain ⟨same, later⟩ := first
      obtain rfl : result' = result := same
      cases result' with
      | error h => exact ⟨rfl, later⟩
      | ok stack => exact ih later

end Walk

def Store.metadata? (s : Store) (id : NodeId) : Option MappingId :=
  match s.element id with
  | .document _ metadata _ => some metadata
  | _ => none

theorem Store.metadata?_eq_some {s : Store} {document : NodeId} {own : MappingId}
    (isDocument : s.metadata? document = some own) :
    ∃ version blocks, s.element document = .document version own blocks := by
  rw [metadata?] at isDocument
  split at isDocument
  · next version metadata blocks element =>
    obtain rfl := Option.some.inj isDocument
    exact ⟨version, blocks, element⟩
  · cases isDocument

theorem Store.metadata?_of_element {s s' : Store} {document : NodeId}
    (same : s'.element document = s.element document) : s'.metadata? document = s.metadata? document := by
  rw [metadata?, metadata?, same]

theorem Store.metadata?_of_elements {s s' : Store} {id : NodeId} {metadata : Option MappingId}
    (same : SameElements s s') (kept : s.metadata? id = metadata) : s'.metadata? id = metadata :=
  (metadata?_of_element (same.element id)).trans kept

namespace Handler

/-- What is called in the end, whatever kinds it is bound to. -/
def callable {β : Type} : Handler β → Callable β
  | plain c => c
  | bound _ function => function.callable

/-- Whether the calls of a handler leave a document the metadata mapping that it has. They may edit the
mapping, and everything else. -/
def LeavesMetadata (document : NodeId) (metadata : MappingId) (h : Handler (Action ε σ)) : Prop :=
  ∀ occasion n (w : World σ), w.store.metadata? document = some metadata →
    ((h.callable.act occasion n).run w).2.store.metadata? document = some metadata

theorem run_bound_eq (key : Text) (function : Handler (Action ε σ)) (occasion : Occasion) (n : NodeId)
    (w : World σ) :
    ((bound key function).perform occasion n).run w =
      (if (w.store.element n).kind = .list then return .nameless
        else if (kindsOf key).contains (w.store.element n).name then function.performAlone n
        else return .keep : Effect ε σ Reply).run w := rfl

theorem run_bound_cases (key : Text) (function : Handler (Action ε σ)) (occasion : Occasion) (n : NodeId)
    (w : World σ) :
    ((bound key function).perform occasion n).run w = (function.performAlone n).run w ∨
      ∃ reply, ((bound key function).perform occasion n).run w = (.ok reply, w) := by
  rw [run_bound_eq]
  split
  · exact .inr ⟨.nameless, rfl⟩
  · split
    · exact .inl rfl
    · exact .inr ⟨.keep, rfl⟩

variable {document : NodeId} {metadata : MappingId}

theorem LeavesMetadata.perform {h : Handler (Action ε σ)} (leaves : h.LeavesMetadata document metadata)
    (occasion : Occasion) (n : NodeId) (w : World σ) (kept : w.store.metadata? document = some metadata) :
    ((h.perform occasion n).run w).2.store.metadata? document = some metadata := by
  cases h with
  | plain c => exact leaves occasion n w kept
  | bound key function =>
    rcases run_bound_cases key function occasion n w with called | ⟨reply, quiet⟩
    · rw [called]
      cases function with
      | plain c => exact leaves .byKind n w kept
      | bound => exact kept
    · rw [quiet]
      exact kept

end Handler

namespace Filter

theorem passes_leave {document : NodeId} {metadata : MappingId} {handlers : List (Handler (Action ε σ))}
    (leave : ∀ h ∈ handlers, h.LeavesMetadata document metadata) (fuel : Nat) (occasion : Occasion)
    (root : Root) (number : Nat) {w : World σ} (kept : w.store.metadata? document = some metadata) :
    (passes fuel occasion root number handlers w).2.store.metadata? document = some metadata := by
  induction handlers generalizing number w with
  | nil => exact kept
  | cons h rest ih =>
    have others : ∀ h ∈ rest, h.LeavesMetadata document metadata :=
      fun h member => leave h (List.mem_cons_of_mem _ member)
    have own := Walk.transform_keeps Store.metadata?_of_elements
      ((leave h List.mem_cons_self).perform occasion) fuel root kept
    rw [passes]
    generalize Walk.transform fuel (h.perform occasion) root w = x at own ⊢
    obtain ⟨result, w₁⟩ := x
    cases result with
    | error halt => exact own
    | ok => exact ih others (number + 1) own

def Stop.later (count : Nat) (stop : Stop ε) : Stop ε := ⟨count + stop.pass, stop.halt⟩

theorem passes_later (fuel : Nat) (occasion : Occasion) (root : Root) (count number : Nat)
    (handlers : List (Handler (Action ε σ))) (w : World σ) :
    passes fuel occasion root (count + number) handlers w =
      ((passes fuel occasion root number handlers w).1.mapError (·.later count),
        (passes fuel occasion root number handlers w).2) := by
  induction handlers generalizing number w with
  | nil => rfl
  | cons h rest ih =>
    rw [passes, passes]
    generalize Walk.transform fuel (h.perform occasion) root w = x
    obtain ⟨result, w₁⟩ := x
    cases result with
    | error halt => rfl
    | ok => exact ih (number + 1) w₁

theorem passes_append (fuel : Nat) (occasion : Occasion) (root : Root) (number : Nat)
    (handlers others : List (Handler (Action ε σ))) (w : World σ) :
    passes fuel occasion root number (handlers ++ others) w =
      match passes fuel occasion root number handlers w with
      | (.ok (), w') => passes fuel occasion root (number + handlers.length) others w'
      | (.error stop, w') => (.error stop, w') := by
  induction handlers generalizing number w with
  | nil => rfl
  | cons h rest ih =>
    rw [List.cons_append, passes, passes, List.length_cons, Nat.add_comm rest.length, ← Nat.add_assoc]
    generalize Walk.transform fuel (h.perform occasion) root w = x
    obtain ⟨result, w₁⟩ := x
    cases result with
    | error halt => rfl
    | ok => exact ih (number + 1) w₁

theorem passes_snoc_iff {fuel number : Nat} {occasion : Occasion} {root : Root} {handler : Handler (Action ε σ)}
    {handlers : List (Handler (Action ε σ))} {w w' : World σ} :
    passes fuel occasion root number (handlers ++ [handler]) w = (.ok (), w') ↔
      ∃ w₁, passes fuel occasion root number handlers w = (.ok (), w₁) ∧
        Walk.transform fuel (handler.perform occasion) root w₁ = (.ok (), w') := by
  rw [passes_append]
  cases passes fuel occasion root number handlers w with
  | mk result w₁ =>
    cases result with
    | error stop => simp
    | ok =>
      dsimp only
      rw [passes]
      cases last : Walk.transform fuel (handler.perform occasion) root w₁ with
      | mk result w₂ => cases result <;> simp [passes, last]

/-- One filter and, if it comes to its end, another. Its passes are counted on. -/
def applyInTurn (fuel : Nat) (f g : Filter (Action ε σ)) (root : Root) (format : Json)
    (metadata : Option MappingId) (w : World σ) : Except (Stop ε) Unit × World σ :=
  match f.apply fuel root format metadata w with
  | (.ok (), w') =>
    let (result, w'') := g.apply fuel root format metadata w'
    (result.mapError (·.later f.handlers.length), w'')
  | (.error stop, w') => (.error stop, w')

/-- Applications get the same metadata: a mapping that is passed to all of them, or that of a document
which still has it after every pass that comes to its end. -/
def Shares (fuel : Nat) (root : Root) (format : Json) (metadata : Option MappingId)
    (handlers : List (Handler (Action ε σ))) (w : World σ) : Prop :=
  metadata.isSome ∨ ∃ document own, root = .node document ∧ w.store.metadata? document = some own ∧
    ∀ before w', before <+: handlers → apply fuel ⟨before⟩ root format metadata w = (.ok (), w') →
      w'.store.metadata? document = some own

theorem prepared_document {document : NodeId} {own : MappingId} {w : World σ}
    (isDocument : w.store.metadata? document = some own) : prepared (.node document) none w = (own, w) := by
  obtain ⟨version, blocks, element⟩ := Store.metadata?_eq_some isDocument
  simp only [prepared, metadataOf, element]

section

variable {f g : Filter (Action ε σ)} {fuel : Nat} {root : Root} {format : Json} {metadata : Option MappingId}
  {w w' : World σ}

theorem apply_leaves {document : NodeId} {own : MappingId} (isDocument : w.store.metadata? document = some own)
    (leave : ∀ h ∈ f.handlers, h.LeavesMetadata document own)
    (applied : (f.apply fuel (.node document) format metadata w).2 = w') :
    w'.store.metadata? document = some own := by
  have begins : (prepared (.node document) metadata w).2 = w := by
    cases metadata with
    | some given => rfl
    | none => rw [prepared_document isDocument]
  rw [← applied, apply_eq, begins]
  exact passes_leave leave fuel _ _ 1 isDocument

theorem Shares.of_leaves {document : NodeId} {own : MappingId} (isDocument : w.store.metadata? document = some own)
    (leave : ∀ h ∈ f.handlers, h.LeavesMetadata document own) :
    Shares fuel (.node document) format metadata f.handlers w := by
  refine .inr ⟨document, own, rfl, isDocument, ?_⟩
  intro before w' isPart applied
  have left : ∀ h ∈ before, h.LeavesMetadata document own := fun h member => leave h (isPart.subset member)
  exact apply_leaves (f := ⟨before⟩) isDocument left (congrArg (·.2) applied)

theorem Shares.first (shares : Shares fuel root format metadata (f.handlers ++ g.handlers) w) :
    Shares fuel root format metadata f.handlers w := by
  refine shares.imp_right ?_
  rintro ⟨document, own, isNode, isDocument, kept⟩
  exact ⟨document, own, isNode, isDocument,
    fun before w' isPart => kept before w' (isPart.trans (List.prefix_append _ _))⟩

theorem Shares.prepared_eq (shares : Shares fuel root format metadata f.handlers w) : ∃ own,
    prepared root metadata w = (own, w) ∧
      ∀ w', f.apply fuel root format metadata w = (.ok (), w') → prepared root metadata w' = (own, w') := by
  rcases shares with given | ⟨document, own, rfl, isDocument, kept⟩
  · obtain ⟨own, rfl⟩ := Option.isSome_iff_exists.mp given
    exact ⟨own, rfl, fun _ _ => rfl⟩
  · cases metadata with
    | some given => exact ⟨given, rfl, fun _ _ => rfl⟩
    | none =>
      refine ⟨own, prepared_document isDocument, fun w' applied => ?_⟩
      exact prepared_document (kept f.handlers w' (List.prefix_refl _) applied)

theorem apply_nil (shares : Shares fuel root format metadata f.handlers w) :
    apply fuel (⟨[]⟩ : Filter (Action ε σ)) root format metadata w = (.ok (), w) := by
  obtain ⟨own, known, -⟩ := shares.prepared_eq
  rw [apply_eq, known]
  rfl

theorem applyInTurn_ok (finished : applyInTurn fuel f g root format metadata w = (.ok (), w')) :
    ∃ w₁, f.apply fuel root format metadata w = (.ok (), w₁) ∧
      g.apply fuel root format metadata w₁ = (.ok (), w') := by
  rw [applyInTurn] at finished
  cases own : f.apply fuel root format metadata w with
  | mk result w₁ =>
    rw [own] at finished
    cases result with
    | error stop => exact absurd (congrArg (·.1) finished) nofun
    | ok =>
      refine ⟨w₁, rfl, ?_⟩
      cases later : g.apply fuel root format metadata w₁ with
      | mk result w₂ =>
        simp only [later] at finished
        cases result with
        | error stop => exact absurd (congrArg (·.1) finished) nofun
        | ok => exact finished

theorem apply_append (shares : Shares fuel root format metadata f.handlers w) :
    apply fuel ⟨f.handlers ++ g.handlers⟩ root format metadata w =
      applyInTurn fuel f g root format metadata w := by
  obtain ⟨own, known, later⟩ := shares.prepared_eq
  have occasion : occasionOf root format metadata w = .plain (formatOf format) own := by
    rw [occasionOf, known]
  rw [applyInTurn, apply_eq, occasion, known, passes_append]
  cases passed : passes fuel (.plain (formatOf format) own) root 1 f.handlers w with
  | mk result w' =>
    have applied : f.apply fuel root format metadata w = (result, w') := by
      rw [apply_eq, occasion, known, passed]
    rw [applied]
    cases result with
    | error stop => rfl
    | ok =>
      have same : occasionOf root format metadata w' = .plain (formatOf format) own := by
        rw [occasionOf, later w' applied]
      simp only [apply_eq, same, later w' applied, Nat.add_comm 1, passes_later]

theorem Shares.next (shares : Shares fuel root format metadata (f.handlers ++ g.handlers) w)
    (applied : f.apply fuel root format metadata w = (.ok (), w')) :
    Shares fuel root format metadata g.handlers w' := by
  have first := shares.first
  rcases shares with given | ⟨document, own, isNode, isDocument, kept⟩
  · exact .inl given
  · refine .inr ⟨document, own, isNode, kept f.handlers w' (List.prefix_append _ _) applied, ?_⟩
    intro before w'' isPart later
    have both : apply fuel ⟨f.handlers ++ before⟩ root format metadata w = (.ok (), w'') := by
      rw [apply_append (g := ⟨before⟩) first, applyInTurn, applied]
      dsimp only
      rw [later]
      rfl
    exact kept (f.handlers ++ before) w'' ((List.prefix_append_right_inj _).mpr isPart) both

end

end Filter

/-- A call of an action: what is called and how, the node, and the world in which that happens. -/
structure Filter.Call (ε σ : Type) where
  callable : Callable (Action ε σ)
  occasion : Occasion
  node : NodeId
  world : World σ

def World.noting (w : World σ) (calls : List (Filter.Call ε σ)) : World (σ × List (Filter.Call ε σ)) :=
  ⟨w.store, w.state, calls⟩

def Callable.noted (c : Callable (Action ε σ)) : Callable (Action ε (σ × List (Filter.Call ε σ))) where
  shown := c.shown
  typeName := c.typeName
  act occasion n := .ofFunction fun w =>
    let before : World σ := ⟨w.store, w.state.1⟩
    let (answer, after) := (c.act occasion n).run before
    (answer, after.noting (w.state.2 ++ [⟨c, occasion, n, before⟩]))

def Handler.noted : Handler (Action ε σ) → Handler (Action ε (σ × List (Filter.Call ε σ)))
  | plain c => plain c.noted
  | bound key function => bound key function.noted

def Filter.noted (f : Filter (Action ε σ)) : Filter (Action ε (σ × List (Filter.Call ε σ))) :=
  ⟨f.handlers.map Handler.noted⟩

theorem Handler.perform_noted (h : Handler (Action ε σ)) (occasion : Occasion) (n : NodeId) {w : World σ}
    {w' : World (σ × List (Filter.Call ε σ))} (alike : w.Alike (fun st st' => st'.1 = st) w') :
    Matches (fun st st' => st'.1 = st) ((h.perform occasion n).run w) ((h.noted.perform occasion n).run w') := by
  obtain ⟨store, state⟩ := w
  obtain ⟨store', state', calls⟩ := w'
  obtain ⟨same, same'⟩ := alike
  obtain rfl : store' = store := same
  obtain rfl : state' = state := same'
  cases h with
  | plain c => exact ⟨rfl, rfl, rfl⟩
  | bound key function =>
    rw [noted, run_bound_eq, run_bound_eq]
    dsimp only
    split
    · exact ⟨rfl, rfl, rfl⟩
    · split
      · cases function <;> exact ⟨rfl, rfl, rfl⟩
      · exact ⟨rfl, rfl, rfl⟩

theorem Filter.passes_noted (fuel : Nat) (occasion : Occasion) (root : Root) (number : Nat)
    (handlers : List (Handler (Action ε σ))) {w : World σ} {w' : World (σ × List (Filter.Call ε σ))}
    (alike : w.Alike (fun st st' => st'.1 = st) w') :
    Matches (fun st st' => st'.1 = st) (passes fuel occasion root number handlers w)
      (passes fuel occasion root number (handlers.map Handler.noted) w') := by
  induction handlers generalizing number w w' with
  | nil => exact ⟨rfl, alike⟩
  | cons h rest ih =>
    have walked : Matches (fun st st' => st'.1 = st) (Walk.transform fuel (h.perform occasion) root w)
        (Walk.transform fuel (h.noted.perform occasion) root w') := by
      refine Walk.run_matches ?_ ?_ alike
      · exact fun n _ _ alike => h.perform_noted occasion n alike
      · exact fun _ _ _ _ alike => ⟨rfl, alike⟩
    rw [List.map_cons, passes, passes]
    generalize Walk.transform fuel (h.perform occasion) root w = x at walked ⊢
    generalize Walk.transform fuel (h.noted.perform occasion) root w' = y at walked ⊢
    obtain ⟨result, w₁⟩ := x
    obtain ⟨result', w₁'⟩ := y
    obtain ⟨same, alike⟩ := walked
    obtain rfl : result' = result := same
    cases result' with
    | error halt => exact ⟨rfl, alike⟩
    | ok => exact ih (number + 1) alike

theorem Filter.apply_noted (fuel : Nat) (f : Filter (Action ε σ)) (root : Root) (format : Json)
    (metadata : Option MappingId) (w : World σ) (calls : List (Filter.Call ε σ)) :
    Matches (fun st st' => st'.1 = st) (f.apply fuel root format metadata w)
      (f.noted.apply fuel root format metadata (w.noting calls)) := by
  have begun : prepared root metadata (w.noting calls) =
      ((prepared root metadata w).1, (prepared root metadata w).2.noting calls) := by
    cases metadata <;> rfl
  have same : occasionOf root format metadata (w.noting calls) = occasionOf root format metadata w := by
    rw [occasionOf, begun, occasionOf]
  rw [apply_eq, apply_eq, same, begun]
  exact passes_noted fuel _ root 1 f.handlers ⟨rfl, rfl⟩

namespace Filter

theorem Shares.noted {fuel : Nat} {root : Root} {format : Json} {metadata : Option MappingId}
    {f : Filter (Action ε σ)} {w : World σ} (shares : Shares fuel root format metadata f.handlers w)
    (calls : List (Call ε σ)) : Shares fuel root format metadata f.noted.handlers (w.noting calls) := by
  refine shares.imp_right ?_
  rintro ⟨document, own, isNode, isDocument, kept⟩
  refine ⟨document, own, isNode, isDocument, ?_⟩
  intro before w' isPart applied
  obtain ⟨plain, part, rfl⟩ := List.prefix_map_iff.mp isPart
  obtain ⟨result, store, -⟩ := apply_noted fuel ⟨plain⟩ root format metadata w calls
  rw [Filter.noted, applied] at result store
  have finished : apply fuel ⟨plain⟩ root format metadata w =
      (.ok (), (apply fuel ⟨plain⟩ root format metadata w).2) := Prod.ext result.symm rfl
  have own := kept plain _ part finished
  rwa [← store] at own

theorem noted_append (f g : Filter (Action ε σ)) :
    noted ⟨f.handlers ++ g.handlers⟩ = ⟨f.noted.handlers ++ g.noted.handlers⟩ :=
  congrArg Filter.mk List.map_append

section

variable {β : Type}

theorem mapM_plain {actions : List (Value β)} {f : Filter β} (made : ofActions actions = pure f) :
    actions.mapM plain = pure f.handlers := by
  have handlers : handlers <$> ofActions actions = actions.mapM plain := by
    simp [ofActions]
  rw [← handlers, made, map_pure]

theorem ofActions_append {actions others : List (Value β)} {f g : Filter β}
    (made : ofActions actions = pure f) (madeToo : ofActions others = pure g) :
    ofActions (actions ++ others) = pure ⟨f.handlers ++ g.handlers⟩ := by
  simp [ofActions, mapM_plain made, mapM_plain madeToo]

theorem ofActions_handlers (handlers : List (Handler β)) :
    ofActions (handlers.map .handler) = pure ⟨handlers⟩ := by
  have each : plain ∘ Value.handler = fun h => (pure (id h) : Building β (Handler β)) := rfl
  have same : (handlers.map .handler).mapM plain = pure handlers := by
    rw [List.mapM_map, each, List.mapM_pure, List.map_id]
  simp [ofActions, same]

theorem first_callable {first : Value β} {rest : List (Value β)} {f : Filter β}
    (made : ofActions (first :: rest) = pure f) : first.callable?.isSome := by
  cases callable : first.callable? with
  | some h => rfl
  | none =>
    have failed : ((ofActions (first :: rest)).run []).1 = .error (.showing .notCallable first) := by
      simp only [ofActions, List.mapM_cons, plain, callable]
      rfl
    rw [made] at failed
    cases failed

theorem ofArguments_eq {actions : List (Value β)} {f : Filter β} (made : ofActions actions = pure f) :
    ofArguments actions = pure f := by
  cases actions with
  | nil => exact made
  | cons first rest =>
    have callable := first_callable made
    have isAction : ¬((first :: rest).length % 2 = 0 ∧ first.callable?.isNone) := fun even => by
      simp [Option.isNone_iff_eq_none.mp even.2] at callable
    cases first with
    | none | bool | int | float | text | list | tuple | map | filter => cases callable
    | handler | object =>
      rw [ofArguments, if_neg isAction]
      · exact made
      · exact nofun

end

end Filter

end DocTree
