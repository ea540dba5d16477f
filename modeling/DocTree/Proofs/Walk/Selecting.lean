import DocTree.Proofs.Store.Values
import DocTree.Proofs.Walk.Exchange
/-!
Actions that edit nothing and put nodes of the offered subtree in the place of it: nothing, the node
itself, or parts of it that have nothing in common. The tree stays without sharing, and a walk offers no
more nodes than the tree has.
-/

namespace DocTree.Walk

open Store (Fewer Object Same Weighting)

variable {ε σ : Type}

/-- On a walk, an action edits nothing, and what it gives for a node are nodes of the subtree of that node,
the node itself included, of which none is below another. -/
structure Selects (action : NodeId → Effect ε σ Reply) (root : Root) (w₀ : World σ) : Prop where
  still : ∀ frame rest w n, Reached action root w₀ (frame :: rest) w →
    offered? w.store frame rest = some n → ((action n).run w).2.store = w.store
  picks : ∀ frame rest w n ns w₁ below, Reached action root w₀ (frame :: rest) w →
    offered? w.store frame rest = some n → Gives action n w ns w₁ →
    w.store.Spans [.node n] below → below.Nodup →
    (∀ m ∈ ns, .node m ∈ below) ∧ ns.Pairwise fun m m' => w.store.Apart (.node m) (.node m')

section

variable {action : NodeId → Effect ε σ Reply} {root : Root} {w₀ w w₁ w' : World σ} {frame : Frame}
  {rest stack : List Frame} {n : NodeId} {ns : List NodeId} {s s' : Store} {all : List Object}

/-- What edits nothing and gives nodes of the offered subtree brings nothing into the tree. -/
theorem Selects.grafts (selects : Selects action root w₀) : Grafts action root w₀ where
  still := fun _ _ w _ _ reached next _ o _ => selects.still _ _ _ _ reached next ▸ .refl w.store o
  given := by
    intro frame rest w n ns w₁ all below reached next gives spans nodup member inner
    obtain ⟨below', inner', within⟩ := spans.deep member
    obtain rfl := inner'.unique inner
    have distinct := within.nodup nodup
    obtain ⟨members, apart⟩ := selects.picks _ _ _ _ _ _ _ reached next gives inner distinct
    obtain ⟨part, part_spans, contained⟩ : ∃ part, w.store.Spans (ns.map .node) part ∧ part.Subperm below' :=
      inner.pick distinct (by simpa using members) (List.pairwise_map.mpr apart)
    have still := selects.still _ _ _ _ reached next
    rw [gives.world] at still
    obtain ⟨sorted, perm, sublist⟩ := contained
    exact ⟨part, still ▸ part_spans, perm.nodup_iff.mp (sublist.nodup distinct),
      fun o member _ => sublist.subset (perm.mem_iff.mpr member)⟩

theorem Selects.tame (selects : Selects action root w) (unshared : w.store.Unshared root) :
    Tame action root w :=
  selects.grafts.tame unshared

theorem Selects.step_fewer (selects : Selects action root w₀) (reached : Reached action root w₀ (frame :: rest) w)
    (stepped : Stepped action root frame rest w w') : Fewer root w.store w'.store := by
  cases stepped with
  | same spans _ kept =>
    exact ⟨_, _, spans, spans.agree kept, List.Subset.refl _, fun m member => (kept _ member).element⟩
  | @grafted container n ns w₁ before below given after spans nodup _ next inner gives still new exchanged spans' _
      edits =>
    have distinct : below.Nodup := (List.nodup_append.mp (List.nodup_append.mp nodup).1).2.1
    obtain ⟨members, _⟩ := selects.picks _ _ _ _ _ _ _ reached next gives inner distinct
    have unedited := selects.still _ _ _ _ reached next
    rw [gives.world] at unedited
    have fewer : given ⊆ below := inner.subset (unedited ▸ new) (by simpa using members)
    have fewer' : before ++ given ++ after ⊆ before ++ below ++ after := by
      intro o member
      simp only [List.mem_append] at member ⊢
      exact member.imp_left (.imp_right fun new => fewer new)
    refine ⟨_, _, spans, spans', fewer', fun m member => ?_⟩
    exact ((still (.node m) (fewer' member)).trans (edits (.node m) (exchanged.not_node m))).element

/-- Wherever a walk comes, it has brought nothing into the tree. -/
theorem Selects.fewer (selects : Selects action root w₀) (unshared : w₀.store.Unshared root)
    (reached : Reached action root w₀ stack w) : Fewer root w₀.store w.store := by
  obtain ⟨all, spans, nodup⟩ := unshared
  exact (selects.grafts.invariant (P := fun w => Fewer root w₀.store w.store) ⟨all, spans, nodup⟩ (.refl spans)
    (fun _ _ _ _ _ reached before _ stepped => before.trans (selects.step_fewer reached stepped)) reached).2

theorem Selects.lessens (selects : Selects action root w₀) : Lessens .one action root w₀ := by
  intro frame rest w n ns w₁ before after reached next gives before_spans nodup after_spans
  have node_spans : w.store.Spans [.node n] (.node n :: before) := .single trivial before_spans
  obtain ⟨members, apart⟩ := selects.picks _ _ _ _ _ _ _ reached next gives node_spans nodup
  obtain ⟨part, part_spans, within⟩ : ∃ part, w.store.Spans (ns.map .node) part ∧
      part.Subperm (.node n :: before) :=
    node_spans.pick nodup (by simpa using members) (List.pairwise_map.mpr apart)
  have still := selects.still _ _ _ _ reached next
  rw [gives.world] at still
  rw [still] at after_spans ⊢
  obtain ⟨inside, inside_spans, perm⟩ := part_spans.inside_nodes
  obtain rfl := inside_spans.unique after_spans
  have whole : Weighting.one.weigh w.store part ≤ _ := Weighting.weigh_le within
  rw [Weighting.weigh_perm perm, Weighting.weigh_append, Weighting.weigh_cons] at whole
  change _ ≤ Weighting.one.weight w.store n + _ at whole
  cases ns with
  | nil =>
    cases inside_spans
    exact Nat.lt_add_right _ (Weighting.one.positive w.store n)
  | cons m ns =>
    have counted : 1 ≤ Weighting.one.weigh w.store ((m :: ns).map .node) := Nat.le_add_right 1 _
    omega

/-- A walk ends if every call takes away more weight than it brings below what it gives, and it makes no
more calls than what is below the root weighs. If an action edits nothing and only selects parts of what it
is offered, a walk makes no more calls than there are nodes below the root. -/
theorem ends_within (spans : w.store.Spans (w.store.parts root.object) all) :
    (∀ W : Weighting, Tame action root w → Lessens W action root w →
      EndsWithin action root w (W.weigh w.store all)) ∧
    (w.store.Unshared root → Selects action root w →
      EndsWithin action root w (Object.nodes all).length) := by
  constructor
  · intro W tame lessens
    exact lessens.endsWithin tame spans
  · intro unshared selects
    rw [← Weighting.weigh_one w.store]
    exact selects.lessens.endsWithin (selects.tame unshared) spans

end

/-- An action that edits nothing, and keeps a node or puts what is in a wrapping in the place of that. -/
structure Unwraps (action : NodeId → Effect ε σ Reply) : Prop where
  still : ∀ n w, ((action n).run w).2.store = w.store
  gives : ∀ n w ns w₁, Gives action n w ns w₁ →
    ns = [n] ∨ ∃ wrap id, w.store.element n = .wrap wrap id ∧ ns = w.store.sequence id

theorem Unwraps.selects {action : NodeId → Effect ε σ Reply} (unwraps : Unwraps action) (root : Root)
    (w₀ : World σ) : Selects action root w₀ where
  still := fun _ _ w n _ _ => unwraps.still n w
  picks := by
    intro frame rest w n ns w₁ below _ _ gives spans nodup
    obtain ⟨inside, rfl, _, inner⟩ := spans.of_single
    rcases unwraps.gives n w ns w₁ gives with rfl | ⟨wrap, id, element, rfl⟩
    · simp
    · have container : w.store.parts (.node n) = [.sequence id] := by
        rw [Store.parts, element]
        rfl
      rw [container] at inner
      obtain ⟨deeper, rfl, _, members⟩ := inner.of_single
      have apart := members.apart (List.nodup_cons.mp (List.nodup_cons.mp nodup).2).2
      refine ⟨fun m member => ?_, List.pairwise_map.mp apart⟩
      have found := members.mem (List.mem_map_of_mem member)
      simp [found]

def unwrapped (s : Store) (n : NodeId) : Reply :=
  match s.element n with
  | .wrap _ id => .several ((s.sequence id).map .node)
  | _ => .keep

def unwrap (n : NodeId) : Effect ε σ Reply := .ofFunction fun w => (.ok (unwrapped w.store n), w)

theorem nodesOf_nodes (kind : Kind) (ns : List NodeId) : Reply.nodesOf kind (ns.map .node) = .ok ns := by
  induction ns with
  | nil => rfl
  | cons n ns ih =>
    rw [List.map_cons, Reply.nodesOf, ih]
    rfl

theorem unwrap_unwraps : Unwraps (unwrap : NodeId → Effect ε σ Reply) where
  still := fun _ _ => rfl
  gives := by
    intro n w ns w₁ gives
    obtain ⟨reply, given, answer, usable, rfl⟩ := gives
    obtain ⟨same, rfl⟩ := Prod.mk.inj answer
    obtain rfl : unwrapped w.store n = reply := Except.ok.inj same
    unfold unwrapped at usable
    split at usable
    · next id element =>
      rw [Reply.replacement, nodesOf_nodes] at usable
      cases usable
      exact .inr ⟨_, id, element, rfl⟩
    · cases usable
      exact .inl rfl

/-! A walk over an emphasized word and a space, of which the former is heavier. -/

theorem capitalize_lessens : Lessens (.fixed (fun n => n.index + 1) fun n => Nat.le_add_left 1 n.index)
    capitalize (.list ⟨1⟩) ⟨stressed, 0⟩ := by
  intro frame rest w n ns w₁ before after _ _ gives _ _ spans
  have nothing : ns.flatMap (fun m => w₁.store.parts (.node m)) = [] := by
    obtain ⟨reply, given, answer, usable, rfl⟩ := gives
    change (if n = ⟨1⟩ then _ else _) = _ at answer
    split at answer
    · cases answer
      cases usable
      have edited : w.store.setElement ⟨0⟩ (.text .str "A") = w.store.setRecord ⟨0⟩ (.simple (.text .str "A")) := rfl
      by_cases known : 0 < w.store.records.size <;>
        simp [edited, Store.parts, Store.element, Store.elementOf, Store.record, Store.setRecord,
          Element.slots, known]
    · cases answer
      cases usable
      rfl
  rw [nothing] at spans
  cases spans
  exact Nat.lt_add_right _ (Nat.succ_pos n.index)

theorem stressed_below : stressed.Spans (stressed.parts (Root.list ⟨1⟩).object)
    [.node ⟨1⟩, .sequence ⟨0⟩, .node ⟨0⟩, .node ⟨2⟩] :=
  Store.spans_of_spanned? (rfl : stressed.spanned? 6 _ = _)

theorem stressed_ends_within : EndsWithin capitalize (.list ⟨1⟩) ⟨stressed, 0⟩ 6 ∧
    EndsWithin (unwrap : NodeId → Effect Empty Nat Reply) (.list ⟨1⟩) ⟨stressed, 0⟩ 3 := by
  have unshared : stressed.Unshared (.list ⟨1⟩) := ⟨_, stressed_spans, by decide⟩
  constructor
  · exact (@ends_within _ _ _ _ ⟨stressed, 0⟩ _ stressed_below).1 _ capitalize_tame capitalize_lessens
  · exact (@ends_within _ _ _ _ ⟨stressed, 0⟩ _ stressed_below).2 unshared (unwrap_unwraps.selects _ _)

end DocTree.Walk
