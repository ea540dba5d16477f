import DocTree.Proofs.Walk.Selecting
import DocTree.Proofs.Store.Exchange
/-!
Walks that come to their end without a failure: every call takes away weight, and every node of the tree
that is offered has an answer that can be used.
-/

namespace DocTree.Walk

open Store (Object Same Weighting)

variable {ε σ : Type}

section

variable {action : NodeId → Effect ε σ Reply} {root : Root} {w₀ w w' : World σ} {frame : Frame}
  {rest stack : List Frame} {n : NodeId} {ns : List NodeId} {all : List Object} {s : Store}

theorem Within.offered (within : Within root s frame) (next : offered? s frame rest = some n) :
    ∃ all, s.Spans [root.object] all ∧ .node n ∈ all ∧
      ∀ id keys settled, frame.cursor = some (.mapping id keys settled) →
        .mapping id ∈ all ∧ .node n ∈ s.parts (.mapping id) := by
  obtain ⟨cursor, all, opened, whole, inTree⟩ := within
  obtain ⟨q, index, isCursor, member⟩ | ⟨id, key, keys, isCursor, value⟩ := offered?_cases next
  · obtain rfl := Option.some.inj (opened.symm.trans isCursor)
    have part : .node n ∈ s.parts (.sequence q) := List.mem_map_of_mem (List.mem_of_getElem? member)
    exact ⟨all, whole, whole.closed inTree part, fun _ _ _ other => by cases isCursor.symm.trans other⟩
  · obtain rfl := Option.some.inj (opened.symm.trans isCursor)
    have part : .node n ∈ s.parts (.mapping id) := List.mem_map.mpr ⟨(key, n), Mapping.get?_mem value, rfl⟩
    refine ⟨all, whole, whole.closed inTree part, fun _ _ _ same => ?_⟩
    cases isCursor.symm.trans same
    exact ⟨inTree, part⟩

theorem step_ok_of_gives (next : offered? w.store frame rest = some n) (gives : Gives action n w ns w')
    (room : ∀ id keys settled, frame.cursor = some (.mapping id keys settled) → ns.length ≤ 1) :
    (step ⟨action, ignore⟩ frame rest w).1.isOk := by
  obtain ⟨reply, given, answer, usable, rfl⟩ := gives
  obtain ⟨errands, cursor⟩ := frame
  obtain ⟨q, index, rfl, member⟩ | ⟨id, key, keys, rfl, value⟩ := offered?_cases next
  · rw [(step_offer_iff (move_member member)).mpr ⟨reply, given, w', _, _, answer, usable, rfl, rfl, rfl⟩]
    rfl
  · have fits := room id (key :: keys) [] rfl
    have settled : ∃ cursor s, settleMapping w'.store id (w.store.element n).kind key keys n given =
        .ok (cursor, s) := by
      match given, fits with
      | none, _ => exact ⟨_, _, rfl⟩
      | some [], _ => exact ⟨_, _, rfl⟩
      | some [m], _ => exact ⟨_, _, rfl⟩
      | some (_ :: _ :: _), fits => exact absurd fits (by simp)
    obtain ⟨cursor, s, settled⟩ := settled
    rw [(step_offer_iff (move_value value)).mpr ⟨reply, given, w', _, _, answer, usable, settled, rfl, rfl⟩]
    rfl

theorem step_ok_of_quiet (quiet : offered? w.store frame rest = none) :
    (step ⟨action, ignore⟩ frame rest w).1.isOk := by
  rw [step_eq]
  unfold offered? at quiet
  cases next : move w.store frame rest with
  | visit n frame' => rfl
  | go stack => rfl
  | offer n settle =>
    rw [next] at quiet
    cases quiet

/-- A walk comes to its end in some world, with any fuel from some amount on. -/
def Completes (action : NodeId → Effect ε σ Reply) (root : Root) (w w' : World σ) : Prop :=
  ∃ bound, ∀ fuel, bound ≤ fuel → transform fuel action root w = (.ok (), w')

theorem completes_iff_reaches : Completes action root w w' ↔
    ∃ n calls, Reaches ⟨action, ignore⟩ n [.ofRoot root] w calls [] w' := by
  constructor
  · rintro ⟨bound, ended⟩
    obtain ⟨n, _, calls, course⟩ := run_eq_ok_iff.mp (ended bound (Nat.le_refl _))
    exact ⟨n, calls, course⟩
  · rintro ⟨n, calls, course⟩
    exact ⟨n, fun fuel enough => run_eq_ok_iff.mpr ⟨n, enough, calls, course⟩⟩

theorem Completes.reached (h : Completes action root w w') : Reached action root w [] w' :=
  completes_iff_reaches.mp h

theorem Completes.unique {w₁ : World σ} (h : Completes action root w w') (h' : Completes action root w w₁) :
    w' = w₁ := by
  obtain ⟨bound, ended⟩ := h
  obtain ⟨bound', ended'⟩ := h'
  have same := (ended (max bound bound') (Nat.le_max_left _ _)).symm.trans (ended' _ (Nat.le_max_right _ _))
  exact (Prod.mk.inj same).2

/-- If every call takes away weight, and every node of the tree that is offered has an answer that can be
used, a walk comes to its end. -/
theorem Lightens.completes {W : Weighting} (lightens : Lightens W action root w) (tame : Tame action root w)
    (answered : ∀ frame rest w₁ n, Reached action root w (frame :: rest) w₁ → Within root w₁.store frame →
      offered? w₁.store frame rest = some n → ∃ ns w₂, Gives action n w₁ ns w₂ ∧
        ∀ id keys settled, frame.cursor = some (.mapping id keys settled) → ns.length ≤ 1) :
    ∃ w', Completes action root w w' := by
  obtain ⟨around, stack, ready, leave⟩ := ready_ofRoot action root w
  obtain ⟨whole, whole_spans, _⟩ := tame.unshared _ _ ⟨0, [], .refl _ _⟩
  obtain ⟨all, rfl, _, spans⟩ := whole_spans.of_single
  rw [← Task.pending_ofRoot] at spans
  cases bounded_by_weight tame lightens _ _ _ _ _ _ _ spans (fun o _ => .refl _ o) ready with
  | @through k calls w' course few _ =>
    obtain ⟨m, last⟩ := leave w'
    exact ⟨w', completes_iff_reaches.mpr ⟨_, _, course.trans last⟩⟩
  | @broken k calls frame rest w₁ w' h course fails within few =>
    -- Only an offer fails, and no offer is without an answer that can be used.
    exfalso
    have reached : Reached action root w (frame :: rest) w₁ := ready.reached.trans course
    have fine : (step ⟨action, ignore⟩ frame rest w₁).1.isOk := by
      cases next : offered? w₁.store frame rest with
      | none => exact step_ok_of_quiet next
      | some n =>
        obtain ⟨ns, w₂, gives, room⟩ := answered frame rest w₁ n reached within next
        exact step_ok_of_gives next gives room
    rw [fails] at fine
    exact absurd fine nofun

end

end DocTree.Walk
