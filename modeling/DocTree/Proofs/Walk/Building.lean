import DocTree.Proofs.Store.Fresh
import DocTree.Proofs.Walk.Exchange
/-!
Actions that edit nothing, but build nodes around parts of what is offered to them. A walk that begins with a
tree of which the store has all objects has such a tree wherever it comes.
-/

namespace DocTree.Walk

open Store (Genuine Intact Object Same)

variable {ε σ : Type} {action : NodeId → Effect ε σ Reply} {root : Root} {w₀ w w' : World σ} {frame : Frame}
  {rest stack : List Frame} {n : NodeId} {s s' : Store} {o : Object}

/-- An action adds to the store and edits nothing. What it gives for a node without sharing is new, or was
below that node, and nothing of it is reached in two ways. -/
structure Builds (action : NodeId → Effect ε σ Reply) : Prop where
  grown : ∀ n (w : World σ), w.store.Extends ((action n).run w).2.store
  given : ∀ n (w : World σ) ns w₁ below, Gives action n w ns w₁ → w.store.Spans [.node n] below → below.Nodup →
    (∀ o ∈ below, w.store.Genuine o) → ∃ given, w₁.store.Spans (ns.map .node) given ∧ given.Nodup ∧
      ∀ o ∈ given, w₁.store.Genuine o ∧ (w.store.Knows o → o ∈ below)

theorem settleSequence_knows {id : SequenceId} {index : Nat} {given : Option (List NodeId)} (known : s.Knows o) :
    (settleSequence s id index n given).2.Knows o := by
  cases given with
  | none => exact known
  | some ns => exact known.setSequence

theorem settleMapping_knows {id : MappingId} {kind : Kind} {key : Text} {keys : List Text}
    {given : Option (List NodeId)} {cursor : Cursor}
    (settled : settleMapping s id kind key keys n given = .ok (cursor, s')) (known : s.Knows o) : s'.Knows o := by
  match given with
  | none =>
    cases settled
    exact known
  | some [] =>
    cases settled
    exact known.setMapping
  | some [m] =>
    cases settled
    exact known.setMapping
  | some (_ :: _ :: _) => cases settled

theorem step_knows (next : offered? w.store frame rest = some n)
    (first : step ⟨action, ignore⟩ frame rest w = (.ok stack, w'))
    (known : ((action n).run w).2.store.Knows o) : w'.store.Knows o := by
  obtain ⟨errands, cursor⟩ := frame
  obtain ⟨id, index, rfl, member⟩ | ⟨id, key, keys, rfl, value⟩ := offered?_cases next
  · obtain ⟨reply, given, w₁, cursor, s, answer, _, settled, rfl, rfl⟩ :=
      (step_offer_iff (move_member member)).mp first
    obtain rfl : (settleSequence w₁.store id index n given).2 = s := congrArg Prod.snd (Except.ok.inj settled)
    rw [answer] at known
    exact settleSequence_knows known
  · obtain ⟨reply, given, w₁, cursor, s, answer, _, settled, rfl, rfl⟩ :=
      (step_offer_iff (move_value value)).mp first
    rw [answer] at known
    exact settleMapping_knows settled known

namespace Builds

theorem knows (builds : Builds action) (first : step ⟨action, ignore⟩ frame rest w = (.ok stack, w'))
    (known : w.store.Knows o) : w'.store.Knows o := by
  cases next : offered? w.store frame rest with
  | none => exact step_quiet next first ▸ known
  | some n => exact step_knows next first ((builds.grown n w).knows known)

variable {all : List Object}

theorem stepped (builds : Builds action) (spans : w.store.Spans [root.object] all) (nodup : all.Nodup)
    (genuine : ∀ o ∈ all, w.store.Genuine o) (first : step ⟨action, ignore⟩ frame rest w = (.ok stack, w')) :
    Stepped action root frame rest w w' := by
  refine stepped_of_step spans nodup first
    (fun n _ o member => (builds.grown n w).same (genuine o member).known) ?_
  intro n ns w₁ below _ gives member inner
  obtain ⟨_, inner', within⟩ := spans.deep member
  obtain rfl := inner'.unique inner
  obtain ⟨given, new, distinct, each⟩ := builds.given n w ns w₁ _ gives inner (within.nodup nodup)
    fun o below => genuine o (within.subset below)
  exact ⟨given, new, distinct, fun o member inTree => (each o member).2 (genuine o inTree).known⟩

theorem intact_step (builds : Builds action) (intact : w.store.Intact root)
    (first : step ⟨action, ignore⟩ frame rest w = (.ok stack, w')) : w'.store.Intact root := by
  obtain ⟨all, spans, nodup, genuine⟩ := intact
  cases builds.stepped spans nodup genuine first with
  | same whole _ kept =>
    obtain rfl := whole.unique spans
    refine ⟨_, spans.agree kept, nodup, fun o member => ?_⟩
    exact (genuine o member).of_elements (builds.knows first (genuine o member).known)
      fun n isNode => (kept (.node n) (isNode ▸ member)).element
  | @grafted container n ns w₁ before below given after whole _ _ next inner gives still new exchanged spans'
      nodup' edits =>
    obtain rfl := whole.unique spans
    have distinct := (List.nodup_append.mp (List.nodup_append.mp nodup).1).2.1
    obtain ⟨_, new', _, each⟩ := builds.given n w ns w₁ below gives inner distinct
      fun o member => genuine o (by simp [member])
    obtain rfl := new.unique new'
    refine ⟨_, spans', nodup', fun o member => ?_⟩
    have unedited : ∀ m, o = .node m → w'.store.element m = w₁.store.element m :=
      fun m _ => (edits (.node m) (exchanged.not_node m)).element
    by_cases isNew : o ∈ given
    · refine (each o isNew).1.of_elements (step_knows next first ?_) unedited
      rw [gives.world]
      exact (each o isNew).1.known
    · have before : o ∈ before ++ below ++ after := by
        simp only [List.mem_append] at member ⊢
        tauto
      exact (genuine o before).of_elements (builds.knows first (genuine o before).known)
        fun m isNode => (unedited m isNode).trans (still (.node m) (isNode ▸ before)).element

theorem intact (builds : Builds action) (start : w₀.store.Intact root)
    (reached : Reached action root w₀ stack w) : w.store.Intact root :=
  reached.invariant (fun _ w => w.store.Intact root) start fun _ _ _ _ _ => builds.intact_step

theorem tame (builds : Builds action) (start : w₀.store.Intact root) : Tame action root w₀ where
  unshared := fun _ _ reached => (builds.intact start reached).unshared
  inside := by
    intro frame rest w n all below reached _ spans _ o member _
    obtain ⟨_, spans', _, genuine⟩ := builds.intact start reached
    obtain rfl := spans'.unique spans
    exact (builds.grown n w).same (genuine o member).known

end Builds

end DocTree.Walk
