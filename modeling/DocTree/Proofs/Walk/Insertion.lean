import DocTree.Proofs.Store.Proper
import DocTree.Proofs.Walk.Failure
import DocTree.Proofs.Walk.Turning
/-!
Walks whose actions bring no document into the tree. Such a walk keeps the tree proper with every step,
so that it is proper wherever the walk ends, by itself or at a call.
-/

namespace DocTree.Walk

open Store (Placed)

variable {ε σ : Type}

/-- On a walk over a tree, what an action inserts into the tree and what it returns are nodes that neither
are documents nor contain one, and the tree never gets a cycle. -/
structure InsertsInner (action : NodeId → Effect ε σ Reply) (root : Root) (w₀ : World σ) : Prop where
  acyclic : ∀ stack w, Reached action root w₀ stack w → w.store.Acyclic root
  inserts : ∀ frame rest w n, Reached action root w₀ (frame :: rest) w →
    offered? w.store frame rest = some n → w.store.Edited root ((action n).run w).2.store
  returns : ∀ frame rest w n reply w' ns, Reached action root w₀ (frame :: rest) w →
    offered? w.store frame rest = some n → (action n).run w = (.ok reply, w') →
    reply.replacement (w.store.element n).kind = .ok (some ns) →
    ∀ m ∈ ns, w'.store.AllBelow w'.store.Inner m

theorem settleSequence_placed (s : Store) (id : SequenceId) (index : Nat) (n : NodeId)
    (given : Option (List NodeId)) :
    Placed (given.getD []) s (settleSequence s id index n given).2 := by
  cases given with
  | none => exact .refl s
  | some ns =>
    refine Store.placed_setSequence fun m member => ?_
    rw [List.append_assoc, List.mem_append, List.mem_append] at member
    rcases member with before | given | after
    · exact .inl (List.mem_of_mem_take before)
    · exact .inr given
    · exact .inl (List.mem_of_mem_drop after)

theorem mem_values_erase {m : Mapping NodeId} {key : Text} {x : NodeId}
    (member : x ∈ (m.erase key).map (·.2)) : x ∈ m.map (·.2) := by
  induction m with
  | nil => exact member
  | cons entry rest ih =>
    rw [Mapping.erase] at member
    split at member
    · exact List.mem_cons_of_mem _ member
    · rcases List.mem_cons.mp member with rfl | later
      · exact List.mem_cons_self
      · exact List.mem_cons_of_mem _ (ih later)

theorem mem_values_put {m : Mapping NodeId} {key : Text} {value x : NodeId}
    (member : x ∈ (m.put key value).map (·.2)) : x ∈ m.map (·.2) ∨ x = value := by
  induction m with
  | nil => exact .inr (List.mem_singleton.mp member)
  | cons entry rest ih =>
    rw [Mapping.put] at member
    split at member
    · rcases List.mem_cons.mp member with rfl | later
      · exact .inr rfl
      · exact .inl (List.mem_cons_of_mem _ later)
    · rcases List.mem_cons.mp member with rfl | later
      · exact .inl List.mem_cons_self
      · exact (ih later).imp_left (List.mem_cons_of_mem _)

theorem settleMapping_placed {s s' : Store} {id : MappingId} {kind : Kind} {key : Text}
    {keys : List Text} {n : NodeId} {given : Option (List NodeId)} {cursor : Cursor}
    (settled : settleMapping s id kind key keys n given = .ok (cursor, s')) :
    Placed (given.getD []) s s' := by
  match given, settled with
  | none, rfl => exact .refl s
  | some [], rfl => exact Store.placed_setMapping fun m member => .inl (mem_values_erase member)
  | some [value], rfl =>
    refine Store.placed_setMapping fun m member => (mem_values_put member).imp_right ?_
    rintro rfl
    exact List.mem_singleton_self _

theorem move_placed {s s₁ s₂ : Store} {frame : Frame} {rest : List Frame} {n : NodeId}
    {settle : Store → Option (List NodeId) → Except Rejection (Cursor × Store)}
    (next : move s frame rest = .offer n settle) {given : Option (List NodeId)} {cursor : Cursor}
    (settled : settle s₁ given = .ok (cursor, s₂)) : Placed (given.getD []) s₁ s₂ := by
  obtain ⟨errands, c⟩ := frame
  rcases offered?_cases (offered?_of_move next) with ⟨id, index, rfl, member⟩ | ⟨id, key, keys, rfl, value⟩
  · rw [move_member member] at next
    cases next
    have store : (settleSequence s₁ id index n given).2 = s₂ := congrArg (·.2) (Except.ok.inj settled)
    rw [← store]
    exact settleSequence_placed s₁ id index n given
  · rw [move_value value] at next
    cases next
    exact settleMapping_placed settled

section

variable {action : NodeId → Effect ε σ Reply} {root : Root} {w₀ w w' : World σ} {frame : Frame}
  {rest stack : List Frame}

theorem InsertsInner.step_ok (inner : InsertsInner action root w₀)
    (here : Reached action root w₀ (frame :: rest) w) (proper : w.store.Proper root)
    (done : step ⟨action, ignore⟩ frame rest w = (.ok stack, w')) : w'.store.Proper root := by
  have there : Reached action root w₀ stack w' := here.trans (.step done (.refl stack w'))
  have acyclic := inner.acyclic stack w' there
  cases next : move w.store frame rest with
  | visit n frame' =>
    rw [step_eq, next] at done
    cases done
    exact proper
  | go stack' =>
    rw [step_eq, next] at done
    cases done
    exact proper
  | offer n settle =>
    have offered := offered?_of_move next
    obtain ⟨reply, given, w₁, cursor, s, answer, usable, settled, -, rfl⟩ := (step_offer_iff next).mp done
    have called : w₁.store.Proper root := by
      have edited := inner.inserts frame rest w n here offered
      rw [answer] at edited
      exact edited.proper proper
    refine (move_placed next settled).proper ?_ acyclic called
    cases given with
    | none => simp
    | some ns => exact inner.returns frame rest w n reply w₁ ns here offered answer usable

theorem InsertsInner.step_error (inner : InsertsInner action root w₀)
    (here : Reached action root w₀ (frame :: rest) w) (proper : w.store.Proper root) {h : Halt ε}
    (failed : step ⟨action, ignore⟩ frame rest w = (.error h, w')) : w'.store.Proper root := by
  obtain ⟨n, offered, left⟩ := Walk.step_error failed
  have edited := inner.inserts frame rest w n here offered
  rw [left] at edited
  exact edited.proper proper

/-- Wherever a walk ends, the tree is proper. -/
theorem InsertsInner.run (inner : InsertsInner action root w₀) (fuel : Nat)
    (here : Reached action root w₀ stack w) (proper : w.store.Proper root) :
    (Walk.run ⟨action, ignore⟩ fuel stack w).2.store.Proper root := by
  induction fuel generalizing stack w with
  | zero => cases stack <;> exact proper
  | succ fuel ih =>
    cases stack with
    | nil => exact proper
    | cons frame rest =>
      rw [Walk.run]
      cases first : step ⟨action, ignore⟩ frame rest w with
      | mk result w₁ =>
        cases result with
        | error h => exact inner.step_error here proper first
        | ok stack =>
          exact ih (here.trans (.step first (.refl stack w₁))) (inner.step_ok here proper first)

theorem InsertsInner.transform (inner : InsertsInner action root w) (proper : w.store.Proper root)
    (fuel : Nat) : (Walk.transform fuel action root w).2.store.Proper root :=
  inner.run fuel ⟨0, [], .refl _ _⟩ proper

end

end DocTree.Walk
