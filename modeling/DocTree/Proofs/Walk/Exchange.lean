import DocTree.Proofs.Store.Exchange
import DocTree.Proofs.Walk.Ending
/-!
What one step of a walk does to a tree: if it offers a member of a container, it puts what is given for that
member in its place, and else nothing.
-/

namespace DocTree.Walk

open Store (Object Same Exchanged)

variable {ε σ : Type} {action : NodeId → Effect ε σ Reply} {w w' : World σ} {frame : Frame}
  {rest stack : List Frame} {n : NodeId} {s s' : Store}

theorem settleMapping_edits {id : MappingId} {kind : Kind} {key : Text} {keys : List Text}
    {given : Option (List NodeId)} {cursor : Cursor} {o : Object}
    (settled : settleMapping s id kind key keys n given = .ok (cursor, s')) (other : o ≠ .mapping id) :
    Same s s' o := by
  match given with
  | none =>
    cases settled
    exact .refl s o
  | some [] =>
    cases settled
    exact Store.same_setMapping other
  | some [m] =>
    cases settled
    exact Store.same_setMapping other
  | some (_ :: _ :: _) => cases settled

theorem settleSequence_edits {id : SequenceId} {index : Nat} {given : Option (List NodeId)} {o : Object}
    (other : o ≠ .sequence id) : Same s (settleSequence s id index n given).2 o := by
  cases given with
  | none => exact .refl s o
  | some ns => exact Store.same_setSequence other

theorem append_of_getElem? {α : Type} {l : List α} {index : Nat} {a : α} (found : l[index]? = some a) :
    ∃ before after, l = before ++ a :: after ∧ before.length = index := by
  obtain ⟨inside, rfl⟩ := List.getElem?_eq_some_iff.mp found
  refine ⟨l.take index, l.drop (index + 1), ?_, List.length_take_of_le (Nat.le_of_lt inside)⟩
  rw [List.getElem_cons_drop, List.take_append_drop]

/-- A step that offers a member of a container does nothing but put what is given for it in its place. -/
theorem step_exchanges (next : offered? w.store frame rest = some n)
    (first : step ⟨action, ignore⟩ frame rest w = (.ok stack, w')) :
    ∃ cursor ns w₁, frame.cursor = some cursor ∧ .node n ∈ w.store.parts cursor.object ∧
      Gives action n w ns w₁ ∧ (∀ o ≠ cursor.object, Same w₁.store w'.store o) ∧
      (w.store.Sound cursor.object → Same w.store w₁.store cursor.object →
        Exchanged w.store w'.store n ns cursor.object) := by
  obtain ⟨errands, cursor⟩ := frame
  obtain ⟨id, index, rfl, member⟩ | ⟨id, key, keys, rfl, value⟩ := offered?_cases next
  · obtain ⟨reply, given, w₁, cursor, s, answer, usable, settled, rfl, rfl⟩ :=
      (step_offer_iff (move_member member)).mp first
    obtain rfl : (settleSequence w₁.store id index n given).2 = s := congrArg Prod.snd (Except.ok.inj settled)
    have gives : Gives action n w (given.getD [n]) w₁ := ⟨reply, given, answer, usable, rfl⟩
    refine ⟨_, _, w₁, rfl, List.mem_map_of_mem (List.mem_of_getElem? member), gives,
      fun o other => settleSequence_edits other, fun _ kept => ?_⟩
    obtain ⟨before, after, content, rfl⟩ := append_of_getElem? member
    have content₁ : w₁.store.sequence id = before ++ n :: after := Eq.trans kept content
    refine .member content ?_
    rw [settleSequence_eq content₁]
    exact Store.sequence_setSequence (by simp [content₁])
  · obtain ⟨reply, given, w₁, cursor, s, answer, usable, settled, rfl, rfl⟩ :=
      (step_offer_iff (move_value value)).mp first
    have gives : Gives action n w (given.getD [n]) w₁ := ⟨reply, given, answer, usable, rfl⟩
    have inMapping := Mapping.get?_mem value
    refine ⟨_, _, w₁, rfl, List.mem_map.mpr ⟨_, inMapping, rfl⟩, gives,
      fun o other => settleMapping_edits settled other, fun sound kept => ?_⟩
    obtain ⟨before, after, content⟩ := List.append_of_mem inMapping
    have content₁ : w₁.store.mapping id = before ++ (key, n) :: after := Eq.trans kept content
    have distinct : (w₁.store.mapping id).keys.Nodup := kept.sound sound
    obtain ⟨room, _, rfl⟩ := (settleMapping_eq_ok_iff content₁ distinct).mp settled
    exact .entry content (entry_placed content kept _) room

theorem step_quiet (quiet : offered? w.store frame rest = none)
    (first : step ⟨action, ignore⟩ frame rest w = (.ok stack, w')) : w' = w := by
  rw [step_eq] at first
  unfold offered? at quiet
  cases next : move w.store frame rest with
  | visit n frame' =>
    rw [next] at first
    exact (Prod.mk.inj first).2.symm
  | go stack' =>
    rw [next] at first
    exact (Prod.mk.inj first).2.symm
  | offer n settle =>
    rw [next] at quiet
    cases quiet

/-- On a walk over a tree, an action edits nothing of the tree, and what it gives for a node are nodes of the
subtree of that node or new ones, in which nothing is reached in two ways. -/
structure Grafts (action : NodeId → Effect ε σ Reply) (root : Root) (w₀ : World σ) : Prop where
  still : ∀ frame rest w n all, Reached action root w₀ (frame :: rest) w →
    offered? w.store frame rest = some n → w.store.Spans [root.object] all →
    ∀ o ∈ all, Same w.store ((action n).run w).2.store o
  given : ∀ frame rest w n ns w₁ all below, Reached action root w₀ (frame :: rest) w →
    offered? w.store frame rest = some n → Gives action n w ns w₁ →
    w.store.Spans [root.object] all → all.Nodup → .node n ∈ all → w.store.Spans [.node n] below →
    ∃ given, w₁.store.Spans (ns.map .node) given ∧ given.Nodup ∧ ∀ o ∈ given, o ∈ all → o ∈ below

/-- What a step has made of a tree without sharing: nothing, or what was below a member of a container has
given way to what is below the nodes that were given for it. -/
inductive Stepped (action : NodeId → Effect ε σ Reply) (root : Root) (frame : Frame) (rest : List Frame)
    (w w' : World σ) : Prop
  | same {all : List Object} (spans : w.store.Spans [root.object] all) (nodup : all.Nodup)
      (kept : ∀ o ∈ all, Same w.store w'.store o)
  | grafted {container : Object} {n : NodeId} {ns : List NodeId} {w₁ : World σ}
      {before below given after : List Object}
      (spans : w.store.Spans [root.object] (before ++ below ++ after)) (nodup : (before ++ below ++ after).Nodup)
      (inTree : container ∈ before ++ after) (next : offered? w.store frame rest = some n)
      (inner : w.store.Spans [.node n] below) (gives : Gives action n w ns w₁)
      (still : ∀ o ∈ before ++ below ++ after, Same w.store w₁.store o)
      (new : w₁.store.Spans (ns.map .node) given) (exchanged : Exchanged w.store w'.store n ns container)
      (spans' : w'.store.Spans [root.object] (before ++ given ++ after))
      (nodup' : (before ++ given ++ after).Nodup) (edits : ∀ o ≠ container, Same w₁.store w'.store o)

section

variable {root : Root} {w₀ : World σ}

theorem Stepped.unshared (stepped : Stepped action root frame rest w w') : w'.store.Unshared root := by
  cases stepped with
  | same spans nodup kept => exact ⟨_, spans.agree kept, nodup⟩
  | grafted _ _ _ _ _ _ _ _ _ spans' nodup' _ => exact ⟨_, spans', nodup'⟩

/-- What is given for a member comes into the tree as a whole, and nothing else does. -/
theorem stepped_of_exchanged {container : Object} {ns : List NodeId} {w₁ : World σ} {all : List Object}
    (spans : w.store.Spans [root.object] all) (nodup : all.Nodup) (inTree : container ∈ all)
    (next : offered? w.store frame rest = some n) (gives : Gives action n w ns w₁)
    (still : ∀ o ∈ all, Same w.store w₁.store o)
    (exchanged : Exchanged w.store w'.store n ns container)
    (edits : ∀ o ≠ container, Same w₁.store w'.store o)
    (grafted : ∀ below, w.store.Spans [.node n] below →
      ∃ given, w₁.store.Spans (ns.map .node) given ∧ given.Nodup ∧ ∀ o ∈ given, o ∈ all → o ∈ below) :
    Stepped action root frame rest w w' := by
  obtain ⟨before, after, content, placed⟩ := exchanged.parts
  have part : .node n ∈ w.store.parts container := by simp [content]
  obtain ⟨below, inner, within⟩ := spans.deep (spans.closed inTree part)
  obtain ⟨given, new, given_nodup, known⟩ := grafted below inner
  have outside : container ∉ below := by
    obtain ⟨inside, under, _⟩ := spans.deep inTree
    obtain ⟨inside, rfl, _, inside_spans⟩ := under.of_single
    obtain ⟨other, other_spans, contained⟩ := inside_spans.of_mem part
    obtain rfl := other_spans.unique inner
    exact fun member => spans.not_below nodup inTree inside_spans (contained member)
  -- The container itself is not among what is given, so that this is the same after the step.
  have apart : container ∉ given := fun member => outside (known container member inTree)
  have new' := new.agree fun o member => edits o fun eq => apart (eq ▸ member)
  have kept : ∀ o ∈ all, o ≠ container → Same w.store w'.store o :=
    fun o member other => (still o member).trans (edits o other)
  obtain ⟨first, below', last, rfl, inner', spans'⟩ := spans.exchange nodup inTree content placed
    (exchanged.sound (spans.soundOf inTree)) kept new'
  obtain rfl := inner'.unique inner
  refine .grafted spans nodup ?_ next inner gives still new exchanged spans' ?_ edits
  · simp only [List.mem_append] at inTree ⊢
    tauto
  · obtain ⟨left_nodup, last_nodup, apart_last⟩ := List.nodup_append.mp nodup
    obtain ⟨first_nodup, _, apart_first⟩ := List.nodup_append.mp left_nodup
    refine List.nodup_append.mpr ⟨List.nodup_append.mpr ⟨first_nodup, given_nodup, ?_⟩, last_nodup, ?_⟩
    · rintro o member _ new rfl
      exact apart_first o member o (known o new (by simp [member])) rfl
    · rintro o member _ later rfl
      rcases List.mem_append.mp member with earlier | new
      · exact apart_last o (List.mem_append_left _ earlier) o later rfl
      · exact apart_last o (List.mem_append_right _ (known o new (by simp [later]))) o later rfl

/-- What a step makes of a tree, if what it may offer is not edited and grafted as it must be. -/
theorem stepped_of_step {all : List Object} (spans : w.store.Spans [root.object] all) (nodup : all.Nodup)
    (first : step ⟨action, ignore⟩ frame rest w = (.ok stack, w'))
    (still : ∀ n, offered? w.store frame rest = some n → ∀ o ∈ all, Same w.store ((action n).run w).2.store o)
    (given : ∀ n ns w₁ below, offered? w.store frame rest = some n → Gives action n w ns w₁ → .node n ∈ all →
      w.store.Spans [.node n] below →
      ∃ given, w₁.store.Spans (ns.map .node) given ∧ given.Nodup ∧ ∀ o ∈ given, o ∈ all → o ∈ below) :
    Stepped action root frame rest w w' := by
  cases next : offered? w.store frame rest with
  | none => exact .same spans nodup fun o _ => step_quiet next first ▸ .refl w.store o
  | some n =>
    obtain ⟨cursor, ns, w₁, _, part, gives, edits, exchanged⟩ := step_exchanges next first
    have still := still n next
    rw [gives.world] at still
    by_cases inTree : cursor.object ∈ all
    · have exchanged := exchanged (spans.soundOf inTree) (still _ inTree)
      exact stepped_of_exchanged spans nodup inTree next gives still exchanged edits fun below =>
        given n ns w₁ below next gives (spans.closed inTree part)
    · exact .same spans nodup fun o member =>
        (still o member).trans (edits o fun eq => inTree (eq ▸ member))

theorem Grafts.stepped (grafts : Grafts action root w₀) (unshared : w.store.Unshared root)
    (reached : Reached action root w₀ (frame :: rest) w)
    (first : step ⟨action, ignore⟩ frame rest w = (.ok stack, w')) : Stepped action root frame rest w w' := by
  obtain ⟨all, spans, nodup⟩ := unshared
  exact stepped_of_step spans nodup first (fun n next => grafts.still _ _ _ n all reached next spans)
    fun n ns w₁ below next gives => grafts.given _ _ _ n ns w₁ all below reached next gives spans nodup

/-- What a walk keeps with every step that it makes of a tree without sharing holds wherever it comes. -/
theorem Grafts.invariant (grafts : Grafts action root w₀) (unshared : w₀.store.Unshared root)
    {P : World σ → Prop} (start : P w₀)
    (kept : ∀ frame rest w stack w', Reached action root w₀ (frame :: rest) w → P w →
      step ⟨action, ignore⟩ frame rest w = (.ok stack, w') → Stepped action root frame rest w w' → P w')
    (reached : Reached action root w₀ stack w) : w.store.Unshared root ∧ P w := by
  refine (reached.invariant (fun stack w => Reached action root w₀ stack w ∧ w.store.Unshared root ∧ P w)
    ⟨⟨0, [], .refl _ _⟩, unshared, start⟩ ?_).2
  rintro frame rest w stack w' ⟨reached, unshared, before⟩ first
  have stepped := grafts.stepped unshared reached first
  exact ⟨reached.trans (.step first (.refl _ _)), stepped.unshared, kept _ _ w stack w' reached before first stepped⟩

theorem Grafts.tame (grafts : Grafts action root w₀) (unshared : w₀.store.Unshared root) :
    Tame action root w₀ where
  unshared := fun _ _ reached =>
    (grafts.invariant (P := fun _ => True) unshared trivial (fun _ _ _ _ _ _ _ _ _ => trivial) reached).1
  inside := fun _ _ _ _ _ _ reached next spans _ o member _ =>
    grafts.still _ _ _ _ _ reached next spans o member

end

end DocTree.Walk
