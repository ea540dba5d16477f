import DocTree.Proofs.Filter.InTurn
import DocTree.Proofs.Filter.KeepingText
import DocTree.Proofs.Walk.Progress
/-!
The metadata that the actions of a filter are called with, if none are given. They are those of the document,
in every pass, and a pass goes through them before it comes to the blocks. So where actions edit nothing but what
is below the node that they are offered, the calls for what is in the blocks find the metadata as the pass leaves
them.
-/

namespace DocTree

variable {ε σ : Type}

namespace Store

/-- A node is somewhere below the blocks of a document. -/
def InBody (s : Store) (document n : NodeId) : Prop :=
  ∃ version own blocks below, s.element document = .document version own blocks ∧
    s.Spans [.sequence blocks] below ∧ .node n ∈ below

end Store

theorem World.eq_noting {w : World σ} {w' : World (σ × List (Filter.Call ε σ))}
    (alike : w.Alike (fun st st' => st'.1 = st) w') : w' = w.noting w'.state.2 := by
  obtain ⟨s, state⟩ := w
  obtain ⟨s', state', calls⟩ := w'
  obtain ⟨same, same'⟩ := alike
  obtain rfl : s' = s := same
  obtain rfl : state' = state := same'
  rfl

def Callable.note (c : Callable (Action ε σ)) (occasion : Occasion) (call : Walk.Call σ) : Filter.Call ε σ :=
  ⟨c, occasion, call.node, call.world⟩

theorem Callable.transform_noted (c : Callable (Action ε σ)) (occasion : Occasion) (fuel : Nat) (root : Root)
    (w : World σ) (prior : List (Filter.Call ε σ)) :
    Walk.transform fuel ((Handler.plain c).noted.perform occasion) root (w.noting prior) =
      ((Walk.transform fuel (c.act occasion) root w).1, (Walk.transform fuel (c.act occasion) root w).2.noting
        (prior ++ (Walk.callsOf (c.act occasion) fuel [.ofRoot root] w).map (c.note occasion))) := by
  have noted : Matches (fun st st' => st'.1 = st.1 ∧ st'.2 = prior ++ st.2.map (c.note occasion))
      (Walk.transform fuel (Walk.logged (c.act occasion)) root (w.logging []))
      (Walk.transform fuel ((Handler.plain c).noted.perform occasion) root (w.noting prior)) := by
    refine Walk.run_matches ?_ ?_ ⟨rfl, rfl, by simp [World.logging, World.noting]⟩
    · rintro n ⟨s, state, log⟩ ⟨s', state', calls⟩ ⟨same, same', isLog⟩
      obtain rfl : s' = s := same
      obtain rfl : state' = state := same'
      obtain rfl : calls = prior ++ log.map (c.note occasion) := isLog
      refine ⟨rfl, rfl, rfl, ?_⟩
      change (prior ++ log.map (c.note occasion)) ++ [c.note occasion (⟨n, ⟨s', state'⟩⟩ : Walk.Call σ)] =
        prior ++ (log ++ [(⟨n, ⟨s', state'⟩⟩ : Walk.Call σ)]).map (c.note occasion)
      rw [List.map_append, List.append_assoc]
      rfl
    · exact fun _ _ _ _ alike => ⟨rfl, alike⟩
  rw [Walk.transform_logged_eq] at noted
  obtain ⟨same, store, same', isLog⟩ := noted
  refine Prod.ext same ((World.eq_noting ⟨store, same'⟩).trans ?_)
  rw [isLog]
  rfl

namespace Filter

def TamePasses (fuel : Nat) (f : Filter (Action ε σ)) (root : Root) (format : Json)
    (metadata : Option MappingId) (w : World σ) : Prop :=
  ∀ before handler after w', f.handlers = before ++ handler :: after →
    apply fuel ⟨before⟩ root format metadata w = (.ok (), w') →
    Walk.Tame (handler.perform (occasionOf root format metadata w)) root w'

theorem KeepsText.tamePasses {fuel : Nat} {f : Filter (Action ε σ)} {root : Root} {format : Json}
    {metadata : Option MappingId} {w : World σ} (keeps : KeepsText fuel f root format metadata w)
    (unshared : w.store.Unshared root) : TamePasses fuel f root format metadata w := by
  intro before handler after w' split applied
  have walk := keeps before handler after w' split applied
  obtain ⟨all, spans, nodup⟩ := unshared
  have begun := spans.agree fun o _ => prepared_same root metadata w o
  rw [apply_eq] at applied
  have earlier_keep : ∀ before' handler' after' w', before = before' ++ handler' :: after' → _ → _ :=
    fun before' handler' after' w' eq passed => keeps before' handler' (after' ++ handler :: after) w'
      (by simp [split, eq]) ((apply_eq _ ⟨before'⟩ _ _ _ _).trans passed)
  exact walk.toGrafts.tame (passes_keepText 1 ⟨all, begun, nodup⟩ earlier_keep applied).1

section

variable {c : Callable (Action ε σ)} {handlers : List (Handler (Action ε σ))}
  {occasion : Occasion} {fuel number : Nat} {root : Root} {document : NodeId} {own : MappingId}
  {w w₁ w₂ : World σ}

theorem pass_noted (passed : passes fuel occasion root number handlers w = (.ok (), w₁))
    (pass : Walk.transform fuel (c.act occasion) root w₁ = (.ok (), w₂)) (prior : List (Call ε σ)) :
    ∃ earlier,
      passes fuel occasion root number (handlers.map Handler.noted) (w.noting prior) =
        (.ok (), w₁.noting earlier) ∧
      passes fuel occasion root number ((handlers ++ [Handler.plain c]).map Handler.noted) (w.noting prior) =
        (.ok (), w₂.noting
          (earlier ++ (Walk.callsOf (c.act occasion) fuel [.ofRoot root] w₁).map (c.note occasion))) := by
  have noted : Matches (fun st st' => st'.1 = st) (passes fuel occasion root number handlers w)
      (passes fuel occasion root number (handlers.map Handler.noted) (w.noting prior)) :=
    passes_noted fuel occasion root number handlers ⟨rfl, rfl⟩
  rw [passed] at noted
  have before : passes fuel occasion root number (handlers.map Handler.noted) (w.noting prior) =
      (.ok (), w₁.noting _) := Prod.ext noted.1 (World.eq_noting noted.2)
  have last := c.transform_noted occasion fuel root w₁
    (passes fuel occasion root number (handlers.map Handler.noted) (w.noting prior)).2.state.2
  rw [pass] at last
  refine ⟨_, before, ?_⟩
  rw [List.map_append]
  exact passes_snoc_iff.mpr ⟨_, before, last⟩

theorem apply_document {f : Filter (Action ε σ)} (isDocument : w.store.metadata? document = some own)
    (format : Json) : f.apply fuel (.node document) format none w =
      passes fuel (.plain (formatOf format) own) (.node document) 1 f.handlers w := by
  rw [apply_eq, occasionOf, prepared_document isDocument]

theorem passes_calls (plain : ∀ h ∈ handlers, ∃ c, h = .plain c) (number : Nat) (prior : List (Call ε σ)) :
    ∀ call ∈ (passes fuel occasion root number (handlers.map Handler.noted) (w.noting prior)).2.state.2,
      call ∈ prior ∨ ∃ before c after w', handlers = before ++ .plain c :: after ∧
        passes fuel occasion root number before w = (.ok (), w') ∧
        ∃ made ∈ Walk.callsOf (c.act occasion) fuel [.ofRoot root] w', call = c.note occasion made := by
  induction handlers generalizing number w prior with
  | nil => exact fun call member => .inl member
  | cons h rest ih =>
    obtain ⟨⟨c, rfl⟩, others⟩ := List.forall_mem_cons.mp plain
    have noted := c.transform_noted occasion fuel root w prior
    have now : ∀ call ∈ prior ++ (Walk.callsOf (c.act occasion) fuel [.ofRoot root] w).map (c.note occasion),
        call ∈ prior ∨ ∃ before c' after w', Handler.plain c :: rest = before ++ .plain c' :: after ∧
          passes fuel occasion root number before w = (.ok (), w') ∧
          ∃ made ∈ Walk.callsOf (c'.act occasion) fuel [.ofRoot root] w', call = c'.note occasion made := by
      intro call member
      rcases List.mem_append.mp member with before | own
      · exact .inl before
      · obtain ⟨made, among, rfl⟩ := List.mem_map.mp own
        exact .inr ⟨[], c, rest, w, rfl, rfl, made, among, rfl⟩
    cases pass : Walk.transform fuel (c.act occasion) root w with
    | mk result w₁ =>
      rw [pass] at noted
      cases result with
      | error halt =>
        rw [List.map_cons, passes, noted]
        exact now
      | ok =>
        intro call member
        rw [List.map_cons, passes_cons_of_ok noted] at member
        rcases ih others (number + 1) _ call member with before | ⟨before, c', after, w', rfl, earlier, made⟩
        · exact now call before
        · exact .inr ⟨.plain c :: before, c', after, w', rfl, (passes_cons_of_ok pass).trans earlier, made⟩

theorem reached_metadata {action : NodeId → Effect ε σ Reply} {stack : List Walk.Frame}
    (tame : Walk.Tame action (.node document) w) (isDocument : w.store.metadata? document = some own)
    (reached : Walk.Reached action (.node document) w stack w₁) : w₁.store.metadata? document = some own :=
  (Store.metadata?_of_element (tame.root_same reached)).trans isDocument

theorem pass_metadata {action : NodeId → Effect ε σ Reply} (tame : Walk.Tame action (.node document) w)
    (isDocument : w.store.metadata? document = some own)
    (ended : Walk.transform fuel action (.node document) w = (.ok (), w₁)) :
    w₁.store.metadata? document = some own := by
  obtain ⟨n, _, calls, course⟩ := Walk.run_eq_ok_iff.mp ended
  exact reached_metadata tame isDocument ⟨n, calls, course⟩

theorem passes_metadata (isDocument : w.store.metadata? document = some own)
    (tame : ∀ before handler after w', handlers = before ++ handler :: after →
      passes fuel occasion (.node document) number before w = (.ok (), w') →
      Walk.Tame (handler.perform occasion) (.node document) w')
    (passed : passes fuel occasion (.node document) number handlers w = (.ok (), w₁)) :
    w₁.store.metadata? document = some own :=
  passes_invariant (P := fun w => w.store.metadata? document = some own) isDocument
    (fun before handler after w' _ split earlier own pass =>
      pass_metadata (tame before handler after w' split earlier) own pass) passed

/-- What is offered in the blocks in a tame pass that comes to its end is offered with the metadata as that
leaves them. -/
theorem pass_body_metadata (tame : Walk.Tame (c.act occasion) (.node document) w)
    (isDocument : w.store.metadata? document = some own)
    (ended : Walk.transform fuel (c.act occasion) (.node document) w = (.ok (), w₁)) :
    ∀ call ∈ Walk.callsOf (c.act occasion) fuel [.ofRoot (.node document)] w,
      call.world.store.InBody document call.node →
      ∃ inside, call.world.store.Spans [.mapping own] inside ∧
        ∀ o ∈ inside, Store.Same call.world.store w₁.store o := by
  intro call member inBody
  have logged := Walk.transform_logged_eq (c.act occasion) fuel (.node document) w
  rw [ended] at logged
  obtain ⟨n, _, course⟩ := Walk.transform_logged_ok_iff.mp logged
  obtain ⟨k, m, frame, rest, earlier, later, before, next, behind⟩ := course.of_mem member
  obtain ⟨version, blocks, element⟩ := Store.metadata?_eq_some isDocument
  obtain ⟨_, _, _, below, element', spans, inside⟩ := inBody
  rw [tame.root_same ⟨k, earlier, before⟩, element] at element'
  cases element'
  exact tame.metadata_settled element before next behind spans inside

end

/-- If no metadata are given, and every action edits nothing but what is below the node that it is offered and
brings no sharing into the document, then all calls are made with the metadata mapping that the document has at
that time. In a pass that comes to its end, the calls for what is in the blocks find in the mapping, and in
everything below it, what is there at the end of the pass. -/
theorem body_sees_final_metadata {f : Filter (Action ε σ)} {fuel : Nat} {document : NodeId} {format : Json}
    {own : MappingId} {w : World σ} (plain : ∀ h ∈ f.handlers, ∃ c, h = .plain c)
    (isDocument : w.store.metadata? document = some own)
    (tame : TamePasses fuel f (.node document) format none w) :
    (∀ call ∈ (f.noted.apply fuel (.node document) format none (w.noting [])).2.state.2,
      call.occasion = .plain (formatOf format) own ∧ call.world.store.metadata? document = some own) ∧
    ∀ before handler after w₁ w₂, f.handlers = before ++ handler :: after →
      apply fuel ⟨before⟩ (.node document) format none w = (.ok (), w₁) →
      apply fuel ⟨before ++ [handler]⟩ (.node document) format none w = (.ok (), w₂) →
      w₂.store.metadata? document = some own ∧ ∃ earlier calls,
        apply fuel (noted ⟨before⟩) (.node document) format none (w.noting []) = (.ok (), w₁.noting earlier) ∧
        apply fuel (noted ⟨before ++ [handler]⟩) (.node document) format none (w.noting []) =
          (.ok (), w₂.noting (earlier ++ calls)) ∧
        ∀ call ∈ calls, call.world.store.InBody document call.node →
          call.occasion = .plain (formatOf format) own ∧
          ∃ inside, call.world.store.Spans [.mapping own] inside ∧ w₂.store.Spans [.mapping own] inside ∧
            (∀ o ∈ inside, Store.Same call.world.store w₂.store o) ∧
            ((∀ m, .node m ∈ inside → call.world.store.Elemental m) →
              w₂.store.entriesAt own = call.world.store.entriesAt own) := by
  have occasion : occasionOf (.node document) format none w = .plain (formatOf format) own := by
    rw [occasionOf, prepared_document isDocument]
  rw [TamePasses, occasion] at tame
  simp only [apply_document isDocument] at tame ⊢
  have begins : ∀ before handler after w', f.handlers = before ++ handler :: after →
      passes fuel (.plain (formatOf format) own) (.node document) 1 before w = (.ok (), w') →
      w'.store.metadata? document = some own := by
    intro before handler after w' split
    exact passes_metadata isDocument fun before' handler' after' w' eq =>
      tame before' handler' (after' ++ handler :: after) w' (by simp [split, eq])
  -- Noting the calls leaves the store as it is.
  have isDocument' : (w.noting ([] : List (Call ε σ))).store.metadata? document = some own := isDocument
  constructor
  · intro call member
    rw [apply_document isDocument'] at member
    rcases passes_calls plain 1 [] call member with none | ⟨before, c, after, w', split, passed, made, among, rfl⟩
    · cases none
    · obtain ⟨_, _, reached, _⟩ := Walk.callsOf_reached fuel ⟨0, [], .refl _ _⟩ among
      exact ⟨rfl, reached_metadata (tame _ _ _ _ split passed) (begins _ _ _ _ split passed) reached⟩
  · intro before handler after w₁ w₂ split applied appliedToo
    obtain ⟨c, rfl⟩ := plain handler (by simp [split])
    have before_own := begins _ _ _ _ split applied
    have walk : Walk.Tame (c.act (.plain (formatOf format) own)) (.node document) w₁ :=
      tame _ _ _ _ split applied
    obtain ⟨w', applied', pass⟩ := passes_snoc_iff.mp appliedToo
    obtain rfl : w₁ = w' := congrArg Prod.snd (applied.symm.trans applied')
    obtain ⟨earlier, noted, notedToo⟩ := pass_noted applied pass []
    refine ⟨pass_metadata walk before_own pass, earlier, _, (apply_document isDocument' format).trans noted,
      (apply_document isDocument' format).trans notedToo, ?_⟩
    intro call member inBody
    obtain ⟨made, among, rfl⟩ := List.mem_map.mp member
    obtain ⟨inside, spans, same⟩ := pass_body_metadata walk before_own pass made among inBody
    exact ⟨rfl, inside, spans, spans.agree same, same, fun elemental =>
      spans.entriesAt_agree same elemental (spans.mem (List.mem_singleton_self _))⟩

/-! A title, and a paragraph. The first pass takes them out of their wrappings, and the paragraph when the title
is out already. -/

def headed : Store :=
  .ofElements [.document [1, 23] ⟨0⟩ ⟨0⟩, .wrap .metaInlines ⟨1⟩, .text .str "title", .wrap .para ⟨2⟩,
    .text .str "word"] [[⟨3⟩], [⟨2⟩], [⟨4⟩]] [[("title", ⟨1⟩)]]

theorem headed_spans : headed.Spans [.node ⟨0⟩] [.node ⟨0⟩, .mapping ⟨0⟩, .node ⟨1⟩, .sequence ⟨1⟩, .node ⟨2⟩,
    .sequence ⟨0⟩, .node ⟨3⟩, .sequence ⟨2⟩, .node ⟨4⟩] :=
  Store.spans_of_spanned? (rfl : headed.spanned? 10 _ = _)

def bare : Store :=
  { headed with sequences := #[[⟨4⟩], [⟨2⟩], [⟨4⟩]], mappings := #[[("title", ⟨2⟩)]] }

def sightings (calls : List (Call Empty Nat)) : List (NodeId × Mapping NodeId) :=
  calls.map fun call => (call.node, call.world.store.mapping ⟨0⟩)

theorem headed_body_sees :
    TamePasses 30 unwrapping (.node ⟨0⟩) .null none ⟨headed, 0⟩ ∧
    unwrapping.apply 30 (.node ⟨0⟩) .null none ⟨headed, 0⟩ = (.ok (), ⟨bare, 0⟩) ∧
    sightings (unwrapping.noted.apply 30 (.node ⟨0⟩) .null none (World.noting ⟨headed, 0⟩ [])).2.state.2 =
      ([(⟨1⟩, [("title", ⟨1⟩)]), (⟨3⟩, [("title", ⟨2⟩)]), (⟨2⟩, [("title", ⟨2⟩)]), (⟨4⟩, [("title", ⟨2⟩)])] :
        List (NodeId × Mapping NodeId)) ∧
    (∀ call ∈ (unwrapping.noted.apply 30 (.node ⟨0⟩) .null none (World.noting ⟨headed, 0⟩ [])).2.state.2,
      call.occasion = .plain (formatOf .null) ⟨0⟩ ∧ call.world.store.metadata? ⟨0⟩ = some ⟨0⟩) ∧
    ∃ earlier calls, unwrapping.noted.apply 30 (.node ⟨0⟩) .null none (World.noting ⟨headed, 0⟩ []) =
        (.ok (), World.noting ⟨bare, 0⟩ (earlier ++ calls)) ∧
      ∀ call ∈ calls, call.world.store.InBody ⟨0⟩ call.node →
        bare.mapping ⟨0⟩ = call.world.store.mapping ⟨0⟩ := by
  have tame : TamePasses 30 unwrapping (.node ⟨0⟩) .null none ⟨headed, 0⟩ :=
    (unwrapping_keepsText _ _ _ _ _).tamePasses ⟨_, headed_spans, by decide⟩
  have plain : ∀ h ∈ unwrapping.handlers, ∃ c, h = .plain c := by simp [unwrapping]
  obtain ⟨receives, sees⟩ := body_sees_final_metadata (w := ⟨headed, 0⟩) plain rfl tame
  -- The pass of the second action, which comes after that of the first one.
  obtain ⟨_, earlier, calls, _, noted, settled⟩ := sees [_] _ [] _ ⟨bare, 0⟩ rfl rfl rfl
  refine ⟨tame, rfl, rfl, receives, earlier, calls, noted, fun call member inBody => ?_⟩
  obtain ⟨_, inside, spans, _, same, _⟩ := settled call member inBody
  exact same (.mapping ⟨0⟩) (spans.mem (List.mem_singleton_self _))

end Filter

end DocTree
