import DocTree.Proofs.Action.Fields
import DocTree.Proofs.Filter.Deletion
import DocTree.Proofs.Filter.Idle
import DocTree.Proofs.Node.Flattened
import DocTree.Proofs.Walk.Building
import DocTree.Recipe.Flatten
import DocTree.Version.Range
/-!
What the flattening program makes of a tree that is decoded. Its first pass builds paragraphs around what
headers have in them, and its second one deletes; together they come to the tree of one recursion.
-/

namespace DocTree.Recipe

open Store (Adding Object Weighting)
open Walk (Gives Lightens Answers)

variable {σ : Type} {s : Store} {root : Root} {q : SequenceId} {n : NodeId} {ns : List NodeId} {w w₁ : World σ}
  {inside : List Object}

/-- Adds a paragraph with an emphasis in it that has a sequence as its content. -/
def emphasise (q : SequenceId) : Adding NodeId := fun s =>
  (⟨s.records.size + 1⟩,
    ⟨(s.records.push (.simple (.wrap .emph q))).push (.simple (.wrap .para ⟨s.sequences.size + 1⟩)), s.fittings,
      ((s.sequences.push []).push [⟨s.records.size⟩]).push [], (s.mappings.push []).push []⟩)

/-- What is new, from the paragraph down to the emphasis. -/
def around (s : Store) : List Object :=
  [.node ⟨s.records.size + 1⟩, .sequence ⟨s.sequences.size + 1⟩, .node ⟨s.records.size⟩]

theorem emphasise_extends (q : SequenceId) (s : Store) : s.Extends (emphasise q s).2 where
  records := fun _ _ known => Store.getElem?_push_of_some (Store.getElem?_push_of_some known)
  fittings := fun _ _ known => known
  sequences := fun _ _ known =>
    Store.getElem?_push_of_some (Store.getElem?_push_of_some (Store.getElem?_push_of_some known))
  mappings := fun _ _ known => Store.getElem?_push_of_some (Store.getElem?_push_of_some known)

theorem record_para (q : SequenceId) (s : Store) :
    (emphasise q s).2.record (emphasise q s).1 = .simple (.wrap .para ⟨s.sequences.size + 1⟩) := by
  simp [emphasise, Store.record, Array.getElem_push]

theorem record_emph (q : SequenceId) (s : Store) :
    (emphasise q s).2.record ⟨s.records.size⟩ = .simple (.wrap .emph q) := by
  simp [emphasise, Store.record, Array.getElem_push]

@[simp] theorem element_para (q : SequenceId) (s : Store) :
    (emphasise q s).2.element (emphasise q s).1 = .wrap .para ⟨s.sequences.size + 1⟩ := by
  rw [Store.element, record_para]
  rfl

@[simp] theorem element_emph (q : SequenceId) (s : Store) :
    (emphasise q s).2.element ⟨s.records.size⟩ = .wrap .emph q := by
  rw [Store.element, record_emph]
  rfl

@[simp] theorem sequence_para (q : SequenceId) (s : Store) :
    (emphasise q s).2.sequence ⟨s.sequences.size + 1⟩ = [⟨s.records.size⟩] := by
  simp [emphasise, Store.sequence, Array.getElem_push]

theorem around_new (q : SequenceId) (s : Store) : ∀ o ∈ around s, (emphasise q s).2.Genuine o ∧ ¬ s.Knows o := by
  have para : (emphasise q s).2.Elemental (emphasise q s).1 := by
    rw [Store.Elemental, element_para]
    change Kind.para ≠ Kind.list
    decide
  have emph : (emphasise q s).2.Elemental ⟨s.records.size⟩ := by
    rw [Store.Elemental, element_emph]
    change Kind.emph ≠ Kind.list
    decide
  have known : ∀ o ∈ around s, (emphasise q s).2.Knows o ∧ ¬ s.Knows o := by
    intro o member
    simp only [around, List.mem_cons, List.not_mem_nil, or_false] at member
    rcases member with rfl | rfl | rfl
    · have bare := Store.no_fitting (congrArg Record.fittings (record_para q s))
      refine ⟨⟨by simp [emphasise], fun p has => absurd has (bare p)⟩, fun before => ?_⟩
      exact absurd before.1 (Nat.not_lt_of_gt (Nat.lt_succ_self _))
    · simp [Store.Knows, emphasise]
    · have bare := Store.no_fitting (congrArg Record.fittings (record_emph q s))
      refine ⟨⟨by simp [emphasise], fun p has => absurd has (bare p)⟩, fun before => ?_⟩
      exact absurd before.1 (Nat.lt_irrefl _)
  refine fun o member => ⟨⟨(known o member).1, fun n isNode => ?_⟩, (known o member).2⟩
  subst isNode
  simp only [around, List.mem_cons, Object.node.injEq, reduceCtorEq, List.not_mem_nil, false_or, or_false]
    at member
  rcases member with rfl | rfl
  · exact para
  · exact emph

section

variable (spans : s.Spans [.sequence q] inside) (genuine : ∀ o ∈ inside, s.Genuine o)
include spans genuine

theorem emphasise_spans : (emphasise q s).2.Spans [.node (emphasise q s).1] (around s ++ inside) := by
  have kept := spans.agree fun o member => (emphasise_extends q s).same (genuine o member).known
  have emph : (emphasise q s).2.parts (.node ⟨s.records.size⟩) = [.sequence q] := by
    rw [Store.parts, element_emph]
    rfl
  have body : (emphasise q s).2.parts (.sequence ⟨s.sequences.size + 1⟩) = [.node ⟨s.records.size⟩] := by
    rw [Store.parts, sequence_para]
    rfl
  have para : (emphasise q s).2.parts (.node (emphasise q s).1) = [.sequence ⟨s.sequences.size + 1⟩] := by
    rw [Store.parts, element_para]
    rfl
  rw [← emph] at kept
  have inner : (emphasise q s).2.Spans [.node ⟨s.records.size⟩] (.node ⟨s.records.size⟩ :: inside) :=
    .single trivial kept
  rw [← body] at inner
  have middle : (emphasise q s).2.Spans [.sequence ⟨s.sequences.size + 1⟩] _ := .single trivial inner
  rw [← para] at middle
  exact .single trivial middle

omit spans in
theorem emphasise_genuine : ∀ o ∈ around s ++ inside, (emphasise q s).2.Genuine o ∧ (s.Knows o → o ∈ inside) := by
  intro o member
  rcases List.mem_append.mp member with new | old
  · exact ⟨(around_new q s o new).1, fun known => absurd known (around_new q s o new).2⟩
  · exact ⟨(genuine o old).of_extends (emphasise_extends q s), fun _ => old⟩

theorem node_emphasise : (emphasise q s).2.node (emphasise q s).1 = .emphasisedPara (s.nodesAt q) := by
  have whole := emphasise_spans spans genuine
  have each := emphasise_genuine genuine (q := q)
  have below : ∀ {n}, .node n ∈ around s ++ inside → (emphasise q s).2.AllBelow (emphasise q s).2.Elemental n :=
    whole.allBelow fun m member => (each _ member).1.elemental m rfl
  have content : (emphasise q s).2.nodesAt q = s.nodesAt q :=
    spans.nodesAt_agree (fun o member => (emphasise_extends q s).same (genuine o member).known)
      (fun m member => (genuine _ member).elemental m rfl) (spans.mem (List.mem_singleton_self _))
  have emph : (emphasise q s).2.node ⟨s.records.size⟩ = .mk (.wrap .emph (s.nodesAt q)) := by
    rw [Store.node_eq (below (by simp [around])), element_emph]
    exact congrArg (fun ns => Node.mk (.wrap .emph ns)) content
  have para : (emphasise q s).2.node (emphasise q s).1 =
      .mk (.wrap .para ((emphasise q s).2.nodesAt ⟨s.sequences.size + 1⟩)) := by
    rw [Store.node_eq (below (whole.mem (List.mem_singleton_self _))), element_para]
    rfl
  rw [para, Store.nodesAt, sequence_para, List.map_singleton, emph]
  rfl

end

def handlerOf (name : Text) (f : NodeId → Action.Doing σ Reply) : Handler (Action ActionFault σ) :=
  .plain ⟨"<action " ++ name ++ ">", "action", Action.ofNode name f⟩

def headerHandler : Handler (Action ActionFault σ) := .bound (keyOf [.header]) (handlerOf "flatten" flatten)

theorem scripts_ne_nil : scripts ≠ [] := List.cons_ne_nil _ _

def scriptHandler : Handler (Action ActionFault σ) := .bound (keyOf scripts) (handlerOf "drop" drop)

theorem run_flatten_header {level : Int} {attr : Attr} {w : World σ}
    (header : w.store.element n = .header level attr q) : Trial.run (flatten n) w =
      if level < 2 then (.ok .keep, w)
      else (.ok (.node (emphasise q w.store).1), ⟨(emphasise q w.store).2, w.state⟩) := by
  have level_eq : (w.store.element n).level? = some level := by
    rw [header]
    rfl
  have content : (w.store.element n).content? = some q := by
    rw [header]
    rfl
  rw [flatten, Trial.run_bind, Action.run_levelOf level_eq]
  dsimp only
  split
  · rfl
  · have run (s : Store) : emphasise q s = (⟨(s.records.push (.simple (.wrap .emph q))).size⟩,
        ⟨(s.records.push (.simple (.wrap .emph q))).push (.simple (.wrap .para ⟨(s.sequences.push []).size⟩)),
          s.fittings, ((s.sequences.push []).push [⟨s.records.size⟩]).push [], (s.mappings.push []).push []⟩) := by
      simp only [Array.size_push]
      rfl
    rw [Trial.run_bind, Action.run_contentOf content, run]
    rfl

theorem run_headerHandler (occasion : Occasion) (n : NodeId) (w : World σ) :
    Trial.run (headerHandler.perform occasion n) w =
      if (w.store.element n).kind = .list then (.ok .nameless, w)
      else match (w.store.element n).deepHeading? with
        | some q => (.ok (.node (emphasise q w.store).1), ⟨(emphasise q w.store).2, w.state⟩)
        | none => (.ok .keep, w) := by
  have called : Trial.run (headerHandler.perform occasion n) w =
      Trial.run (if (w.store.element n).kind = .list then return .nameless
        else if (kindsOf (keyOf [.header])).contains (w.store.element n).kind.name then flatten n
        else return .keep) w := rfl
  rw [called, contains_keyOf (List.cons_ne_nil _ _)]
  split
  · rfl
  · by_cases header : (w.store.element n).kind = .header
    · obtain ⟨level, attr, q, element⟩ := Element.kind_eq_header.mp header
      have flattened := run_flatten_header element
      rw [if_pos (by simp [header]), flattened, element, Element.deepHeading?]
      split <;> rfl
    · rw [if_neg (by simpa using header), Element.deepHeading?_of_kind header]
      rfl

section

variable {occasion : Occasion}

theorem headerHandler_gives (gives : Gives (headerHandler.perform occasion) n w ns w₁) :
    (∃ q, (w.store.element n).deepHeading? = some q ∧ ns = [(emphasise q w.store).1] ∧
      w₁ = ⟨(emphasise q w.store).2, w.state⟩) ∨ (w.store.element n).deepHeading? = none ∧ ns = [n] ∧ w₁ = w := by
  obtain ⟨reply, given, answer, usable, rfl⟩ := gives
  rw [run_headerHandler] at answer
  split at answer
  · cases answer
    cases usable
  · split at answer
    · next q heading =>
      cases answer
      cases usable
      exact .inl ⟨q, heading, rfl, rfl⟩
    · next heading =>
      cases answer
      cases usable
      exact .inr ⟨heading, rfl, rfl⟩

theorem headerHandler_answers (occasion : Occasion) (named : w.store.Elemental n) :
    ∃ m w₁, Gives (headerHandler.perform occasion) n w [m] w₁ := by
  have answer := run_headerHandler occasion n w
  rw [if_neg named] at answer
  cases heading : (w.store.element n).deepHeading? with
  | some q =>
    rw [heading] at answer
    exact ⟨_, _, _, _, answer, rfl, rfl⟩
  | none =>
    rw [heading] at answer
    exact ⟨_, _, _, _, answer, rfl, rfl⟩

theorem parts_of_deepHeading (heading : (s.element n).deepHeading? = some q) :
    s.parts (.node n) = [.sequence q] := by
  obtain ⟨_, _, _, element⟩ := Element.deepHeading?_eq_some.mp heading
  rw [Store.parts, element]
  rfl

theorem headerHandler_builds :
    Walk.Builds (headerHandler.perform occasion : NodeId → Effect ActionFault σ Reply) where
  grown := by
    intro n w
    rw [run_headerHandler]
    split
    · exact .refl _
    · split
      · exact emphasise_extends _ _
      · exact .refl _
  given := by
    intro n w ns w₁ below gives spans nodup genuine
    rcases headerHandler_gives gives with ⟨q, heading, rfl, rfl⟩ | ⟨_, rfl, rfl⟩
    · obtain ⟨inside, rfl, _, inner⟩ := spans.of_single
      rw [parts_of_deepHeading heading] at inner
      have within : ∀ o ∈ inside, w.store.Genuine o := fun o member => genuine o (List.mem_cons_of_mem _ member)
      have each := emphasise_genuine within (q := q)
      refine ⟨_, emphasise_spans inner within, ?_, fun o member => ⟨(each o member).1, fun known =>
        List.mem_cons_of_mem _ ((each o member).2 known)⟩⟩
      refine List.nodup_append.mpr ⟨by simp [around], (List.nodup_cons.mp nodup).2, ?_⟩
      rintro o new _ old rfl
      exact (around_new q w.store o new).2 (within o old).known
    · exact ⟨below, spans, nodup, fun o member => ⟨genuine o member, fun _ => member⟩⟩

def headingWeight : Weighting where
  weight := fun s n => if (s.element n).deepHeading?.isSome then 2 else 1
  positive := by
    intro s n
    split <;> omega
  inner := by
    intro s s' n below spans same
    have element : s'.element n = s.element n := (same (.node n) (spans.mem (List.mem_singleton_self _))).element
    rw [element]

theorem headerHandler_lightens {w₀ : World σ} (intact : w₀.store.Intact root) :
    Lightens headingWeight (headerHandler.perform occasion) root w₀ := by
  intro frame rest w n ns w₁ all before after reached _ gives whole inTree spans _ spans'
  obtain ⟨_, whole', _, genuine⟩ := headerHandler_builds.intact intact reached
  obtain rfl := whole'.unique whole
  have within : before ⊆ _ := whole.subset spans fun o part => whole.closed inTree part
  rcases headerHandler_gives gives with ⟨q, heading, rfl, rfl⟩ | ⟨_, rfl, rfl⟩
  · rw [parts_of_deepHeading heading] at spans
    have known : ∀ o ∈ before, w.store.Genuine o := fun o member => genuine o (within member)
    obtain ⟨inner, rest, _, below⟩ := (emphasise_spans spans known).of_single
    rw [List.flatMap_singleton] at spans'
    obtain rfl := below.unique spans'
    obtain rfl : [.sequence ⟨w.store.sequences.size + 1⟩, .node ⟨w.store.records.size⟩] ++ before = inner :=
      (List.cons.inj rest).2
    have kept := headingWeight.weigh_agree spans fun o member =>
      (emphasise_extends q w.store).same (known o member).known
    have header : headingWeight.weight w.store n = 2 := by simp [headingWeight, heading]
    have emph : headingWeight.weight (emphasise q w.store).2 ⟨w.store.records.size⟩ = 1 := by
      simp only [headingWeight, element_emph]
      rfl
    simp only [Weighting.weigh_append, Weighting.weigh, Weighting.ofObject, kept, header, emph]
    omega
  · rw [List.flatMap_singleton] at spans'
    obtain rfl := spans'.unique spans
    exact Nat.lt_add_of_pos_left (headingWeight.positive w₁.store n)

theorem headerHandler_answering {w₀ : World σ} (intact : w₀.store.Intact root) :
    Answers (fun n ns => ns = n.lowerings) (headerHandler.perform occasion) root w₀ where
  tame := headerHandler_builds.tame intact
  typed := fun _ _ reached => (headerHandler_builds.intact intact reached).typed
  given := by
    intro frame rest w n ns w₁ all reached _ whole inTree gives
    obtain ⟨_, whole', _, genuine⟩ := headerHandler_builds.intact intact reached
    obtain rfl := whole'.unique whole
    have read := Store.node_eq (whole.allBelow (fun m member => (genuine _ member).elemental m rfl) inTree)
    rw [Node.lowerings, read, Node.element, Element.deepHeading?_map, ← read]
    rcases headerHandler_gives gives with ⟨q, heading, rfl, rfl⟩ | ⟨heading, rfl, rfl⟩
    · obtain ⟨inside, spans, within⟩ := whole.deep inTree
      obtain ⟨below, rfl, _, inner⟩ := spans.of_single
      rw [parts_of_deepHeading heading] at inner
      have known : ∀ o ∈ below, w.store.Genuine o :=
        fun o member => genuine o (within.subset (List.mem_cons_of_mem _ member))
      rw [heading]
      exact congrArg (fun m => [m]) (node_emphasise inner known)
    · rw [heading]
      rfl

/-- The first pass comes to its end, and has lowered all deep headers. -/
theorem headers_lowered (intact : w.store.Intact root) (occasion : Occasion) :
    ∃ w', Walk.Completes (headerHandler.perform occasion) root w w' ∧ w'.store.Intact root ∧
      w'.store.tree root = (w.store.tree root).expanded Node.lowered := by
  have completes : ∃ w', Walk.Completes (headerHandler.perform occasion) root w w' := by
    refine (headerHandler_lightens intact).completes (headerHandler_builds.tame intact) ?_
    intro frame rest w₁ n reached within next
    obtain ⟨all, spans, member, _⟩ := within.offered next
    have typed := (headerHandler_builds.intact intact reached).typed
    obtain ⟨m, w₂, gives⟩ := headerHandler_answers occasion (typed.elemental spans member)
    exact ⟨[m], w₂, gives, fun _ _ _ _ => Nat.le_refl 1⟩
  obtain ⟨w', bound, ended⟩ := completes
  refine ⟨w', ⟨bound, ended⟩, headerHandler_builds.intact intact (Walk.Completes.reached ⟨bound, ended⟩), ?_⟩
  refine ((headerHandler_answering intact).tree (ended bound (Nat.le_refl _))).expands fun n ns answer => ?_
  rw [answer, Node.lowered_eq]

end

/-- The second pass comes to its end, and has deleted all superscripts and subscripts. -/
theorem scripts_deleted (intact : w.store.Intact root) (occasion : Occasion) :
    ∃ w', Walk.Completes (scriptHandler.perform occasion) root w w' ∧ w'.store.Unshared root ∧
      w'.store.Typed root ∧ w'.store.tree root = (w.store.tree root).expanded Node.unscripted := by
  have drops : (handlerOf "drop" drop : Handler (Action ActionFault σ)).Drops := fun _ w => ⟨w.state, rfl⟩
  have deleting : Walk.Deleting scripts (scriptHandler.perform occasion : NodeId → Effect ActionFault σ Reply) :=
    drops.deleting scripts_ne_nil occasion
  obtain ⟨w', bound, ended⟩ := deleting.completes intact.unshared intact.typed
  have left := deleting.left intact.unshared intact.typed ⟨bound, ended⟩
  refine ⟨w', ⟨bound, ended⟩, left.unshared, left.typed intact.typed, ?_⟩
  refine ((deleting.answering intact.unshared intact.typed).tree (ended bound (Nat.le_refl _))).expands
    fun n ns answer => ?_
  rw [answer, Node.unscripted_eq]

def flatteningFilter : Filter (Action ActionFault σ) := ⟨[headerHandler, scriptHandler]⟩

theorem ofArguments_flattening : Filter.ofArguments flattening =
    (return flatteningFilter : Filter.Building (Action ActionFault σ) _) := by
  have header : Filter.bind (.text "Header") (named "flatten" flatten) =
      (return headerHandler : Filter.Building (Action ActionFault σ) _) :=
    Filter.bind_known (List.cons_ne_nil Kind.header []) (by decide) rfl
  have script : Filter.bind (.text "Superscript|Subscript") (named "drop" drop) =
      (return scriptHandler : Filter.Building (Action ActionFault σ) _) :=
    Filter.bind_known scripts_ne_nil (by decide) rfl
  have pairs : Filter.ofArguments (flattening : List (Value (Action ActionFault σ))) = Filter.ofEntries
      [(.text "Header", named "flatten" flatten), (.text "Superscript|Subscript", named "drop" drop)] :=
    if_pos ⟨by simp [flattening], rfl⟩
  rw [pairs, Filter.ofEntries]
  simp only [List.mapM_cons, List.mapM_nil, header, script]
  rfl

def Spared (s : Store) (n : NodeId) : Prop :=
  s.Elemental n ∧ (s.element n).deepHeading? = none ∧ (s.element n).kind ∉ scripts

theorem spared_kept (s : Store) (occasion : Occasion) :
    ∀ h ∈ (flatteningFilter : Filter (Action ActionFault σ)).handlers, h.Keeps occasion s (Spared s) := by
  rintro h member n w ⟨named, heading, script⟩ rfl
  rw [flatteningFilter] at member
  rcases List.mem_cons.mp member with rfl | member
  · refine ⟨w.state, (run_headerHandler occasion n w).trans ?_⟩
    rw [if_neg named, heading]
  · obtain rfl := List.mem_singleton.mp member
    refine ⟨w.state, ?_⟩
    rw [scriptHandler, Handler.run_bound_eq, if_neg named, Element.name, contains_keyOf scripts_ne_nil,
      if_neg (by simpa using script)]
    rfl

/-- A tree that is flat already stays as it is. -/
theorem flat_stays (unshared : w.store.Unshared root) (typed : w.store.Typed root)
    (flat : ∀ x, (w.store.tree root).Holds x → x.Flat) (format : Json) (metadata : Option MappingId) :
    ∃ w', flatteningFilter.Completes root format metadata w w' ∧ Store.SameTree root w.store w'.store := by
  have same := Filter.prepared_same root metadata w
  obtain ⟨all, spans, _⟩ := unshared
  have spans' := spans.agree fun o _ => same o
  have read := spans.tree_agree (fun o _ => same o) typed
  generalize prepared_eq : (Filter.prepared root metadata w).2 = begin at same spans' read
  have spared : ∀ m, begin.store.Holds root m → Spared begin.store m := by
    intro m held
    have named : begin.store.Elemental m := by
      have element : begin.store.element m = w.store.element m := (same (.node m)).element
      rw [Store.Elemental, element]
      exact typed.elemental spans (spans'.holds_mem held)
    obtain ⟨x, inTree, f, g, element⟩ := held.read spans'.acyclic
    rw [read] at inTree
    obtain ⟨heading, script⟩ := flat x inTree
    rw [element, Element.deepHeading?_map, Option.map_eq_none_iff] at heading
    rw [element, Element.kind_map] at script
    exact ⟨named, heading, script⟩
  have below : ∀ m ∈ begin.store.top root, begin.store.AllBelow (Spared begin.store) m :=
    fun m atTop => (spans'.acyclic m atTop).allBelow fun k x way => spared x ⟨m, atTop, k, way⟩
  obtain ⟨bound, w', kept, ended⟩ :=
    Filter.passes_keep (spared_kept begin.store (Filter.occasionOf root format metadata w)) below rfl 1
  refine ⟨w', ⟨bound, fun fuel enough => ?_⟩, all, spans, fun o _ => kept ▸ same o⟩
  rw [Filter.apply_eq, prepared_eq]
  exact ended fuel enough

/-- The flattening filter comes to its end on every tree that is decoded, and leaves the tree of the
recursion that drops superscripts and subscripts and makes emphasised paragraphs of the headers below the
first level. Neither is left anywhere below the root, and to apply the filter again changes nothing. -/
theorem flattens [Versioning] {options : Options} {j : Json} {t : Tree} (keyed : j.Keyed)
    (decoded : Codec.decode options j = .ok t) (s : Store) (state : σ) (format : Json)
    (metadata : Option MappingId) :
    ∃ f : Filter (Action ActionFault σ),
      (∀ warnings, (Filter.ofArguments flattening).run warnings = (.ok f, warnings)) ∧
      ∃ w', f.Completes (Store.loadTree t s).1 format metadata ⟨(Store.loadTree t s).2, state⟩ w' ∧
        w'.store.tree (Store.loadTree t s).1 = t.flattened ∧ (∀ x, t.flattened.Holds x → x.Flat) ∧
        ∀ format metadata, ∃ w'', f.Completes (Store.loadTree t s).1 format metadata w' w'' ∧
          Store.SameTree (Store.loadTree t s).1 w'.store w''.store := by
  have proper := Codec.decode_proper decoded
  have intact := Store.loadTree_intact proper (Codec.decode_keyed keyed decoded) s
  have later := Filter.prepared_extends (Store.loadTree t s).1 metadata (⟨(Store.loadTree t s).2, state⟩ : World σ)
  have intact' := intact.of_extends later
  have read := (Store.loadTree_read proper s later).1
  -- Each pass does its own recursion on the tree, and one after the other they do both at once.
  obtain ⟨w₁, lowered, intact₁, tree₁⟩ := headers_lowered intact' (Filter.occasionOf _ format metadata _)
  obtain ⟨w', deleted, unshared, typed, tree⟩ := scripts_deleted intact₁ (Filter.occasionOf _ format metadata _)
  rw [tree₁, read, t.flattened_eq proper] at tree
  refine ⟨flatteningFilter, fun warnings => ?_, w', .of_series (.pass lowered (.pass deleted .done)), tree,
    fun x held => Tree.flat_of_flattened held, flat_stays unshared typed fun x held => ?_⟩
  · rw [ofArguments_flattening]
    rfl
  · rw [tree] at held
    exact Tree.flat_of_flattened held

def tagged (kind : Kind) (contents : Json) : Json := .obj [("t", .str kind.name), ("c", contents)]

def word (t : Text) : Json := tagged .str (.str t)

def heading (level : Int) (content : List Json) : Json :=
  tagged .header (.arr [.int level, .arr [.str [], .arr [], .arr []], .arr content])

/-- A document with a mark in its metadata, and a header with a note in which there is another one. -/
def notedHeader : Json :=
  .obj [("pandoc-api-version", .arr [.int 1, .int 23]),
    ("meta", .obj [("mark", tagged .superscript (.arr [word "a"]))]),
    ("blocks", .arr [heading 2 [word "b", tagged .note (.arr [heading 3 [tagged .subscript (.arr [word "c"])]])]])]

def notedTree : Tree := .node (.mk (.document [1, 23] [("mark", .mk (.wrap .superscript [.mk (.text .str "a")]))]
  [.mk (.header 2 .none [.mk (.text .str "b"), .mk (.wrap .note [.mk (.header 3 .none
    [.mk (.wrap .subscript [.mk (.text .str "c")])])])])]))

theorem notedHeader_keyed : notedHeader.Keyed := by
  have text (t : Text) : (Json.str t).Keyed := Json.keyed_scalar ⟨nofun, nofun⟩
  have number (n : Int) : (Json.int n).Keyed := Json.keyed_scalar ⟨nofun, nofun⟩
  have names : (["t", "c"] : List Text).Nodup := by decide
  have fields : (["pandoc-api-version", "meta", "blocks"] : List Text).Nodup := by decide
  simp [notedHeader, heading, word, tagged, text, number, Mapping.keys, names, fields]

attribute [local instance] Versioning.ofClauses in
theorem notedHeader_flattened : notedHeader.Keyed ∧ Codec.decode .default notedHeader = .ok notedTree ∧
    ∃ f : Filter (Action ActionFault Unit), (Filter.ofArguments flattening).run [] = (.ok f, []) ∧
      ∃ w', f.Completes (Store.loadTree notedTree .empty).1 .null none
          ⟨(Store.loadTree notedTree .empty).2, ()⟩ w' ∧
        w'.store.tree (Store.loadTree notedTree .empty).1 = .node (.mk (.document [1, 23] []
          [Node.emphasisedPara [.mk (.text .str "b"), .mk (.wrap .note [Node.emphasisedPara []])]])) ∧
        ∃ w'', f.Completes (Store.loadTree notedTree .empty).1 .null none w' w'' ∧
          Store.SameTree (Store.loadTree notedTree .empty).1 w'.store w''.store := by
  have decoded : Codec.decode .default notedHeader = .ok notedTree := by cbv
  obtain ⟨f, made, w', completes, tree, _, again⟩ := flattens notedHeader_keyed decoded .empty () .null none
  exact ⟨notedHeader_keyed, decoded, f, made [], w', completes, tree.trans rfl, again .null none⟩

end DocTree.Recipe
