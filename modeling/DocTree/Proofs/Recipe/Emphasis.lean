import DocTree.Proofs.Action.Fields
import DocTree.Proofs.Filter.KeepingText
import DocTree.Proofs.Filter.Key
import DocTree.Proofs.Node.Emphasis
import DocTree.Proofs.Walk.Completion
import DocTree.Proofs.Walk.Values
import DocTree.Recipe.Flatten
/-!
What is left of a tree from which all emphasis is dropped.
-/

namespace DocTree

open Store (Object Same)

def Store.NoValue (kind : Kind) (root : Root) (s : Store) : Prop :=
  ∀ all, s.Spans [root.object] all → ∀ id, .mapping id ∈ all →
    ∀ entry ∈ s.mapping id, (s.element entry.2).kind ≠ kind

namespace Recipe

open DocTree.Action (member)

variable {σ : Type} {s : Store} {root : Root} {w w₀ w₁ : World σ} {n : NodeId} {ns : List NodeId}

def uncovering (s : Store) (n : NodeId) : Reply :=
  match (s.element n).emphasised? with
  | some q => .several ((s.sequence q).map (member s))
  | none => .keep

theorem run_unemph (n : NodeId) (w : World σ) : Trial.run (unemph n) w =
    (if (w.store.element n).kind = .list then .error (.own (.missingField Kind.list.typeName "name"))
      else .ok (uncovering w.store n), w) := by
  rw [unemph, Trial.run_bind, Action.run_nameOf]
  by_cases isList : (w.store.element n).kind = .list
  · rw [if_pos isList, if_pos isList]
  rw [if_neg isList, if_neg isList]
  change Trial.run (if (w.store.element n).name ≠ Kind.emph.name then _ else _) w = _
  cases content : (w.store.element n).emphasised? with
  | none =>
    have other : (w.store.element n).name ≠ Kind.emph.name :=
      fun same => Element.emphasised?_eq_none.mp content (Kind.name_injective same)
    rw [uncovering, content, if_pos other]
    rfl
  | some q =>
    have element := Element.emphasised?_eq_some.mp content
    have asked : Trial.run (Action.contentOf n) w = (.ok q, w) := Action.run_contentOf (by rw [element]; rfl)
    have named : (w.store.element n).name = Kind.emph.name := by
      rw [element]
      rfl
    rw [uncovering, content, if_neg (not_not.mpr named), Trial.run_bind, asked]
    dsimp only
    rw [Trial.run_bind, Action.run_membersOf]
    rfl

theorem nodesOf_member {kind : Kind} {given : List NodeId}
    (usable : Reply.nodesOf kind (ns.map (member s)) = .ok given) : given = ns := by
  induction ns generalizing given with
  | nil =>
    cases usable
    rfl
  | cons n ns ih =>
    rw [List.map_cons, member] at usable
    split at usable
    · cases usable
    · rw [Reply.nodesOf] at usable
      cases later : Reply.nodesOf kind (ns.map (member s)) with
      | error e =>
        rw [later] at usable
        cases usable
      | ok given =>
        rw [later] at usable
        cases usable
        rw [ih later]

theorem nodesOf_member_eq {kind : Kind} (named : ∀ n ∈ ns, s.Elemental n) :
    Reply.nodesOf kind (ns.map (member s)) = .ok ns := by
  have each : ns.map (member s) = ns.map .node :=
    List.map_congr_left fun n member => if_neg (named n member)
  rw [each, Walk.nodesOf_nodes]

def uncovered (s : Store) (n : NodeId) : List NodeId :=
  match (s.element n).emphasised? with
  | some q => s.sequence q
  | none => [n]

theorem unemph_gives (gives : Walk.Gives unemph n w ns w₁) : ns = uncovered w.store n := by
  obtain ⟨reply, given, answer, usable, rfl⟩ := gives
  rw [run_unemph] at answer
  obtain ⟨same, rfl⟩ := Prod.mk.inj answer
  split at same
  · cases same
  obtain rfl := Except.ok.inj same
  unfold uncovering at usable
  unfold uncovered
  split at usable
  · next q _ =>
    rw [Reply.replacement] at usable
    cases known : Reply.nodesOf (w.store.element n).kind ((w.store.sequence q).map (member w.store)) with
    | error e =>
      rw [known] at usable
      cases usable
    | ok given =>
      rw [known] at usable
      cases usable
      exact nodesOf_member known
  · cases usable
    rfl

theorem unemph_answers (named : w.store.Elemental n) (members : ∀ m ∈ w.store.children n, w.store.Elemental m) :
    Walk.Gives unemph n w (uncovered w.store n) w := by
  refine ⟨uncovering w.store n, ?_⟩
  rw [run_unemph, if_neg named]
  unfold uncovering uncovered
  cases content : (w.store.element n).emphasised? with
  | none => exact ⟨none, rfl, rfl, rfl⟩
  | some q =>
    have slot : .sequence q ∈ (w.store.element n).slots := by
      rw [Element.emphasised?_eq_some.mp content]
      exact List.mem_singleton_self _
    have usable := @nodesOf_member_eq w.store (w.store.sequence q) (w.store.element n).kind
      fun m member => members m (Store.mem_children slot member)
    exact ⟨some (w.store.sequence q), rfl, by rw [Reply.replacement, usable]; rfl, rfl⟩

theorem unemph_unwraps : Walk.Unwraps (unemph : NodeId → Action.Doing σ Reply) where
  still := by
    intro n w
    rw [run_unemph]
  gives := by
    intro n w ns w₁ gives
    rw [unemph_gives gives, uncovered]
    cases content : (w.store.element n).emphasised? with
    | none => exact .inl rfl
    | some q => exact .inr ⟨_, q, Element.emphasised?_eq_some.mp content, rfl⟩

section

variable {stack : List Walk.Frame} (unshared : w₀.store.Unshared root)
  (reached : Walk.Reached (unemph : NodeId → Action.Doing σ Reply) root w₀ stack w)
include unshared reached

theorem no_value (plain : w₀.store.NoValue .emph root) : w.store.NoValue .emph root := by
  have selects : Walk.Selects (unemph : NodeId → Action.Doing σ Reply) root w₀ := unemph_unwraps.selects root w₀
  refine (selects.grafts.invariant (P := fun w => w.store.NoValue .emph root) unshared plain ?_ reached).2
  clear reached plain
  intro frame rest w stack w' reached plain _ stepped all' spans' id inTree entry isEntry
  obtain ⟨all, all₁, spans, spans₁, within, same⟩ := selects.step_fewer reached stepped
  obtain rfl := spans₁.unique spans'
  have isNode : .node entry.2 ∈ all₁ := spans₁.closed inTree (List.mem_map.mpr ⟨entry, isEntry, rfl⟩)
  rw [same _ isNode]
  cases stepped with
  | same whole _ kept =>
    obtain rfl := whole.unique spans
    have content : w'.store.mapping id = w.store.mapping id := kept _ (within inTree)
    exact plain _ spans id (within inTree) entry (content ▸ isEntry)
  | @grafted container n ns w₁ before below given after whole _ inTree' _ _ gives still _ exchanged whole' _
      edits =>
    obtain rfl := whole.unique spans
    by_cases here : .mapping id = container
    · subst here
      cases exchanged with
      | @entry _ key before after content placed =>
        have isValue : (w.store.element n).kind ≠ .emph :=
          plain _ spans id (within inTree) (key, n) (by simp [content])
        have stays : uncovered w.store n = [n] := by
          rw [uncovered, Element.emphasised?_eq_none.mpr isValue]
        rw [placed, unemph_gives gives, stays] at isEntry
        exact plain _ spans id (within inTree) entry (by simpa [content] using isEntry)
    · have content : w'.store.mapping id = w.store.mapping id :=
        (still _ (within inTree)).trans (edits _ here)
      exact plain _ spans id (within inTree) entry (content ▸ isEntry)

omit reached

theorem unemph_answering (typed : w₀.store.Typed root) :
    Walk.Answers (fun n ns => ns = n.uncovered) (unemph : NodeId → Action.Doing σ Reply) root w₀ where
  tame := (unemph_unwraps.selects root w₀).tame unshared
  typed := fun _ _ reached => ((unemph_unwraps.selects root w₀).fewer unshared reached).typed typed
  given := by
    intro frame rest w n ns w₁ all reached _ spans member gives
    have typed := ((unemph_unwraps.selects root w₀).fewer unshared reached).typed typed
    have still := unemph_unwraps.still n w
    rw [gives.world] at still
    have read := Store.node_eq (spans.allBelow (fun _ => typed.elemental spans) member)
    rw [unemph_gives gives, still, uncovered, Node.uncovered, read, Node.element, Element.emphasised?_map, ← read]
    cases (w.store.element n).emphasised? with
    | none => rfl
    | some q => rfl

theorem unemph_completes (typed : w₀.store.Typed root) (plain : w₀.store.NoValue .emph root) :
    ∃ w', Walk.Completes (unemph : NodeId → Action.Doing σ Reply) root w₀ w' := by
  have selects : Walk.Selects (unemph : NodeId → Action.Doing σ Reply) root w₀ := unemph_unwraps.selects root w₀
  refine selects.lessens.lightens.completes (selects.tame unshared) fun frame rest w n reached within next => ?_
  obtain ⟨all, spans, member, value⟩ := within.offered next
  have typed := (selects.fewer unshared reached).typed typed
  refine ⟨uncovered w.store n, w, ?_, fun id keys settled open_ => ?_⟩
  · exact unemph_answers (typed.elemental spans member) fun m child =>
      typed.elemental spans (spans.child_mem member child)
  · obtain ⟨inTree, part⟩ := value id keys settled open_
    obtain ⟨entry, isEntry, same⟩ := List.mem_map.mp part
    obtain rfl := Object.node.inj same
    have isValue := no_value unshared reached plain _ spans id inTree entry isEntry
    rw [uncovered, Element.emphasised?_eq_none.mpr isValue]
    exact Nat.le_refl 1

end

/-- To drop all emphasis leaves the plain text as it was. The members of an emphasis that take its place are
not offered themselves; so none is left if and only if none was a member of another. -/
theorem emphasis_dropped (unshared : w.store.Unshared root) (typed : w.store.Typed root)
    (plain : w.store.NoValue .emph root) :
    ∃ w', Walk.Completes (unemph : NodeId → Action.Doing σ Reply) root w w' ∧
      w'.store.tree root = (w.store.tree root).expanded Node.unemphasized ∧
      (∃ bound, ∀ fuel, bound ≤ fuel →
        Walk.plainText fuel w'.store root = Walk.plainText fuel w.store root) ∧
      ((∀ x, (w'.store.tree root).Holds x → x.element.kind ≠ .emph) ↔
        ∀ x, (w.store.tree root).Holds x → ¬ x.DoubleEmphasis) := by
  obtain ⟨w', completes⟩ := unemph_completes unshared typed plain
  obtain ⟨bound, ended⟩ := completes
  have walked := ended bound (Nat.le_refl _)
  have tree : w'.store.tree root = (w.store.tree root).expanded Node.unemphasized := by
    refine ((unemph_answering unshared typed).tree walked).expands fun n ns answer => ?_
    rw [answer, Node.unemphasized_eq]
  refine ⟨w', ⟨bound, ended⟩, tree, ((unemph_unwraps.keepsText root w).plainText unshared walked).2, ?_⟩
  have left := not_congr (w.store.tree root).emphasis_left
  rw [← tree] at left
  simpa only [not_exists, not_and] using left

def emphatic : Store :=
  .ofElements [.text .str "a", .wrap .emph ⟨0⟩, .text .str "b", .wrap .strong ⟨1⟩, .wrap .para ⟨2⟩, .text .str "c",
      .wrap .emph ⟨4⟩, .wrap .metaInlines ⟨5⟩, .document [1, 23] ⟨0⟩ ⟨3⟩]
    [[⟨0⟩], [⟨1⟩], [⟨3⟩, ⟨2⟩], [⟨4⟩], [⟨5⟩], [⟨6⟩]] [[("title", ⟨7⟩)]]

theorem emphatic_plain : ∃ w', Walk.Completes (unemph : NodeId → Action.Doing Unit Reply) (.node ⟨8⟩)
      ⟨emphatic, ()⟩ w' ∧
    w'.store.tree (.node ⟨8⟩) = .node (.mk (.document [1, 23]
      [("title", .mk (.wrap .metaInlines [.mk (.text .str "c")]))]
      [.mk (.wrap .para [.mk (.wrap .strong [.mk (.text .str "a")]), .mk (.text .str "b")])])) := by
  have spans : emphatic.Spans [(Root.node ⟨8⟩).object] _ :=
    Store.spans_of_spanned? (rfl : emphatic.spanned? 30 _ = _)
  have named : ∀ m ∈ Store.Object.nodes ((emphatic.spanned? 30 [.node ⟨8⟩]).getD []),
      (emphatic.element m).kind ≠ .list := by decide
  have typed : emphatic.Typed (.node ⟨8⟩) :=
    Store.typed_of_elemental spans fun m member => named m (Store.Object.mem_nodes.mpr member)
  have plain : emphatic.NoValue .emph (.node ⟨8⟩) := by
    rintro all _ ⟨_ | k⟩ _ entry isEntry
    · obtain rfl := List.mem_singleton.mp isEntry
      decide
    · cases isEntry
  obtain ⟨w', completes, tree, _⟩ :=
    @emphasis_dropped Unit (.node ⟨8⟩) ⟨emphatic, ()⟩ ⟨_, spans, by decide⟩ typed plain
  exact ⟨w', completes, tree.trans rfl⟩

def doubled : Store :=
  .ofElements [.text .str "a", .wrap .emph ⟨0⟩, .wrap .emph ⟨1⟩] [[⟨0⟩], [⟨1⟩], [⟨2⟩]] []

theorem emphasis_stays : doubled.Unshared (.list ⟨2⟩) ∧ doubled.Typed (.list ⟨2⟩) ∧
    doubled.NoValue .emph (.list ⟨2⟩) ∧
    ∃ w', Walk.Completes (unemph : NodeId → Action.Doing Unit Reply) (.list ⟨2⟩) ⟨doubled, ()⟩ w' ∧
      ∃ m, w'.store.Holds (.list ⟨2⟩) m ∧ (w'.store.element m).kind = .emph := by
  have spans : doubled.Spans [(Root.list ⟨2⟩).object] _ :=
    Store.spans_of_spanned? (rfl : doubled.spanned? 10 _ = _)
  have named : ∀ m ∈ Store.Object.nodes ((doubled.spanned? 10 [.sequence ⟨2⟩]).getD []),
      (doubled.element m).kind ≠ .list := by decide
  have walked : Walk.transform 10 (unemph : NodeId → Action.Doing Unit Reply) (.list ⟨2⟩) ⟨doubled, ()⟩ =
      (.ok (), ⟨doubled.setSequence ⟨2⟩ [⟨1⟩], ()⟩) := rfl
  obtain ⟨k, _, calls, course⟩ := Walk.run_eq_ok_iff.mp walked
  refine ⟨⟨_, spans, by decide⟩, Store.typed_of_elemental spans fun m member =>
    named m (Store.Object.mem_nodes.mpr member), fun _ _ _ _ _ isEntry => ?_,
    _, Walk.completes_iff_reaches.mpr ⟨k, calls, course⟩, ⟨1⟩, ⟨⟨1⟩, List.mem_singleton_self _, 0, .here _⟩, rfl⟩
  cases isEntry

end Recipe

end DocTree
