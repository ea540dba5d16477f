import DocTree.Walk.Basic
import DocTree.Proofs.Walk.Preorder
/-!
The plain text of a tree is put together from those of its parts: the own text of the root, and then the
texts of what stands in its containers, one after the other, however much of the tree is shared. So the walk
over a flat listing gives what a recursion over the tree would give.
-/

namespace DocTree

section

variable {S M : Type}

/-- The text of an element by its kind: what it holds, if that is to be read, or one space for every sort of
space. -/
def Element.leafText (e : Element S M) : Text :=
  if e.kind ∈ [.str, .code, .math, .codeBlock, .metaString] then e.text?.getD []
  else if e.kind ∈ [.space, .softBreak, .lineBreak] then " "
  else []

theorem Element.ownText_eq (e : Element S M) : e.ownText = e.leafText := by
  cases e with
  | text kind | mark kind | wrap kind | items kind | box kind | verbatim kind | raw kind | target kind =>
    cases kind <;> rfl
  | _ => rfl

end

namespace Store

variable {s : Store} {depth : Nat} {ns : List NodeId} {all : List (NodeId × Nat)}

def listedText (s : Store) (all : List (NodeId × Nat)) : Text :=
  all.flatMap fun (n, _) => (s.element n).ownText

theorem Listed.moved (h : s.Listed depth ns all) (depth' : Nat) :
    ∃ all', s.Listed depth' ns all' ∧ s.listedText all' = s.listedText all := by
  induction h generalizing depth' with
  | nil => exact ⟨[], .nil depth', rfl⟩
  | cons _ _ ihBelow ihNext =>
    obtain ⟨inside, below, sameInside⟩ := ihBelow (depth' + 1)
    obtain ⟨later, next, sameLater⟩ := ihNext depth'
    refine ⟨_, .cons below next, ?_⟩
    simp only [listedText, List.flatMap_cons, List.flatMap_append] at sameInside sameLater ⊢
    rw [sameInside, sameLater]

def Texts (s : Store) (text : NodeId → Text) : Prop :=
  ∀ n inside, s.Listed 1 (s.children n) inside → text n = (s.element n).ownText ++ s.listedText inside

theorem Texts.listedText_eq {text : NodeId → Text} (texts : s.Texts text) (h : s.Listed depth ns all) :
    s.listedText all = ns.flatMap text := by
  induction h with
  | nil => rfl
  | @cons depth n ns inside later below _ _ ih =>
    obtain ⟨inside', below', same⟩ := below.moved 1
    have own := texts n inside' below'
    simp only [listedText, List.flatMap_cons, List.flatMap_append] at own same ih ⊢
    rw [own, ← ih, same, List.append_assoc]

theorem acyclic_node {n : NodeId} : s.Acyclic (.node n) ↔ s.Finite n :=
  ⟨fun below => .intro trivial below, fun finite _ child => finite.child child⟩

end Store

namespace Walk

/-- With enough steps the walk over a tree comes to its end, and its plain text is this one. -/
def ReadsAs (s : Store) (root : Root) (t : Text) : Prop :=
  ∃ bound, ∀ fuel, bound ≤ fuel →
    (run ⟨keepAll, noteNode⟩ fuel [.ofRoot root] ⟨s, []⟩).1 = .ok () ∧ plainText fuel s root = t

def slotText (s : Store) (text : Root → Text) : Slot SequenceId MappingId → Text
  | .sequence id => text (.list id)
  | .mapping id => (s.mapping id).flatMap fun entry => text (.node entry.2)

section

variable {s : Store} {root : Root} {text : Root → Text}

/-- The texts of all trees: of each that has a listing, that of its root and of what is listed. -/
def TextsOf (s : Store) (text : Root → Text) : Prop :=
  ∀ root all, s.Listed 1 (s.top root) all → text root = rootText s root ++ s.listedText all

theorem exists_textsOf (s : Store) : ∃ text, TextsOf s text := by
  have each : ∀ root, ∃ t, ∀ all, s.Listed 1 (s.top root) all → t = rootText s root ++ s.listedText all := by
    intro root
    -- A tree that goes round in a circle has no listing, and any text will do for it.
    by_cases known : ∃ all, s.Listed 1 (s.top root) all
    · obtain ⟨all, listed⟩ := known
      exact ⟨rootText s root ++ s.listedText all, fun all' listed' => by rw [listed.unique listed']⟩
    · exact ⟨[], fun all listed => absurd ⟨all, listed⟩ known⟩
  choose text texts using each
  exact ⟨text, texts⟩

namespace TextsOf

variable (texts : TextsOf s text)

include texts

theorem nodes : s.Texts fun n => text (.node n) := fun n inside listed => texts (.node n) inside listed

theorem readsAs (keyed : s.Keyed) (acyclic : s.Acyclic root) : ReadsAs s root (text root) := by
  obtain ⟨all, listed⟩ := acyclic.listed 1
  obtain ⟨bound, walks⟩ := lists acyclic keyed listed
  refine ⟨bound, fun fuel enough => ?_⟩
  obtain ⟨walked, isListing⟩ := walks fuel enough
  exact ⟨congrArg Prod.fst walked, by rw [plainText, isListing, texts root all listed]; rfl⟩

theorem list {id : SequenceId} (acyclic : s.Acyclic (.list id)) :
    text (.list id) = (s.sequence id).flatMap fun n => text (.node n) := by
  obtain ⟨all, listed⟩ := acyclic.listed 1
  rw [texts (.list id) all listed, texts.nodes.listedText_eq listed]
  rfl

theorem slot {slot : Slot SequenceId MappingId} (finite : ∀ n ∈ s.members slot, s.Finite n) :
    slotText s text slot = (s.members slot).flatMap fun n => text (.node n) := by
  cases slot with
  | sequence id => exact texts.list finite
  | mapping id => rw [slotText, Store.members, List.flatMap_map]

theorem node {n : NodeId} (acyclic : s.Acyclic (.node n)) :
    text (.node n) = (s.element n).leafText ++ (s.element n).slots.flatMap (slotText s text) := by
  obtain ⟨all, listed⟩ := acyclic.listed 1
  have containers : ∀ slot ∈ (s.element n).slots,
      slotText s text slot = (s.members slot).flatMap fun n => text (.node n) :=
    fun slot own => texts.slot fun m member => acyclic m (Store.mem_children own member)
  rw [texts (.node n) all listed, texts.nodes.listedText_eq listed, rootText, Element.ownText_eq,
    Store.top, Store.children, List.flatMap_assoc, List.flatMap_congr containers]

end TextsOf

end

/-- The plain text of every finite tree, however much of it is shared, is the text of its root by its kind
and then those of its containers in document order, that of a mapping being those of its values in the order
of its keys. That of two lists together is that of the one and then that of the other, that of a list of one
node is that of the node, and that of a document is that of its metadata and then that of its blocks. -/
theorem text_of_parts {s : Store} (keyed : s.Keyed) : ∃ text : Root → Text,
    (∀ root, s.Acyclic root → ReadsAs s root (text root)) ∧
    (∀ n, s.Acyclic (.node n) →
      text (.node n) = (s.element n).leafText ++ (s.element n).slots.flatMap (slotText s text)) ∧
    (∀ both first second, s.Acyclic (.list both) → s.sequence both = s.sequence first ++ s.sequence second →
      text (.list both) = text (.list first) ++ text (.list second)) ∧
    (∀ n id, s.Acyclic (.node n) → s.sequence id = [n] → text (.list id) = text (.node n)) ∧
    ∀ n version metadata blocks, s.Acyclic (.node n) → s.element n = .document version metadata blocks →
      text (.node n) = slotText s text (.mapping metadata) ++ text (.list blocks) := by
  obtain ⟨text, texts⟩ := exists_textsOf s
  refine ⟨text, fun root => texts.readsAs keyed, fun n => texts.node, ?_, ?_, ?_⟩
  · intro both first second acyclic joined
    have top : s.top (.list both) = s.top (.list first) ++ s.top (.list second) := joined
    have ofFirst : s.Acyclic (.list first) := fun n member => acyclic n (top ▸ List.mem_append_left _ member)
    have ofSecond : s.Acyclic (.list second) := fun n member => acyclic n (top ▸ List.mem_append_right _ member)
    rw [texts.list acyclic, texts.list ofFirst, texts.list ofSecond, joined, List.flatMap_append]
  · intro n id acyclic single
    have ofList : s.Acyclic (.list id) := by
      intro m member
      rw [Store.top, single] at member
      exact List.mem_singleton.mp member ▸ Store.acyclic_node.mp acyclic
    rw [texts.list ofList, single, List.flatMap_singleton]
  · intro n version metadata blocks acyclic isDocument
    rw [texts.node acyclic, isDocument]
    simp [Element.leafText, Element.kind, Element.slots, slotText]

def echo : Store :=
  .ofElements [.text .str "a", .mark .softBreak, .wrap .metaInlines ⟨0⟩, .wrap .para ⟨1⟩,
    .document [1, 23] ⟨0⟩ ⟨2⟩] [[⟨0⟩], [⟨0⟩, ⟨1⟩], [⟨3⟩, ⟨3⟩], [⟨3⟩], [⟨1⟩]] [[("title", ⟨2⟩)]]

theorem echo_read : echo.Keyed ∧ echo.Acyclic (.node ⟨4⟩) ∧ ReadsAs echo (.node ⟨4⟩) "aa a " := by
  have older : ∀ i < echo.records.size, ∀ m ∈ echo.children ⟨i⟩, m.index < i := by decide
  have acyclic (root : Root) : echo.Acyclic root := fun n _ => Store.finite_of_older older
  have keyed : echo.Keyed := by decide
  obtain ⟨text, reads, node, joined, single, document⟩ := text_of_parts keyed
  have word : text (.list ⟨0⟩) = "a" := (single ⟨0⟩ ⟨0⟩ (acyclic _) rfl).trans (node ⟨0⟩ (acyclic _))
  have space : text (.list ⟨4⟩) = " " := (single ⟨1⟩ ⟨4⟩ (acyclic _) rfl).trans (node ⟨1⟩ (acyclic _))
  have both : text (.list ⟨1⟩) = "a " := by
    rw [joined ⟨1⟩ ⟨0⟩ ⟨4⟩ (acyclic _) rfl, word, space]
    rfl
  have title : text (.node ⟨2⟩) = "a" := by
    rw [node ⟨2⟩ (acyclic _), show (echo.element ⟨2⟩).slots = [.sequence ⟨0⟩] from rfl,
      List.flatMap_singleton, slotText, word]
    rfl
  have paragraph : text (.list ⟨3⟩) = "a " := by
    rw [single ⟨3⟩ ⟨3⟩ (acyclic _) rfl, node ⟨3⟩ (acyclic _),
      show (echo.element ⟨3⟩).slots = [.sequence ⟨1⟩] from rfl, List.flatMap_singleton, slotText, both]
    rfl
  have blocks : text (.list ⟨2⟩) = "a a " := by
    rw [joined ⟨2⟩ ⟨3⟩ ⟨3⟩ (acyclic _) rfl, paragraph]
    rfl
  have whole : text (.node ⟨4⟩) = "aa a " := by
    rw [document ⟨4⟩ [1, 23] ⟨0⟩ ⟨2⟩ (acyclic _) rfl, blocks, slotText,
      show echo.mapping ⟨0⟩ = ([("title", ⟨2⟩)] : List (Text × NodeId)) from rfl, List.flatMap_singleton, title]
    rfl
  exact ⟨keyed, acyclic _, whole ▸ reads (.node ⟨4⟩) (acyclic _)⟩

end Walk

end DocTree
