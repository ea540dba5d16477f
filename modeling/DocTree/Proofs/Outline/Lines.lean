import DocTree.Outline.Basic
import DocTree.Proofs.Codec.Keyed
import DocTree.Proofs.Codec.Leaks
import DocTree.Proofs.Filter.Key
import DocTree.Proofs.Store.Fresh
import DocTree.Proofs.Text.Lines
import DocTree.Proofs.Walk.PlainText
import DocTree.Version.Range
/-!
The lines of an outline. Every node has a line of its own, as long as nothing breaks its label. Texts are quoted
in labels and so stay on one line; the address of a link or an image and the format of a raw node are not, so
they are what can break a line.
-/

namespace DocTree

/-- What the label of an element holds without quotes, of all that a document can say. -/
def Element.unquoted {S M : Type} : Element S M → Text
  | .raw _ format _ => format
  | .target _ _ _ url _ => url
  | _ => []

theorem Kind.name_word (kind : Kind) : kind.name.OneLine ∧ CodePoint.ofChar ' ' ∉ kind.name := by
  cases kind <;> decide

namespace Text

variable {mark c : CodePoint} {bodies : List Text}

def ended (mark : CodePoint) (bodies : List Text) : Text := (bodies.map (· ++ [mark])).flatten

theorem ended_cons (mark : CodePoint) (t : Text) (bodies : List Text) :
    ended mark (t :: bodies) = t ++ mark :: ended mark bodies := by
  simp [ended]

theorem length_le_count (mark : CodePoint) (bodies : List Text) :
    bodies.length ≤ (ended mark bodies).count mark := by
  induction bodies with
  | nil => exact Nat.zero_le _
  | cons t bodies ih =>
    rw [ended_cons, List.count_append, List.count_cons_self, List.length_cons]
    omega

theorem count_ended : (ended mark bodies).count mark = bodies.length ↔ ∀ t ∈ bodies, mark ∉ t := by
  induction bodies with
  | nil => simp [ended]
  | cons t bodies ih =>
    have least := length_le_count mark bodies
    rw [ended_cons, List.count_append, List.count_cons_self, List.length_cons, List.forall_mem_cons, ← ih,
      ← List.count_eq_zero]
    omega

theorem mem_ended (other : c ≠ mark) : c ∈ ended mark bodies ↔ ∃ t ∈ bodies, c ∈ t := by
  simp [ended, other]

theorem splitOn_ended (free : ∀ t ∈ bodies, mark ∉ t) : (ended mark bodies).splitOn mark = bodies ++ [[]] := by
  induction bodies with
  | nil => rfl
  | cons t bodies ih =>
    obtain ⟨first, later⟩ := List.forall_mem_cons.mp free
    rw [ended_cons, splitOn_append, splitOn_free first, ih later, List.cons_append, List.nil_append]
    rfl

end Text

namespace Outline

open Text (OneLine oneLine_append)

section

variable {S M : Type} (e : Element S M)

theorem oneLine_shortened (t : Text) : (shortened t).OneLine := by
  unfold shortened
  split
  · exact Text.oneLine_quoted _
  · exact Text.oneLine_quoted _

theorem oneLine_label : (label e).OneLine ↔ e.unquoted.OneLine := by
  have name : e.name.OneLine := e.kind.name_word.1
  have space : OneLine " " := by decide
  have opened : OneLine " (" := by decide
  have closed : OneLine ") " := by decide
  rw [label, oneLine_append, and_iff_right name]
  cases e with
  | text _ t | verbatim _ _ t | math _ t =>
    simp [detail, Element.unquoted, space, oneLine_shortened, Text.oneLine_nil]
  | raw _ format t => simp [detail, Element.unquoted, opened, closed, oneLine_shortened]
  | header level =>
    have key : OneLine " level=" := by decide
    simp [detail, Element.unquoted, key, (Text.bare_ofInt _).oneLine, Text.oneLine_nil]
  | target => simp [detail, Element.unquoted, space]
  | metaBool value =>
    have word : (Json.boolWord value).OneLine := by cases value <;> decide
    simp [detail, Element.unquoted, space, word, Text.oneLine_nil]
  | _ => exact Iff.rfl

theorem detail_spaced : detail e = [] ∨ ∃ rest, detail e = CodePoint.ofChar ' ' :: rest := by
  cases e with
  | text | verbatim | math | raw | header | target | metaBool => exact .inr ⟨_, rfl⟩
  | _ => exact .inl rfl

theorem labelled_cases : labelled e = .ok (label e) ∨ ∃ fault, labelled e = .error fault := by
  unfold labelled
  split
  · exact .inr ⟨_, rfl⟩
  · split
    · exact .inl rfl
    · exact .inr ⟨_, rfl⟩

theorem labelled_inRange {fault : Fault} (unlabelled : labelled e = .error fault) : fault ≠ .outOfRange := by
  unfold labelled at unlabelled
  split at unlabelled
  · cases unlabelled
    nofun
  · split at unlabelled
    · cases unlabelled
    · cases unlabelled
      nofun

end

section

variable (s : Store)

def Labelled (entry : NodeId × Nat) : Prop :=
  labelled (s.element entry.1) = .ok (label (s.element entry.1))

def lineOf (entry : NodeId × Nat) : Text := line entry.2 (label (s.element entry.1))

/-- The lines of the root and of some nodes. -/
def linesWith (root : Root) (nodes : List (NodeId × Nat)) : Text :=
  line 0 (rootLabel s root) ++ (nodes.map (lineOf s)).flatten

/-- There are lines for all nodes, or for those before the first that cannot be labelled. -/
theorem linesOf_cases (nodes : List (NodeId × Nat)) :
    ((∀ entry ∈ nodes, Labelled s entry) ∧ linesOf s nodes = (nodes.map (lineOf s), none)) ∨
    ∃ before entry rest fault, nodes = before ++ entry :: rest ∧ (∀ earlier ∈ before, Labelled s earlier) ∧
      labelled (s.element entry.1) = .error fault ∧
      linesOf s nodes = (before.map (lineOf s), some fault) := by
  induction nodes with
  | nil => exact .inl ⟨List.forall_mem_nil _, rfl⟩
  | cons first nodes ih =>
    rcases labelled_cases (s.element first.1) with isLabelled | ⟨fault, isLabelled⟩
    · have whole : linesOf s (first :: nodes) = (lineOf s first :: (linesOf s nodes).1, (linesOf s nodes).2) := by
        simp only [linesOf, isLabelled]
        rfl
      rw [whole]
      rcases ih with ⟨fine, more⟩ | ⟨before, entry, rest, fault, rfl, fine, unlabelled, more⟩
      · exact .inl ⟨List.forall_mem_cons.mpr ⟨isLabelled, fine⟩, by rw [more, List.map_cons]⟩
      · refine .inr ⟨first :: before, entry, rest, fault, rfl, ?_, unlabelled, by rw [more, List.map_cons]⟩
        exact List.forall_mem_cons.mpr ⟨isLabelled, fine⟩
    · refine .inr ⟨[], first, nodes, fault, rfl, List.forall_mem_nil _, isLabelled, ?_⟩
      simp only [linesOf, isLabelled, List.map_nil]

end

def isSpace (c : CodePoint) : Bool := c == CodePoint.ofChar ' '

/-- What a line says of its node: the depth, by two spaces each, and the kind, by the first word. -/
def readLine? (l : Text) : Option (Nat × Kind) :=
  let label := l.dropWhile isSpace
  (Kind.ofName? (label.takeWhile (!isSpace ·))).map fun kind => ((l.length - label.length) / 2, kind)

def readBack (t : Text) : List (Nat × Kind) := (t.splitOn (CodePoint.ofChar '\n')).tail.filterMap readLine?

theorem takeWhile_label {S M : Type} (e : Element S M) : (label e).takeWhile (!isSpace ·) = e.name := by
  have letters : ∀ c ∈ e.name, (!isSpace c) = true := by
    intro c member
    have other : c ≠ CodePoint.ofChar ' ' := fun same => e.kind.name_word.2 (same ▸ member)
    simp [isSpace, other]
  rw [label, List.takeWhile_append_of_pos letters]
  rcases detail_spaced e with none | ⟨rest, some⟩
  · rw [none, List.takeWhile_nil, List.append_nil]
  · rw [some, List.takeWhile_cons_of_neg (by decide), List.append_nil]

theorem dropWhile_label {S M : Type} (e : Element S M) : (label e).dropWhile isSpace = label e := by
  obtain ⟨c, rest, isName⟩ := List.exists_cons_of_ne_nil e.kind.name_plain.2
  have other : ¬ isSpace c = true := by
    intro same
    exact e.kind.name_word.2 (isName ▸ eq_of_beq same ▸ List.mem_cons_self)
  rw [label, Element.name, isName, List.cons_append, List.dropWhile_cons_of_neg other]

theorem readLine?_line {S M : Type} (depth : Nat) {e : Element S M} (inner : e.kind ≠ .document)
    (named : e.kind ≠ .list) : readLine? (Text.copies depth "  " ++ label e) = some (depth, e.kind) := by
  have indent : Text.copies depth "  " = List.replicate (depth * 2) (CodePoint.ofChar ' ') := by
    rw [Text.copies, show Text.ofString "  " = List.replicate 2 (CodePoint.ofChar ' ') from rfl,
      List.flatten_replicate_replicate]
  have spaces : ∀ c ∈ Text.copies depth "  ", isSpace c = true := by
    intro c member
    rw [indent] at member
    rw [(List.mem_replicate.mp member).2]
    rfl
  rw [readLine?, List.dropWhile_append_of_pos spaces, dropWhile_label, takeWhile_label, Element.name,
    Codec.ofName?_name inner named, Option.map_some, List.length_append, indent, List.length_replicate,
    Nat.add_sub_cancel, Nat.mul_div_cancel _ (by decide)]

section

variable {s : Store} {root : Root} {all : List (NodeId × Nat)} {fuel : Nat}

def body (s : Store) (entry : NodeId × Nat) : Text := Text.copies entry.2 "  " ++ label (s.element entry.1)

def bodies (s : Store) (root : Root) (all : List (NodeId × Nat)) : List Text :=
  rootLabel s root :: all.map (body s)

theorem lines_eq (isListing : Walk.listing fuel s root = all) :
    lines fuel s root = (bodies s root all).map (· ++ ("\n" : Text)) := by
  rw [lines, entries, isListing, bodies, List.map_cons, List.map_map, List.map_map]
  rfl

theorem text_eq (isListing : Walk.listing fuel s root = all) :
    text fuel s root = Text.ended (CodePoint.ofChar '\n') (bodies s root all) := by
  rw [text, lines_eq isListing]
  rfl

theorem oneLine_rootLabel (s : Store) (root : Root) : (rootLabel s root).OneLine := by
  cases root with
  | node n => exact (s.element n).kind.name_word.1
  | list _ => exact (by decide : OneLine "[list]")

theorem oneLine_bodies (s : Store) (root : Root) (all : List (NodeId × Nat)) :
    (∀ t ∈ bodies s root all, t.OneLine) ↔ ∀ entry ∈ all, (s.element entry.1).unquoted.OneLine := by
  have indent (depth : Nat) : (Text.copies depth "  ").OneLine := Text.oneLine_copies depth (by decide)
  simp only [bodies, body, List.forall_mem_cons, oneLine_rootLabel, true_and, List.forall_mem_map, oneLine_append,
    indent, oneLine_label]

/-- There are as many line feeds as lines, and no carriage return, just if no line is broken. -/
theorem count_text (isListing : Walk.listing fuel s root = all) :
    (text fuel s root).count (CodePoint.ofChar '\n') = 1 + all.length ∧
        CodePoint.ofChar '\r' ∉ text fuel s root ↔
      ∀ entry ∈ all, (s.element entry.1).unquoted.OneLine := by
  have length : 1 + all.length = (bodies s root all).length := by
    rw [bodies, List.length_cons, List.length_map, Nat.add_comm]
  rw [text_eq isListing, length, Text.count_ended, Text.mem_ended (by decide), ← oneLine_bodies s root]
  simp only [Text.oneLine_iff, not_exists, not_and]
  exact forall₂_and.symm

theorem readBack_text (isListing : Walk.listing fuel s root = all)
    (inner : ∀ entry ∈ all, s.Inner entry.1) (plain : ∀ entry ∈ all, (s.element entry.1).unquoted.OneLine) :
    ((text fuel s root).splitOn (CodePoint.ofChar '\n')).head? = some (rootLabel s root) ∧
      readBack (text fuel s root) = all.map fun (n, depth) => (depth, (s.element n).kind) := by
  have free : ∀ t ∈ bodies s root all, CodePoint.ofChar '\n' ∉ t :=
    fun t member => ((oneLine_bodies s root all).mpr plain t member).noFeed
  rw [readBack, text_eq isListing, Text.splitOn_ended free]
  refine ⟨rfl, ?_⟩
  have found : ∀ entry ∈ all, (readLine? ∘ body s) entry = some (entry.2, (s.element entry.1).kind) :=
    fun entry member => readLine?_line entry.2 (inner entry member).1 (inner entry member).2
  rw [bodies, List.cons_append, List.tail_cons, List.filterMap_append, List.filterMap_map,
    List.filterMap_congr found, List.filterMap_eq_map']
  -- The piece after the last line feed is empty and says nothing.
  exact List.append_nil _

end

/-- The outline of a tree that is decoded has a line for the root and one for each node below it, in the order of
the walk: two spaces for each level, and the label, which begins with the name of the kind. It has just that many
line feeds, and no carriage return, if and only if no address of a link or an image and no format of a raw node
has one of these in it. Then the first line is that of the root, and from the others the depths and the kinds of
all nodes can be read back. -/
theorem line_for_each_node [Versioning] {options : Options} {j : Json} {t : Tree} {s s' : Store} {root : Root}
    (keyed : j.Keyed) (decoded : Codec.decode options j = .ok t) (loaded : Store.loadTree t s = (root, s')) :
    ∃ all, s'.Listed 1 (s'.top root) all ∧ ∃ bound, ∀ fuel, bound ≤ fuel →
      (Walk.run ⟨Walk.keepAll, Walk.noteNode⟩ fuel [.ofRoot root] ⟨s', []⟩).1 = .ok () ∧
      lines fuel s' root = (rootLabel s' root ++ "\n") ::
        all.map (fun (n, depth) => Text.copies depth "  " ++ label (s'.element n) ++ "\n") ∧
      (∀ entry ∈ all, (s'.element entry.1).name <+: label (s'.element entry.1)) ∧
      ((text fuel s' root).count (CodePoint.ofChar '\n') = 1 + all.length ∧
          CodePoint.ofChar '\r' ∉ text fuel s' root ↔
        ∀ entry ∈ all, (s'.element entry.1).unquoted.OneLine) ∧
      ((∀ entry ∈ all, (s'.element entry.1).unquoted.OneLine) →
        ((text fuel s' root).splitOn (CodePoint.ofChar '\n')).head? = some (rootLabel s' root) ∧
        readBack (text fuel s' root) = all.map fun (n, depth) => (depth, (s'.element n).kind)) := by
  have proper := Codec.decode_proper decoded
  have properStore := Store.loadTree_proper proper s
  have intact := Store.loadTree_intact proper (Codec.decode_keyed keyed decoded) s
  rw [loaded] at properStore intact
  obtain ⟨_, spans, _⟩ := intact
  obtain ⟨all, listed⟩ := spans.acyclic.listed 1
  obtain ⟨bound, walks⟩ := Walk.lists_within spans.acyclic spans.keyed listed
  have inner : ∀ entry ∈ all, s'.Inner entry.1 := fun entry member => properStore.innerOf (listed.way member)
  refine ⟨all, listed, bound, fun fuel enough => ?_⟩
  obtain ⟨walked, isListing⟩ := walks fuel enough
  refine ⟨congrArg Prod.fst walked, ?_, fun entry _ => List.prefix_append .., count_text isListing,
    readBack_text isListing inner⟩
  rw [lines_eq isListing, bodies, List.map_cons, List.map_map]
  rfl

def linkTo (url : Text) (content : List Json) : Json :=
  .obj [("t", .str "Link"), ("c", .arr [.arr [.str [], .arr [], .arr []], .arr content, .arr [.str url, .str []]])]

def linkNode (url : Text) (content : List Node) : Node := .mk (.target .link .none content url [])

def feedInText : Json := .arr [linkTo "a" [.obj [("t", .str "Str"), ("c", .str "b\nc")]]]

def feedInTextTree : Tree := .list [linkNode "a" [.mk (.text .str "b\nc")]]

def feedInTextStore : Store :=
  .ofElements [.text .str "b\nc", .target .link .none ⟨0⟩ "a" []] [[⟨0⟩], [⟨1⟩]] []

attribute [local instance] Versioning.ofClauses in
theorem feedInText_read_back : feedInText.Keyed ∧ Codec.decode .default feedInText = .ok feedInTextTree ∧
    Store.loadTree feedInTextTree .empty = (.list ⟨1⟩, feedInTextStore) ∧ ∃ bound, ∀ fuel, bound ≤ fuel →
      (text fuel feedInTextStore (.list ⟨1⟩)).count (CodePoint.ofChar '\n') = 3 ∧
      readBack (text fuel feedInTextStore (.list ⟨1⟩)) = [(1, .link), (2, .str)] := by
  have plain (t : Text) : (Json.str t).Keyed := Json.keyed_scalar ⟨nofun, nofun⟩
  have names : (["t", "c"] : List Text).Nodup := by decide
  have keyed : feedInText.Keyed := by simp [feedInText, linkTo, plain, Mapping.keys, names]
  have decoded : Codec.decode .default feedInText = .ok feedInTextTree := rfl
  have loaded : Store.loadTree feedInTextTree .empty = (.list ⟨1⟩, feedInTextStore) := rfl
  obtain ⟨all, listed, bound, outlined⟩ := line_for_each_node keyed decoded loaded
  have word : feedInTextStore.Listed 2 [⟨0⟩] ((⟨0⟩, 2) :: ([] ++ [])) := .cons (.nil 3) (.nil 2)
  obtain rfl := listed.unique (.cons word (.nil 1))
  refine ⟨keyed, decoded, loaded, bound, fun fuel enough => ?_⟩
  obtain ⟨-, -, -, counted, reads⟩ := outlined fuel enough
  have unbroken : ∀ entry ∈ ([(⟨1⟩, 1), (⟨0⟩, 2)] : List (NodeId × Nat)),
      (feedInTextStore.element entry.1).unquoted.OneLine := by decide
  exact ⟨(counted.mpr unbroken).1, (reads unbroken).2⟩

/-- A link whose address has a line feed, and what could be the line of a space after it. -/
def feedInAddress : Json := .arr [linkTo "a\n  Space" []]

def feedInAddressStore : Store := .ofElements [.target .link .none ⟨0⟩ "a\n  Space" []] [[], [⟨0⟩]] []

def linkAndSpace : Json := .arr [linkTo "a" [], .obj [("t", .str "Space")]]

def linkAndSpaceStore : Store := .ofElements [.target .link .none ⟨0⟩ "a" [], .mark .space] [[], [⟨0⟩, ⟨1⟩]] []

attribute [local instance] Versioning.ofClauses in
/-- An address with a line feed breaks its line. So one node has two lines, and the outline of a link is that of
a link and a space. -/
theorem address_breaks_line : ∃ t t', Codec.decode .default feedInAddress = .ok t ∧
    Codec.decode .default linkAndSpace = .ok t' ∧
    Store.loadTree t .empty = (.list ⟨1⟩, feedInAddressStore) ∧
    Store.loadTree t' .empty = (.list ⟨1⟩, linkAndSpaceStore) ∧ ∃ bound, ∀ fuel, bound ≤ fuel →
      Walk.listing fuel feedInAddressStore (.list ⟨1⟩) = [(⟨0⟩, 1)] ∧
      (text fuel feedInAddressStore (.list ⟨1⟩)).count (CodePoint.ofChar '\n') = 3 ∧
      Walk.listing fuel linkAndSpaceStore (.list ⟨1⟩) = [(⟨0⟩, 1), (⟨1⟩, 1)] ∧
      text fuel linkAndSpaceStore (.list ⟨1⟩) = text fuel feedInAddressStore (.list ⟨1⟩) := by
  have decoded : Codec.decode .default feedInAddress = .ok (.list [linkNode "a\n  Space" []]) := rfl
  have decoded' : Codec.decode .default linkAndSpace = .ok (.list [linkNode "a" [], .mk (.mark .space)]) := rfl
  have acyclic : feedInAddressStore.Acyclic (.list ⟨1⟩) := fun _ _ => Store.finite_of_older (by decide)
  have acyclic' : linkAndSpaceStore.Acyclic (.list ⟨1⟩) := fun _ _ => Store.finite_of_older (by decide)
  obtain ⟨bound, walks⟩ := Walk.lists acyclic (by decide) (.cons (.nil 2) (.nil 1))
  obtain ⟨bound', walks'⟩ := Walk.lists acyclic' (by decide) (.cons (.nil 2) (.cons (.nil 2) (.nil 1)))
  refine ⟨_, _, decoded, decoded', rfl, rfl, bound + bound', fun fuel enough => ?_⟩
  have listed := (walks fuel (by omega)).2
  have listed' := (walks' fuel (by omega)).2
  rw [text_eq listed, text_eq listed']
  exact ⟨listed, by decide, listed', by decide⟩

end Outline

end DocTree
