import DocTree.Outline.Branches
import DocTree.Proofs.Outline.Lines
import DocTree.Proofs.Stateful
import DocTree.Proofs.Walk.Preorder
/-!
The drawing of an outline has the shape of the tree, whatever library draws it, if only adding to a branch
appends a new one. The nodes are numbered as often as they occur, in pre-order, after the root, which is number
zero. The branches that are kept are those on the path to the latest occurrence, and the next one is below some
occurrence on that path, however far the depth falls back.
-/

namespace DocTree

namespace Store

/-- An occurrence of a node: its number, the numbers above it from the root on, and those of its children. -/
structure Occurrence where
  node : NodeId
  number : Nat
  above : List Nat
  below : List Nat

def Occurrence.path (o : Occurrence) : List Nat := o.above ++ [o.number]

def Occurrence.entry (o : Occurrence) : NodeId × Nat := (o.node, o.above.length)

/-- Some nodes below a line of numbers unfold, from the next number on, into all the occurrences at them and
below them. `tops` are the numbers of the nodes themselves. -/
inductive Unfolds (s : Store) : List Nat → Nat → List NodeId → List Nat → List Occurrence → Prop
  | nil (above : List Nat) (next : Nat) : Unfolds s above next [] [] []
  | cons {above below tops : List Nat} {next : Nat} {n : NodeId} {ns : List NodeId}
      {inside later : List Occurrence}
      (inner : Unfolds s (above ++ [next]) (next + 1) (s.children n) below inside)
      (outer : Unfolds s above (next + 1 + inside.length) ns tops later) :
      Unfolds s above next (n :: ns) (next :: tops) (⟨n, next, above, below⟩ :: (inside ++ later))

/-- The occurrence with a number is one of this node, right below this line. The first one in the list has the
number `next`. -/
def Stands (all : List Occurrence) (next : Nat) (line : List Nat) (n : NodeId) (number : Nat) : Prop :=
  next ≤ number ∧ ∃ below, all[number - next]? = some ⟨n, number, line, below⟩

variable {s : Store} {depth next : Nat} {above tops : List Nat} {ns : List NodeId} {all : List Occurrence}
  {listed : List (NodeId × Nat)}

/-- What is listed unfolds: the places in the listing are those of the occurrences. -/
theorem Listed.unfolds (h : s.Listed depth ns listed) (level : above.length = depth) (next : Nat) :
    ∃ tops all, s.Unfolds above next ns tops all ∧ all.map (·.entry) = listed := by
  induction h generalizing above next with
  | nil => exact ⟨[], [], .nil above next, rfl⟩
  | @cons depth _ _ _ _ _ _ ihBelow ihNext =>
    have deeper : (above ++ [next]).length = depth + 1 := by rw [List.length_append, level, List.length_singleton]
    obtain ⟨below, inside, inner, sameInside⟩ := ihBelow deeper (next + 1)
    obtain ⟨tops, later, outer, sameLater⟩ := ihNext level (next + 1 + inside.length)
    refine ⟨_, _, .cons inner outer, ?_⟩
    rw [List.map_cons, List.map_append, sameInside, sameLater, Occurrence.entry, level]

theorem Unfolds.unique {tops' : List Nat} {all' : List Occurrence} (h : s.Unfolds above next ns tops all)
    (h' : s.Unfolds above next ns tops' all') : tops = tops' ∧ all = all' := by
  induction h generalizing tops' all' with
  | nil =>
    cases h'
    exact ⟨rfl, rfl⟩
  | cons _ _ ihInner ihOuter =>
    cases h' with
    | cons inner outer =>
      obtain ⟨rfl, rfl⟩ := ihInner inner
      obtain ⟨rfl, rfl⟩ := ihOuter outer
      exact ⟨rfl, rfl⟩

theorem Unfolds.number_eq (h : s.Unfolds above next ns tops all) {k : Nat} {o : Occurrence}
    (place : all[k]? = some o) : o.number = next + k := by
  induction h generalizing k with
  | nil => cases place
  | @cons above below tops next n ns inside later _ _ ihInner ihOuter =>
    cases k with
    | zero =>
      cases place
      rfl
    | succ k =>
      rw [List.getElem?_cons_succ] at place
      by_cases within : k < inside.length
      · rw [List.getElem?_append_left within] at place
        have := ihInner place
        omega
      · rw [List.getElem?_append_right (by omega)] at place
        have := ihOuter place
        omega

theorem Stands.later {line : List Nat} {n : NodeId} {number : Nat} {later : List Occurrence}
    (first : List Occurrence) (h : Stands later (next + first.length) line n number) :
    Stands (first ++ later) next line n number := by
  obtain ⟨enough, below, found⟩ := h
  refine ⟨by omega, below, ?_⟩
  rwa [List.getElem?_append_right (by omega), Nat.sub_sub]

theorem Stands.earlier {line : List Nat} {n : NodeId} {number : Nat} {first : List Occurrence}
    (h : Stands first next line n number) (later : List Occurrence) :
    Stands (first ++ later) next line n number := by
  obtain ⟨enough, below, found⟩ := h
  exact ⟨enough, below, List.getElem?_append_left (List.getElem?_eq_some_iff.mp found).1 ▸ found⟩

/-- The numbers of some nodes are those of their occurrences in turn, and those below an occurrence are those
of its children in turn. -/
theorem Unfolds.families (h : s.Unfolds above next ns tops all) :
    List.Forall₂ (Stands all next above) ns tops ∧
      ∀ o ∈ all, List.Forall₂ (Stands all next o.path) (s.children o.node) o.below := by
  induction h with
  | nil => exact ⟨.nil, fun o member => nomatch member⟩
  | @cons above below tops next n ns inside later _ _ ihInner ihOuter =>
    obtain ⟨innerTops, innerBelow⟩ := ihInner
    obtain ⟨outerTops, outerBelow⟩ := ihOuter
    let first : Occurrence := ⟨n, next, above, below⟩
    have ofInside {line m i} (h : Stands inside (next + 1) line m i) :
        Stands (first :: (inside ++ later)) next line m i := (h.earlier later).later [first]
    have ofLater {line m i} (h : Stands later (next + 1 + inside.length) line m i) :
        Stands (first :: (inside ++ later)) next line m i := (h.later inside).later [first]
    refine ⟨.cons ⟨Nat.le_refl _, below, by simp⟩ (outerTops.imp fun _ _ => ofLater), fun o member => ?_⟩
    rcases List.mem_cons.mp member with rfl | member
    · exact innerTops.imp fun _ _ => ofInside
    · rcases List.mem_append.mp member with inner | outer
      · exact (innerBelow o inner).imp fun _ _ => ofInside
      · exact (outerBelow o outer).imp fun _ _ => ofLater

/-- Each occurrence is below one on the path to the one before it. -/
inductive Climbs : List Nat → List Occurrence → Prop
  | nil (path : List Nat) : Climbs path []
  | cons {path above : List Nat} {parent : Nat} {o : Occurrence} {os : List Occurrence}
      (last : o.above = above ++ [parent]) (onPath : o.above <+: path) (rest : Climbs o.path os) :
      Climbs path (o :: os)

/-- Whatever comes below some nodes ends on a path that goes on from the line above them. -/
theorem Unfolds.climbs_before {line : List Nat} (h : s.Unfolds line next ns tops all) {parent : Nat}
    (last : line = above ++ [parent]) {path : List Nat} (onPath : line <+: path) {more : List Occurrence}
    (after : ∀ path', line <+: path' → Climbs path' more) : Climbs path (all ++ more) := by
  induction h generalizing above parent path more with
  | nil => exact after path onPath
  | @cons line below tops next n ns inside later _ _ ihInner ihOuter =>
    rw [List.cons_append, List.append_assoc]
    refine .cons last onPath (ihInner rfl (List.prefix_refl _) fun path' deeper => ?_)
    exact ihOuter last ((List.prefix_append _ _).trans deeper) after

end Store

namespace Outline

open Store (Occurrence Stands Climbs)

/-- The label of a number, with the numbers of those right below it. -/
abbrev Row := Text × List Nat

def hangRow (numbers : List Nat) : Row → Row
  | (t, below) => (t, below ++ numbers)

def row (s : Store) (o : Occurrence) : Row := (label (s.element o.node), o.below)

def growRow (s : Store) (rows : List Row) (o : Occurrence) : List Row :=
  rows.modify (o.above.getLastD 0) (hangRow [rows.length]) ++ [(label (s.element o.node), [])]

theorem hangRow_nil : hangRow [] = id := by
  funext ⟨t, below⟩
  simp [hangRow]

theorem hangRow_hangRow (first later : List Nat) : hangRow later ∘ hangRow first = hangRow (first ++ later) := by
  funext ⟨t, below⟩
  simp [hangRow]

section

variable {α : Type} (f : α → α)

theorem modify_append {i : Nat} {first : List α} (within : i < first.length) (later : List α) :
    (first ++ later).modify i f = first.modify i f ++ later := by
  rw [List.modify_eq_take_cons_drop within, List.modify_eq_take_cons_drop (by simp; omega),
    List.take_append_of_le_length (by omega), List.getElem_append_left within,
    List.drop_append_of_le_length (by omega), List.append_assoc, List.cons_append]

theorem modify_last (first : List α) (last : α) :
    (first ++ [last]).modify first.length f = first ++ [f last] := by
  rw [List.modify_eq_take_drop, List.take_left, List.drop_left]
  rfl

end

theorem modify_hangRow (rows inside : List Row) {parent : Nat} (within : parent < rows.length) (t : Text)
    (below tops : List Nat) :
    ((rows.modify parent (hangRow [rows.length]) ++ [(t, [])]).modify rows.length (hangRow below) ++
        inside).modify parent (hangRow tops) =
      rows.modify parent (hangRow (rows.length :: tops)) ++ (t, below) :: inside := by
  have next : (rows.modify parent (hangRow [rows.length])).length = rows.length := List.length_modify ..
  have labelled := modify_last (hangRow below) (rows.modify parent (hangRow [rows.length])) (t, [])
  rw [next] at labelled
  rw [labelled, List.append_assoc, modify_append _ (by omega), List.modify_modify_eq, hangRow_hangRow]
  simp [hangRow]

/-- What the occurrences come to, one after the other: each has its children below it, and so has the one that
is above them all. -/
theorem growRow_of_unfolds {s : Store} {line above tops : List Nat} {parent next : Nat} {ns : List NodeId}
    {all : List Occurrence} (h : s.Unfolds line next ns tops all) (last : line = above ++ [parent])
    {rows : List Row} (size : rows.length = next) (earlier : parent < next) :
    all.foldl (growRow s) rows = rows.modify parent (hangRow tops) ++ all.map (row s) := by
  induction h generalizing above parent rows with
  | nil => rw [hangRow_nil, List.modify_id, List.map_nil, List.append_nil, List.foldl_nil]
  | @cons line below tops next n ns inside later inner outer ihInner ihOuter =>
    have first : growRow s rows ⟨n, next, line, below⟩ =
        rows.modify parent (hangRow [rows.length]) ++ [(label (s.element n), [])] := by
      rw [growRow, last, List.getLastD_concat]
    have lengthFirst : (growRow s rows ⟨n, next, line, below⟩).length = next + 1 := by
      rw [first, List.length_append, List.length_modify, size, List.length_singleton]
    have grownInside := ihInner rfl lengthFirst (Nat.lt_succ_self next)
    have lengthInside : ((growRow s rows ⟨n, next, line, below⟩).modify next (hangRow below) ++
        inside.map (row s)).length = next + 1 + inside.length := by
      rw [List.length_append, List.length_modify, lengthFirst, List.length_map]
    have grownLater := ihOuter last lengthInside (by omega)
    rw [List.foldl_cons, List.foldl_append, grownInside, grownLater, first, ← size,
      modify_hangRow _ _ (by omega), List.append_assoc, List.map_cons, List.map_append]
    rfl

theorem forall₂_modify {α β : Type} {r r' : α → β → Prop} {f : β → β} {as : List α} {bs : List β}
    (h : List.Forall₂ r as bs) {i : Nat} (here : ∀ a b, as[i]? = some a → r a b → r' a (f b))
    (there : ∀ j a b, j ≠ i → as[j]? = some a → r a b → r' a b) : List.Forall₂ r' as (bs.modify i f) := by
  induction h generalizing i with
  | nil => cases i <;> exact .nil
  | @cons a b as bs first later ih =>
    cases i with
    | zero =>
      rw [List.modify_zero_cons]
      refine .cons (here a b rfl first) ?_
      have others := ih (i := as.length) (fun a' b' place => ?_) fun j a' b' _ place =>
        there (j + 1) a' b' nofun place
      · rwa [List.modify_eq_self (later.length_eq ▸ Nat.le_refl _)] at others
      · rw [List.getElem?_eq_none (Nat.le_refl _)] at place
        cases place
    | succ i =>
      rw [List.modify_succ_cons]
      refine .cons (there 0 a b (Nat.succ_ne_zero i).symm rfl first) (ih (fun a' b' => here a' b') ?_)
      exact fun j a' b' other => there (j + 1) a' b' fun same => other (Nat.succ.inj same)

theorem at?_before {α : Type} (items : List α) (k : Nat) : at? items ((k + 1 : Nat) - 1) = items[k]? := by
  have index : ((k + 1 : Nat) - 1 : Int) = k := by omega
  rw [at?, index, if_pos (by omega), Int.toNat_natCast]

theorem labelled_split (s : Store) (all : List Occurrence) : ∃ fine later, all = fine ++ later ∧
    (∀ o ∈ fine, Labelled s o.entry) ∧ ∀ o ∈ later.head?, ∃ fault, labelled (s.element o.node) = .error fault := by
  induction all with
  | nil => exact ⟨[], [], rfl, List.forall_mem_nil _, nofun⟩
  | cons o all ih =>
    rcases labelled_cases (s.element o.node) with isLabelled | unlabelled
    · obtain ⟨fine, later, rfl, areLabelled, stops⟩ := ih
      exact ⟨o :: fine, later, rfl, List.forall_mem_cons.mpr ⟨isLabelled, areLabelled⟩, stops⟩
    · refine ⟨[], o :: all, rfl, List.forall_mem_nil _, fun o' member => ?_⟩
      obtain rfl := Option.some.inj member
      exact unlabelled

section

variable [Drawing]

/-- What is seen of a canvas: the branches that are there, the label of each, and those right below it. -/
structure View where
  holds : Drawing.Canvas → Drawing.Branch → Prop
  label : Drawing.Canvas → Drawing.Branch → Text
  below : Drawing.Canvas → Drawing.Branch → List Drawing.Branch

namespace View

/-- A branch is new on the later canvas, with nothing below it, and the other labels are the same as before. -/
structure Adds (view : View) (before : Drawing.Canvas) (branch : Drawing.Branch) (t : Text)
    (after : Drawing.Canvas) : Prop where
  fresh : ¬view.holds before branch
  holds (b : Drawing.Branch) : view.holds after b ↔ b = branch ∨ view.holds before b
  label : view.label after branch = t
  below : view.below after branch = []
  labels (b : Drawing.Branch) (held : view.holds before b) : view.label after b = view.label before b

/-- The new branch is the last of those below its parent, and what is below the others is as before. -/
structure AddsBelow (view : View) (parent : Drawing.Branch) (before : Drawing.Canvas) (branch : Drawing.Branch)
    (t : Text) (after : Drawing.Canvas) : Prop extends view.Adds before branch t after where
  parentBelow : view.below after parent = view.below before parent ++ [branch]
  otherBelow (b : Drawing.Branch) (held : view.holds before b) (other : b ≠ parent) :
    view.below after b = view.below before b

/-- A tree begins with a new branch, and adding to a branch appends a new one to those right below it. -/
structure Appends (view : View) : Prop where
  start (t : Text) (canvas : Drawing.Canvas) :
    view.Adds canvas ((Drawing.start t).run canvas).1 t ((Drawing.start t).run canvas).2
  add {canvas : Drawing.Canvas} {parent : Drawing.Branch} (held : view.holds canvas parent) (t : Text) :
    view.AddsBelow parent canvas ((Drawing.add parent t).run canvas).1 t ((Drawing.add parent t).run canvas).2

end View

/-- The branches have these numbers, in turn, if they are numbered in the order in which they were made. -/
def Numbered (made : List Drawing.Branch) : List Drawing.Branch → List Nat → Prop :=
  List.Forall₂ fun branch number => made[number]? = some branch

def View.Shows (view : View) (canvas : Drawing.Canvas) (made : List Drawing.Branch) (branch : Drawing.Branch)
    (r : Row) : Prop := view.label canvas branch = r.1 ∧ Numbered made (view.below canvas branch) r.2

/-- The branches are on the canvas, all of them different, and each shows its own row. -/
structure View.Draws (view : View) (canvas : Drawing.Canvas) (made : List Drawing.Branch) (rows : List Row) :
    Prop where
  apart : made.Nodup
  held : ∀ b ∈ made, view.holds canvas b
  shown : List.Forall₂ (view.Shows canvas made) made rows

theorem Numbered.more {made branches : List Drawing.Branch} {numbers : List Nat} (h : Numbered made branches numbers)
    (later : List Drawing.Branch) : Numbered (made ++ later) branches numbers :=
  h.imp fun _ _ found => List.getElem?_append_left (List.getElem?_eq_some_iff.mp found).1 ▸ found

section

variable {view : View} {canvas after : Drawing.Canvas} {branch above : Drawing.Branch}
  {made branches : List Drawing.Branch} {rows : List Row} {t : Text}

theorem View.Draws.start (adds : view.Adds canvas branch t after) : view.Draws after [branch] [(t, [])] := by
  refine ⟨List.nodup_singleton _, fun b member => ?_, .cons ⟨adds.label, ?_⟩ .nil⟩
  · exact (adds.holds b).mpr (.inl (List.mem_singleton.mp member))
  · rw [adds.below]
    exact .nil

theorem View.Draws.add (h : view.Draws canvas made rows) {parent : Nat} (place : made[parent]? = some above)
    (adds : view.AddsBelow above canvas branch t after) :
    view.Draws after (made ++ [branch]) (rows.modify parent (hangRow [rows.length]) ++ [(t, [])]) := by
  have held := h.held above (List.mem_of_getElem? place)
  have size : rows.length = made.length := h.shown.length_eq.symm
  refine ⟨?_, fun b member => ?_, ?_⟩
  · refine h.apart.append (List.nodup_singleton _) (List.disjoint_singleton.mpr fun member => ?_)
    exact adds.fresh (h.held _ member)
  · rcases List.mem_append.mp member with earlier | new
    · exact (adds.holds b).mpr (.inr (h.held b earlier))
    · exact (adds.holds b).mpr (.inl (List.mem_singleton.mp new))
  · refine List.rel_append (forall₂_modify h.shown ?_ ?_) (.cons ⟨adds.label, ?_⟩ .nil)
    · -- The branch that is added to has the new one below it.
      rintro b ⟨label, below⟩ here ⟨hasLabel, hasBelow⟩
      obtain rfl := Option.some.inj (place.symm.trans here)
      refine ⟨(adds.labels _ held).trans hasLabel, ?_⟩
      rw [adds.parentBelow]
      refine List.rel_append (hasBelow.more _) (.cons ?_ .nil)
      rw [size, List.getElem?_concat_length]
    · rintro j b r other there ⟨hasLabel, hasBelow⟩
      have member := List.mem_of_getElem? there
      have apart : b ≠ above := by
        rintro rfl
        obtain ⟨within, -⟩ := List.getElem?_eq_some_iff.mp there
        exact other ((List.getElem?_inj within h.apart).mp (there.trans place.symm))
      refine ⟨(adds.labels b (h.held b member)).trans hasLabel, ?_⟩
      rw [adds.otherBelow b (h.held b member) apart]
      exact hasBelow.more _
    · rw [adds.below]
      exact .nil

end

section

variable {s : Store} {view : View} {canvas : Drawing.Canvas} {branches made : List Drawing.Branch} {rows : List Row}
  {path above : List Nat} {parent : Nat} {o : Occurrence}

theorem hang_labelled {entry : NodeId × Nat} {b : Drawing.Branch} (place : at? branches (entry.2 - 1) = some b)
    (isLabelled : Labelled s entry) : (hang s branches entry).run canvas =
      let (branch, after) := (Drawing.add b (label (s.element entry.1))).run canvas
      (.ok (branches.take entry.2 ++ [branch]), after) := by
  rw [hang, place]
  dsimp only
  rw [isLabelled]
  rfl

theorem hang_unlabelled {entry : NodeId × Nat} {b : Drawing.Branch} {fault : Fault}
    (place : at? branches (entry.2 - 1) = some b) (unlabelled : labelled (s.element entry.1) = .error fault) :
    (hang s branches entry).run canvas = (.error fault, canvas) := by
  rw [hang, place]
  dsimp only
  rw [unlabelled]
  rfl

theorem hangAll_append (s : Store) (branches : List Drawing.Branch) (first later : List (NodeId × Nat)) :
    hangAll s branches (first ++ later) = hangAll s branches first >>= fun branches => hangAll s branches later :=
  List.foldlM_append

theorem hangAll_cons (s : Store) (branches : List Drawing.Branch) (entry : NodeId × Nat)
    (later : List (NodeId × Nat)) :
    hangAll s branches (entry :: later) = hang s branches entry >>= fun branches => hangAll s branches later :=
  List.foldlM_cons

/-- A node without a label breaks off what comes after the nodes with labels. -/
theorem hangAll_unlabelled {first later : List (NodeId × Nat)} {entry : NodeId × Nat} {kept : List Drawing.Branch}
    {after : Drawing.Canvas} {b : Drawing.Branch} {fault : Fault}
    (ran : (hangAll s branches first).run canvas = (.ok kept, after)) (place : at? kept (entry.2 - 1) = some b)
    (unlabelled : labelled (s.element entry.1) = .error fault) :
    (hangAll s branches (first ++ entry :: later)).run canvas = (.error fault, after) := by
  rw [hangAll_append, run_bind, ran]
  dsimp only
  rw [hangAll_cons, run_bind, hang_unlabelled place unlabelled]

/-- The branch that an occurrence is to be hung below is the last that is kept of those above it. -/
theorem Numbered.last (h : Numbered made branches path) (last : o.above = above ++ [parent])
    (onPath : o.above <+: path) :
    ∃ b, at? branches (o.entry.2 - 1) = some b ∧ made[parent]? = some b := by
  obtain ⟨rest, same⟩ := onPath
  have level : o.above.length = above.length + 1 := by rw [last, List.length_append, List.length_singleton]
  have onPath : path[above.length]? = some parent := by
    rw [← same, last, List.append_assoc, List.getElem?_append_right (Nat.le_refl _), Nat.sub_self]
    rfl
  obtain ⟨within, isParent⟩ := List.getElem?_eq_some_iff.mp onPath
  have withinBranches : above.length < branches.length := h.length_eq ▸ within
  have found := List.Forall₂.get h withinBranches within
  rw [List.get_eq_getElem, List.get_eq_getElem, isParent] at found
  refine ⟨branches[above.length], ?_, found⟩
  rw [Occurrence.entry, level, at?_before, List.getElem?_eq_getElem withinBranches]

/-- An occurrence with a label is hung below the one above it, and the branches that are kept are then those on
its path. -/
theorem hang_next (appends : view.Appends) (draws : view.Draws canvas made rows)
    (numbered : Numbered made branches path) (last : o.above = above ++ [parent]) (onPath : o.above <+: path)
    (isNext : o.number = rows.length) (isLabelled : Labelled s o.entry) :
    ∃ branch after, (hang s branches o.entry).run canvas = (.ok (branches.take o.entry.2 ++ [branch]), after) ∧
      view.Draws after (made ++ [branch]) (growRow s rows o) ∧
      Numbered (made ++ [branch]) (branches.take o.entry.2 ++ [branch]) o.path := by
  obtain ⟨b, place, isParent⟩ := numbered.last last onPath
  have adds := appends.add (draws.held b (List.mem_of_getElem? isParent)) (label (s.element o.node))
  refine ⟨_, _, hang_labelled place isLabelled, ?_, ?_⟩
  · rw [growRow, last, List.getLastD_concat]
    exact draws.add isParent adds
  · have cut : path.take o.above.length = o.above := (List.prefix_iff_eq_take.mp onPath).symm
    have kept : Numbered made (branches.take o.above.length) (path.take o.above.length) :=
      List.forall₂_take o.above.length numbered
    rw [cut] at kept
    refine List.rel_append (kept.more _) (.cons ?_ .nil)
    rw [isNext, draws.shown.length_eq.symm]
    exact List.getElem?_concat_length

/-- The labels of some occurrences can be hung in turn. The branches that are kept after each are those on the
path to it, and what comes next is below one of them. -/
theorem hangAll_climbing (appends : view.Appends) {os later : List Occurrence} (climbs : Climbs path (os ++ later))
    (fine : ∀ o ∈ os, Labelled s o.entry) (numbers : ∀ k o, os[k]? = some o → o.number = rows.length + k)
    (draws : view.Draws canvas made rows) (numbered : Numbered made branches path) :
    ∃ more, more.length = os.length ∧
      (∃ kept after way, (hangAll s branches (os.map (·.entry))).run canvas = (.ok kept, after) ∧
        view.Draws after (made ++ more) (os.foldl (growRow s) rows) ∧ Numbered (made ++ more) kept way ∧
        Climbs way later) ∧
      ∀ i ≤ os.length, ∃ kept after way,
        (hangAll s branches ((os.map (·.entry)).take i)).run canvas = (.ok kept, after) ∧
        (path :: os.map (·.path))[i]? = some way ∧ Numbered (made ++ more) kept way := by
  induction os generalizing canvas made branches rows path with
  | nil =>
    have same : Numbered (made ++ []) branches path := numbered.more []
    refine ⟨[], rfl, ⟨branches, canvas, path, rfl, ?_, same, climbs⟩, fun i within => ?_⟩
    · rwa [List.append_nil]
    · obtain rfl := Nat.le_zero.mp within
      exact ⟨branches, canvas, path, rfl, rfl, same⟩
  | cons o os ih =>
    obtain ⟨isLabelled, fineLater⟩ := List.forall_mem_cons.mp fine
    obtain ⟨⟩ | ⟨last, onPath, rest⟩ := climbs
    obtain ⟨branch, after, hung, drawsFirst, onPathFirst⟩ :=
      hang_next appends draws numbered last onPath (numbers 0 o rfl) isLabelled
    have numbersLater (k : Nat) (o' : Occurrence) (place : os[k]? = some o') :
        o'.number = (growRow s rows o).length + k := by
      have size : (growRow s rows o).length = rows.length + 1 := by
        rw [growRow, List.length_append, List.length_modify, List.length_singleton]
      rw [numbers (k + 1) o' place, size]
      omega
    obtain ⟨more, length, ⟨kept, all, way, ran, drawsAll, onWay, climbsOn⟩, partway⟩ :=
      ih rest fineLater numbersLater drawsFirst onPathFirst
    rw [← List.append_cons] at drawsAll onWay
    refine ⟨branch :: more, ?_, ⟨kept, all, way, ?_, drawsAll, onWay, climbsOn⟩, fun i within => ?_⟩
    · rw [List.length_cons, length, List.length_cons]
    · rw [List.map_cons, hangAll_cons, run_bind, hung]
      exact ran
    · cases i with
      | zero => exact ⟨branches, canvas, path, rfl, rfl, numbered.more _⟩
      | succ i =>
        obtain ⟨kept, after, way, ran, place, onWay⟩ := partway i (Nat.le_of_succ_le_succ within)
        refine ⟨kept, after, way, ?_, place, ?_⟩
        · rw [List.map_cons, List.take_succ_cons, hangAll_cons, run_bind, hung]
          exact ran
        · rwa [← List.append_cons] at onWay

theorem sketch_run (label : Text) (nodes : List (NodeId × Nat)) : (sketch s label nodes).run canvas =
    let (top, begun) := (Drawing.start label).run canvas
    match (hangAll s [top] nodes).run begun with
    | (.ok kept, after) => (.ok (top, kept), after)
    | (.error fault, after) => (.error fault, after) := by
  rw [sketch, run_bind]
  cases started : (Drawing.start label).run canvas with
  | mk top begun =>
    have lifted : (liftM (Drawing.start label) : Sketching Drawing.Branch).run canvas = (.ok top, begun) := by
      change (Except.ok ((Drawing.start label).run canvas).1, ((Drawing.start label).run canvas).2) = _
      rw [started]
    rw [lifted]
    dsimp only
    rw [run_bind]
    cases (hangAll s [top] nodes).run begun with
    | mk result after => cases result <;> rfl

/-- For every finite tree, however much of it is shared, and every library that appends, the drawing has the shape
of the tree: the nodes below the root unfold into occurrences, numbered from one on in the order of the walk, and
each occurrence has the children of its node right below it, in turn. The branches are made in this order, each
another one. After each node the branches that are kept are those on the path to its occurrence, from the root on.
In the end the branch of every occurrence has its label, and below it the branches of its children in turn; that of
the root has the topmost ones below it. Only a node without a label breaks the drawing off, when its turn comes. -/
theorem shaped_as_tree (appends : view.Appends) {root : Root} (acyclic : s.Acyclic root) (keyed : s.Keyed) :
    ∃ tops all, s.Unfolds [0] 1 (s.top root) tops all ∧
      (∀ k o, all[k]? = some o → o.number = k + 1) ∧
      List.Forall₂ (Stands all 1 [0]) (s.top root) tops ∧
      (∀ o ∈ all, List.Forall₂ (Stands all 1 o.path) (s.children o.node) o.below) ∧
      ∃ bound, ∀ fuel, bound ≤ fuel →
        (Walk.run ⟨Walk.keepAll, Walk.noteNode⟩ fuel [.ofRoot root] ⟨s, []⟩).1 = .ok () ∧
        Walk.listing fuel s root = all.map (·.entry) ∧
        ∃ fine later made top, all = fine ++ later ∧ (∀ o ∈ fine, Labelled s o.entry) ∧
          made.Nodup ∧ made.length = fine.length + 1 ∧ made[0]? = some top ∧
          (∀ i ≤ fine.length, ∃ kept canvas way,
            (sketch s (rootLabel s root) ((Walk.listing fuel s root).take i)).run Drawing.blank =
              (.ok (top, kept), canvas) ∧
            ([0] :: fine.map (·.path))[i]? = some way ∧ Numbered made kept way) ∧
          (later = [] → ∃ kept canvas,
            (sketch s (rootLabel s root) (Walk.listing fuel s root)).run Drawing.blank = (.ok (top, kept), canvas) ∧
            view.Draws canvas made ((rootLabel s root, tops) :: all.map (row s))) ∧
          ∀ o rest, later = o :: rest → ∃ fault canvas, labelled (s.element o.node) = .error fault ∧
            fault ≠ .outOfRange ∧
            (sketch s (rootLabel s root) (Walk.listing fuel s root)).run Drawing.blank = (.error fault, canvas) := by
  obtain ⟨listed, isListed⟩ := acyclic.listed 1
  obtain ⟨tops, all, unfolds, places⟩ := isListed.unfolds (List.length_singleton (a := 0)) 1
  obtain ⟨topmost, below⟩ := unfolds.families
  have numbers (k : Nat) (o : Occurrence) (place : all[k]? = some o) : o.number = k + 1 := by
    rw [unfolds.number_eq place, Nat.add_comm]
  have climbs : Climbs [0] (all ++ []) :=
    unfolds.climbs_before (List.nil_append [0]).symm (List.prefix_refl _) fun path _ => .nil path
  rw [List.append_nil] at climbs
  obtain ⟨bound, walks⟩ := Walk.lists acyclic keyed isListed
  refine ⟨tops, all, unfolds, numbers, topmost, below, bound, fun fuel enough => ?_⟩
  obtain ⟨walked, isListing⟩ := walks fuel enough
  rw [← places] at isListing
  obtain ⟨fine, later, rfl, areLabelled, stops⟩ := labelled_split s all
  -- The root is the first branch, and the others go below it as far as they have labels.
  have begun := View.Draws.start (appends.start (rootLabel s root) Drawing.blank)
  generalize started : (Drawing.start (rootLabel s root)).run Drawing.blank = result at begun
  obtain ⟨top, canvas⟩ := result
  have numbersFine (k : Nat) (o : Occurrence) (place : fine[k]? = some o) :
      o.number = [(rootLabel s root, ([] : List Nat))].length + k := by
    have within := (List.getElem?_eq_some_iff.mp place).1
    rw [numbers k o (by rw [List.getElem?_append_left within, place]), List.length_singleton, Nat.add_comm]
  obtain ⟨more, length, ⟨kept, after, way, ran, draws, onWay, climbsOn⟩, partway⟩ :=
    hangAll_climbing appends climbs areLabelled numbersFine begun (.cons rfl .nil)
  refine ⟨congrArg Prod.fst walked, isListing, fine, later, top :: more, top, rfl, areLabelled, draws.apart, ?_, rfl,
    fun i within => ?_, ?_, ?_⟩
  · rw [List.length_cons, length]
  · obtain ⟨kept, after, way, ran, place, onWay⟩ := partway i within
    refine ⟨kept, after, way, ?_, place, onWay⟩
    have short : i ≤ (fine.map (·.entry)).length := by rwa [List.length_map]
    rw [isListing, List.map_append, List.take_append_of_le_length short, sketch_run, started]
    dsimp only
    rw [ran]
  · rintro rfl
    refine ⟨kept, after, ?_, ?_⟩
    · rw [isListing, List.append_nil, sketch_run, started]
      dsimp only
      rw [ran]
    · rw [List.append_nil] at unfolds ⊢
      rw [growRow_of_unfolds unfolds (List.nil_append [0]).symm rfl Nat.zero_lt_one] at draws
      exact draws
  · rintro o rest rfl
    obtain ⟨fault, unlabelled⟩ := stops o rfl
    obtain ⟨⟩ | ⟨last, onPath, -⟩ := climbsOn
    obtain ⟨b, place, -⟩ := onWay.last last onPath
    refine ⟨fault, after, unlabelled, labelled_inRange _ unlabelled, ?_⟩
    rw [isListing, List.map_append, List.map_cons, sketch_run, started]
    dsimp only
    rw [hangAll_unlabelled ran place unlabelled]

end

end

end Outline

namespace Branches

section

variable (labels : Table) (parent : Nat) (t : Text)

def Table.row (branch : Nat) : Outline.Row :=
  ((labels.getD branch ([], [])).1, (labels.getD branch ([], [])).2.reverse)

def Table.started : Table := labels.push (t, [])

def Table.added : Table := (labels.modify parent fun (t, below) => (t, labels.size :: below)).push (t, [])

theorem size_started : (labels.started t).size = labels.size + 1 := Array.size_push _

theorem size_added : (labels.added parent t).size = labels.size + 1 := by
  rw [Table.added, Array.size_push, Array.size_modify]

theorem row_started {branch : Nat} (held : branch < labels.size) :
    (labels.started t).row branch = labels.row branch := by
  simp [Table.row, Table.started, Array.getD, Array.getElem_push, held, Nat.lt_succ_of_lt held]

theorem row_started_last : (labels.started t).row labels.size = (t, []) := by
  simp [Table.row, Table.started, Array.getD]

theorem row_added {branch : Nat} (held : branch < labels.size) : (labels.added parent t).row branch =
    if branch = parent then Outline.hangRow [labels.size] (labels.row branch) else labels.row branch := by
  have below : branch < labels.size + 1 := Nat.lt_succ_of_lt held
  by_cases same : branch = parent
  · subst same
    simp [Table.row, Table.added, Array.getD, Array.getElem_push, Array.getElem_modify, held,
      Outline.hangRow, held.le]
  · simp [Table.row, Table.added, Array.getD, Array.getElem_push, Array.getElem_modify, held, below, same,
      Ne.symm same]

theorem row_added_last : (labels.added parent t).row labels.size = (t, []) := by
  simp [Table.row, Table.added, Array.getD, Array.getElem_push]

end

attribute [local instance] drawing

def view : Outline.View where
  holds (labels : Table) (branch : Nat) := branch < labels.size
  label (labels : Table) (branch : Nat) := (labels.row branch).1
  below (labels : Table) (branch : Nat) := (labels.row branch).2

theorem view_appends : view.Appends where
  start t (labels : Table) := by
    refine ⟨Nat.lt_irrefl labels.size, fun (b : Nat) => ?_, congrArg Prod.fst (row_started_last labels t), ?_,
      fun (b : Nat) => ?_⟩
    · change b < (labels.started t).size ↔ b = labels.size ∨ b < labels.size
      rw [size_started]
      omega
    · exact congrArg Prod.snd (row_started_last labels t)
    · exact fun held => congrArg Prod.fst (row_started labels t held)
  add {labels : Table} {parent : Nat} held t := by
    have others (b : Nat) (held : b < labels.size) : ((labels.added parent t).row b).1 = (labels.row b).1 := by
      rw [row_added labels parent t held]
      split <;> rfl
    refine ⟨⟨Nat.lt_irrefl labels.size, fun (b : Nat) => ?_, congrArg Prod.fst (row_added_last labels parent t),
      congrArg Prod.snd (row_added_last labels parent t), others⟩, ?_, fun (b : Nat) held other => ?_⟩
    · change b < (labels.added parent t).size ↔ b = labels.size ∨ b < labels.size
      rw [size_added]
      omega
    · refine (congrArg Prod.snd (row_added labels parent t held)).trans ?_
      rw [if_pos rfl]
      rfl
    · refine (congrArg Prod.snd (row_added labels parent t held)).trans ?_
      rw [if_neg other]
      rfl

end Branches

namespace Outline

section

attribute [local instance] Branches.drawing

open Walk (refrain) in
/-- Shared nodes have a branch for each time they occur. -/
theorem refrain_drawn : Branches.view.Appends ∧ refrain.Acyclic (.node ⟨3⟩) ∧ refrain.Keyed ∧
    ∃ bound, ∀ fuel, bound ≤ fuel → ∃ result canvas made,
      (sketch refrain (rootLabel refrain (.node ⟨3⟩)) (Walk.listing fuel refrain (.node ⟨3⟩))).run Drawing.blank =
        (.ok result, canvas) ∧
      Branches.view.Draws canvas made ([("Pandoc", [1, 3, 5]), ("MetaInlines", [2]), ("Str 'a'", []), ("Para", [4]),
        ("Str 'a'", []), ("Para", [6]), ("Str 'a'", [])] : List Row) := by
  have older : ∀ i < refrain.records.size, ∀ m ∈ refrain.children ⟨i⟩, m.index < i := by decide
  have acyclic : refrain.Acyclic (.node ⟨3⟩) := fun n _ => Store.finite_of_older older
  have keyed : refrain.Keyed := by decide
  obtain ⟨tops, all, unfolds, -, -, -, bound, draws⟩ := shaped_as_tree Branches.view_appends acyclic keyed
  have word (above : List Nat) (next : Nat) :
      refrain.Unfolds above next [⟨0⟩] [next] (⟨⟨0⟩, next, above, []⟩ :: ([] ++ [])) :=
    .cons (.nil _ _) (.nil _ _)
  obtain ⟨rfl, rfl⟩ := unfolds.unique
    (.cons (word [0, 1] 2) (.cons (word [0, 3] 4) (.cons (word [0, 5] 6) (.nil [0] 7))))
  refine ⟨Branches.view_appends, acyclic, keyed, bound, fun fuel enough => ?_⟩
  obtain ⟨-, -, fine, later, made, top, split, -, -, -, -, -, whole, cut⟩ := draws fuel enough
  have areLabelled : ∀ o ∈ fine ++ later, (labelled (refrain.element o.node)).toBool = true := by
    rw [← split]
    decide
  cases later with
  | nil =>
    obtain ⟨kept, canvas, ran, drawn⟩ := whole rfl
    refine ⟨(top, kept), canvas, made, ran, ?_⟩
    refine (congrArg (Branches.view.Draws canvas made) ?_).mpr drawn
    decide +kernel
  | cons o rest =>
    obtain ⟨fault, -, unlabelled, -⟩ := cut o rest rfl
    have isLabelled := areLabelled o (List.mem_append_right fine List.mem_cons_self)
    rw [unlabelled] at isLabelled
    cases isLabelled

/-- A heading on a level that has too many digits to be printed. -/
def deepHeading : Store := .ofElements [.header Number.tooLong .none ⟨0⟩] [[], [⟨0⟩]] []

/-- The level of a heading may have too many digits for a label, and then there is no drawing. -/
theorem deep_heading_not_drawn : deepHeading.Acyclic (.list ⟨1⟩) ∧ deepHeading.Keyed ∧
    ∃ bound, ∀ fuel, bound ≤ fuel → ∃ canvas,
      (sketch deepHeading (rootLabel deepHeading (.list ⟨1⟩)) (Walk.listing fuel deepHeading (.list ⟨1⟩))).run
        Drawing.blank = (.error .unprintable, canvas) := by
  have acyclic : deepHeading.Acyclic (.list ⟨1⟩) := fun _ _ => Store.finite_of_older (by decide)
  have keyed : deepHeading.Keyed := by decide
  obtain ⟨bound, walks⟩ := Walk.lists acyclic keyed (.cons (.nil 2) (.nil 1))
  refine ⟨acyclic, keyed, bound, fun fuel enough => ?_⟩
  have unlabelled : labelled (deepHeading.element ⟨0⟩) = .error .unprintable := by
    have heading : deepHeading.element ⟨0⟩ = .header Number.tooLong .none ⟨0⟩ := rfl
    rw [heading, labelled, if_neg nofun]
    simp only [Element.level?, Option.all_some, Number.isShort_tooLong, Bool.false_eq_true, if_false]
  cases started : (Drawing.start (rootLabel deepHeading (.list ⟨1⟩))).run Drawing.blank with
  | mk top begun =>
    have hung : (hang deepHeading [top] (⟨0⟩, 1)).run begun = (.error .unprintable, begun) :=
      hang_unlabelled (at?_before [top] 0) unlabelled
    refine ⟨begun, ?_⟩
    rw [(walks fuel enough).2, sketch_run, started]
    dsimp only
    rw [hangAll_cons, run_bind, hung]

end

end Outline

end DocTree
