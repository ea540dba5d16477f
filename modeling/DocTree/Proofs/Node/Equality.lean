import DocTree.Proofs.Codec.Equality
import DocTree.Proofs.Codec.Held
import DocTree.Proofs.Codec.Normal
import DocTree.Version.Range
/-!
Equality of trees that have been decoded. It is equality of what they are written as, and where there is no
not-a-number it is an equivalence.
-/

namespace DocTree

/-- No not-a-number is in what the elements of a tree hold: in the width of a column or in the name of a
citation. -/
def Tree.NanFree (t : Tree) : Prop := t.All fun e => ∀ j ∈ e.held, j.NanFree

namespace Json

def Comparable (j : Json) : Prop := j.Keyed ∧ j.NanFree

@[simp] theorem keyed_str (t : Text) : (str t).Keyed := keyed_scalar ⟨nofun, nofun⟩

@[simp] theorem keyed_int (n : Int) : (int n).Keyed := keyed_scalar ⟨nofun, nofun⟩

@[simp] theorem keyed_float (x : Binary64) : (float x).Keyed := keyed_scalar ⟨nofun, nofun⟩

theorem comparable_int (n : Int) : (int n).Comparable := ⟨keyed_int n, fun _ => ⟨nofun, nofun⟩⟩

theorem comparable_hereditary : Codec.Hereditary Comparable List.Nodup where
  null := ⟨keyed_scalar ⟨nofun, nofun⟩, fun _ => ⟨nofun, nofun⟩⟩
  bool b := ⟨keyed_scalar ⟨nofun, nofun⟩, fun _ => ⟨nofun, nofun⟩⟩
  word s := ⟨keyed_str s, fun _ => ⟨nofun, nofun⟩⟩
  arr := by simp [Comparable, forall_and]
  obj distinct := by simp [Comparable, distinct, forall_and]
  words _ distinct := distinct

end Json

section

variable {S M : Type}

theorem Attr.held_keyed (a : Attr) : ∀ j ∈ a.held, j.Keyed := by
  simp only [held, List.forall_mem_append, List.forall_mem_cons, List.forall_mem_map, List.forall_mem_flatMap,
    Json.keyed_str, List.not_mem_nil, false_implies, implies_true, and_self]

theorem Row.held_keyed (rows : List (Row S)) : ∀ j ∈ rows.flatMap (·.held), j.Keyed := by
  simp only [held, Cell.held, List.forall_mem_append, List.forall_mem_cons, List.forall_mem_flatMap,
    Json.keyed_str, Json.keyed_int, List.not_mem_nil, false_implies, implies_true, and_true]
  exact fun r _ => ⟨r.attr.held_keyed, fun c _ => c.attr.held_keyed⟩

theorem Table.held_keyed (t : Table S) : ∀ j ∈ t.held, j.Keyed := by
  have columns : ∀ c ∈ t.columns, ∀ j ∈ c.held, j.Keyed := by
    rintro ⟨alignment, width⟩ _
    cases width <;> simp [Column.held]
  have group (g : RowGroup S) : ∀ j ∈ g.held, j.Keyed :=
    List.forall_mem_append.mpr ⟨g.attr.held_keyed, Row.held_keyed g.rows⟩
  have part (a : Section S) : ∀ j ∈ a.held, j.Keyed :=
    List.forall_mem_append.mpr ⟨List.forall_mem_append.mpr ⟨a.attr.held_keyed,
      List.forall_mem_cons.mpr ⟨Json.keyed_int _, Row.held_keyed a.head⟩⟩, Row.held_keyed a.body⟩
  simp only [held, List.forall_mem_append, List.forall_mem_flatMap]
  exact ⟨⟨⟨⟨t.attr.held_keyed, columns⟩, group t.head⟩, fun a _ => part a⟩, group t.foot⟩

theorem Element.held_keyed {e : Element S M} (ids : ∀ id ∈ e.citationIds, id.Keyed) : ∀ j ∈ e.held, j.Keyed := by
  cases e with
  | table t => exact t.held_keyed
  | cite citations content =>
    simp only [citationIds, List.forall_mem_map] at ids
    simp only [held, Citation.held, List.forall_mem_flatMap, List.forall_mem_cons, Json.keyed_str, Json.keyed_int,
      List.not_mem_nil, false_implies, implies_true, and_true]
    exact ids
  | header level a content => exact List.forall_mem_cons.mpr ⟨Json.keyed_int level, a.held_keyed⟩
  | figure a | box kind a => exact a.held_keyed
  | verbatim kind a t => exact List.forall_mem_cons.mpr ⟨Json.keyed_str t, a.held_keyed⟩
  | target kind a content url title =>
    exact List.forall_mem_cons.mpr ⟨Json.keyed_str url, List.forall_mem_cons.mpr ⟨Json.keyed_str title, a.held_keyed⟩⟩
  | _ =>
    simp only [held, Numbering.held, List.forall_mem_cons, List.forall_mem_map, List.not_mem_nil, false_implies,
      implies_true, and_self, Json.keyed_str, Json.keyed_int]

end

namespace Codec

section

variable {child : Json → Decoded Node}

theorem parts_keyed {j : Json} (keyed : j.Keyed) {js : List Json} (parts : sequence? j = some js) :
    ∀ i ∈ js, i.Keyed := by
  cases j with
  | arr items =>
    cases parts
    exact Json.keyed_arr.mp keyed
  | str t =>
    cases parts
    exact List.forall_mem_map.mpr fun c _ => Json.keyed_str [c]
  | obj ms =>
    cases parts
    exact List.forall_mem_map.mpr fun entry _ => Json.keyed_str entry.1
  | null | bool | int | float => cases parts

theorem citation_keyed {j : Json} (keyed : j.Keyed) :
    Ends (fun c => c.id.Keyed) (fun _ => True) (citation child j) := by
  have any {α : Type} (x : Decoded α) : Ends (fun _ => True) (fun _ => True) x := by
    cases x <;> trivial
  refine ((member_ends "citationId" j).weaken fun _ _ => trivial).bind fun id known => ?_
  obtain ⟨ms, rfl, found⟩ := known
  have isKeyed : id.Keyed := keyed.inside (.value (Mapping.get?_mem found) rfl)
  exact (any _).bind fun _ _ => (any _).bind fun _ _ => (any _).bind fun _ _ => (any _).bind fun _ _ =>
    (any _).bind fun _ _ => (any _).bind fun _ _ => isKeyed

theorem cite_keyed {j : Json} (keyed : j.Keyed) {e : Shape Node} (read : cite child j = .ok e) :
    ∀ id ∈ e.citationIds, id.Keyed := by
  obtain ⟨⟨citations, content⟩, isPair, read⟩ := of_bind_ok read
  obtain ⟨js, isList, read⟩ := of_bind_ok read
  obtain ⟨cs, areCitations, read⟩ := of_bind_ok read
  obtain ⟨ns, _, read⟩ := of_bind_ok read
  cases read
  rw [lift_self] at isPair isList
  have parts := pair_ends j
  have list := listOf_ends "citations" citations
  rw [isPair] at parts
  rw [isList] at list
  have inside : ∀ i ∈ js, i.Keyed := Json.keyed_arr.mp (list ▸ parts_keyed keyed parts citations (.head _))
  have each := Ends.mapM fun j member => (citation_keyed (inside j member) : Ends _ _ (citation child j))
  rw [areCitations] at each
  exact List.forall_mem_map.mpr each

theorem shape_ids {P : Node → Prop} (each : ∀ j, Ends P (Explained .element j) (child j)) {j : Json} (keyed : j.Keyed)
    {e : Shape Node} (read : shape child j = .ok e) : ∀ id ∈ e.citationIds, id.Keyed := by
  obtain ⟨ms, rfl, inner, below, read⟩ := shape_read each read
  cases e with
  | cite citations content =>
    refine cite_keyed ?_ read
    exact memberOr_inside Json.Keyed.inside keyed (Json.keyed_scalar ⟨nofun, nofun⟩)
  | _ => exact nofun

end

/-- No value that is kept as the name of a citation has a key twice. -/
theorem decode_ids [Versioning] {options : Options} {j : Json} (keyed : j.Keyed) {t : Tree}
    (read : decode options j = .ok t) :
    t.All fun e => ∀ id ∈ e.citationIds, id.Keyed := by
  have step (child : Json → Decoded Node)
      (each : ∀ j, Ends (Node.All fun e => ∀ id ∈ e.citationIds, id.Keyed) (Explained .element j) (child j))
      {j : Json} (keyed : j.Keyed) {e : Shape Node} (read : shape child j = .ok e) :
      Node.All (fun e => ∀ id ∈ e.citationIds, id.Keyed) (.mk e) := by
    obtain ⟨ms, -, -, below, -⟩ := shape_read each read
    exact .mk (shape_ids each keyed read) below
  rcases (decode_readFrom read).inherits Json.Keyed.inside step keyed with
    ⟨n, rfl, known⟩ | ⟨ns, rfl, known⟩ | ⟨entries, version, metadata, blocks, rfl, -, -, below⟩
  · exact known
  · exact known
  · exact .mk nofun below

/-- What a tree is written as, if it has been decoded and there is no not-a-number in it, is the same as itself. -/
theorem comparable_treeJson [Versioning] {options : Options} {j : Json} (keyed : j.Keyed) {t : Tree}
    (read : decode options j = .ok t) (free : t.NanFree) : (treeJson t).Comparable := by
  have keys : t.All fun e => ∀ m, .mapping m ∈ e.slots → m.keys.Nodup := by
    have each {n : Node} (keyed : n.Keyed) : n.All fun e => ∀ m, .mapping m ∈ e.slots → m.keys.Nodup := by
      induction keyed with
      | mk distinct _ ih => exact .mk distinct ih
    have known := decode_keyed keyed read
    cases t with
    | node n => exact each known
    | list ns => exact fun n member => each (known n member)
  refine Json.comparable_hereditary.treeJson ?_
  refine Tree.All.and_imp (fun e held keys => ⟨held, keys⟩) ?_ keys
  exact Tree.All.and_imp (fun e ids free j own => ⟨Element.held_keyed ids j own, free j own⟩)
    (decode_ids keyed read) free

end Codec

/-- A tree that the decoder returns for some value. No object in a value has a key twice. -/
def Tree.Decoded [Versioning] (t : Tree) : Prop := ∃ options j, Json.Keyed j ∧ Codec.decode options j = .ok t

/-- Trees that have been decoded can be written, and they are equal just if what they are written as is equal.
On those without a not-a-number in them, equality is an equivalence. -/
theorem Tree.same_iff_encodings_same [Versioning] :
    (∀ a b : Tree, a.Decoded → b.Decoded → ∃ j k, Codec.encode a = .ok j ∧ Codec.encode b = .ok k ∧
      (a.same b = true ↔ j.same k = true)) ∧
    Equivalence fun a b : { t : Tree // t.Decoded ∧ t.NanFree } => a.1.same b.1 = true := by
  have proper {t : Tree} (decoded : t.Decoded) : t.Proper := by
    obtain ⟨options, j, -, read⟩ := decoded
    exact Codec.decode_proper read
  have comparable {t : Tree} (known : t.Decoded ∧ t.NanFree) : (Codec.treeJson t).Comparable := by
    obtain ⟨⟨options, j, keyed, read⟩, free⟩ := known
    exact Codec.comparable_treeJson keyed read free
  have encoded {a b : Tree} (decoded : a.Decoded) (decoded' : b.Decoded) :
      a.same b = (Codec.treeJson a).same (Codec.treeJson b) :=
    (Codec.same_treeJson (proper decoded) (proper decoded')).symm
  refine ⟨fun a b decoded decoded' => ?_, ?_, ?_, ?_⟩
  · exact ⟨_, _, Codec.encode_eq (proper decoded), Codec.encode_eq (proper decoded'),
      by rw [encoded decoded decoded']⟩
  · rintro ⟨a, known⟩
    rw [encoded known.1 known.1]
    exact Json.same_refl (comparable known).1 (comparable known).2
  · rintro ⟨a, known⟩ ⟨b, known'⟩ same
    rw [encoded known'.1 known.1]
    rw [encoded known.1 known'.1] at same
    exact Json.same_symm (comparable known).1 (comparable known').1 same
  · rintro ⟨a, known⟩ ⟨b, known'⟩ ⟨c, known''⟩ first second
    rw [encoded known.1 known''.1]
    rw [encoded known.1 known'.1] at first
    rw [encoded known'.1 known''.1] at second
    exact Json.same_trans first second

/-! Metadata with a citation by some name, in one order and in the other. -/

def citedBy (id : Json) : Node :=
  .mk (.wrap .metaInlines [.mk (.cite [⟨id, [], [], "NormalCitation", 0, 0⟩] [])])

def draftFirst (id : Json) : Tree := .node (.mk (.metaMap [("draft", .mk (.metaBool true)), ("cited", citedBy id)]))

def draftLast (id : Json) : Tree := .node (.mk (.metaMap [("cited", citedBy id), ("draft", .mk (.metaBool true))]))

theorem drafts_comparable {id : Json} (known : id.Comparable) :
    (draftFirst id).All (Codec.Hereditary.Carries Json.Comparable List.Nodup) ∧
      (draftLast id).All (Codec.Hereditary.Carries Json.Comparable List.Nodup) := by
  have held {P : Json → Prop} : ∀ j ∈ ([] : List Json), P j := fun _ member => absurd member List.not_mem_nil
  have childless {P : Node → Prop} : ∀ n ∈ ([] : List Node), P n := fun _ member => absurd member List.not_mem_nil
  have flag : Node.All (Codec.Hereditary.Carries Json.Comparable List.Nodup) (.mk (.metaBool true)) :=
    .mk ⟨held, fun _ slot => absurd slot List.not_mem_nil⟩ childless
  have cite : Node.All (Codec.Hereditary.Carries Json.Comparable List.Nodup) (citedBy id) := by
    refine .mk ⟨held, fun m slot => ?_⟩ (List.forall_mem_singleton.mpr (.mk ⟨?_, fun m slot => ?_⟩ childless))
    · cases List.mem_singleton.mp slot
    · have number := Json.comparable_int 0
      have mode := Json.comparable_hereditary.word "NormalCitation"
      exact List.forall_mem_cons.mpr ⟨known, List.forall_mem_cons.mpr ⟨mode,
        List.forall_mem_cons.mpr ⟨number, List.forall_mem_singleton.mpr number⟩⟩⟩
    · simp [Element.slots, Citation.sequences] at slot
  constructor
  · refine .mk ⟨held, fun m slot => ?_⟩ (List.forall_mem_cons.mpr ⟨flag, List.forall_mem_singleton.mpr cite⟩)
    cases List.mem_singleton.mp slot
    exact (by decide : (["draft", "cited"] : List Text).Nodup)
  · refine .mk ⟨held, fun m slot => ?_⟩ (List.forall_mem_cons.mpr ⟨cite, List.forall_mem_singleton.mpr flag⟩)
    cases List.mem_singleton.mp slot
    exact (by decide : (["cited", "draft"] : List Text).Nodup)

attribute [local instance] Versioning.ofClauses in
/-- A citation by number is the same as one by a truth value, and so is metadata in another order. -/
theorem reordered_same : ((draftFirst (.int 1)).Decoded ∧ (draftFirst (.int 1)).NanFree) ∧
    ((draftLast (.bool true)).Decoded ∧ (draftLast (.bool true)).NanFree) ∧
    (draftFirst (.int 1)).same (draftLast (.bool true)) = true ∧
    (∃ j k, Codec.encode (draftFirst (.int 1)) = .ok j ∧ Codec.encode (draftLast (.bool true)) = .ok k ∧
      ((draftFirst (.int 1)).same (draftLast (.bool true)) = true ↔ j.same k = true)) ∧
    (draftLast (.bool true)).same (draftFirst (.int 1)) = true := by
  have law := Json.comparable_hereditary
  have number := Json.comparable_int 1
  obtain ⟨first, -⟩ := drafts_comparable number
  obtain ⟨-, last⟩ := drafts_comparable (law.bool true)
  have free {t : Tree} (all : t.All (Codec.Hereditary.Carries Json.Comparable List.Nodup)) : t.NanFree :=
    Tree.All.and_imp (fun _ here _ j own => (here.1 j own).2) all all
  have decoded : (draftFirst (.int 1)).Decoded := ⟨.default, _, (law.treeJson first).1, rfl⟩
  have decoded' : (draftLast (.bool true)).Decoded := ⟨.default, _, (law.treeJson last).1, rfl⟩
  have same : (draftFirst (.int 1)).same (draftLast (.bool true)) = true := by decide
  obtain ⟨encodings, equivalence⟩ := Tree.same_iff_encodings_same
  refine ⟨⟨decoded, free first⟩, ⟨decoded', free last⟩, same, encodings _ _ decoded decoded', ?_⟩
  exact equivalence.symm (x := ⟨_, decoded, free first⟩) (y := ⟨_, decoded', free last⟩) same

end DocTree
