import DocTree.Filter.Build
import DocTree.Proofs.Codec.RoundTrip
import DocTree.Proofs.Text.Pieces
/-!
Keys of actions: the names of some kinds with bars between them. A key is taken apart into the names that it
was made of, and a name belongs to one kind only.
-/

namespace DocTree

namespace Kind

theorem name_plain (kind : Kind) : CodePoint.ofChar '|' ∉ kind.name ∧ kind.name ≠ [] := by
  cases kind <;> decide

theorem ofName?_outer : ofName? document.name = none ∧ ofName? list.name = none ∧ document.name ≠ list.name := by
  decide

theorem name_injective {kind other : Kind} (same : kind.name = other.name) : kind = other := by
  obtain ⟨document, list, different⟩ := ofName?_outer
  -- Only the document and the list are not found by their names.
  have found : ∀ kind : Kind, kind = .document ∨ kind = .list ∨ ofName? kind.name = some kind := by
    intro kind
    by_cases isDocument : kind = .document
    · exact .inl isDocument
    by_cases isList : kind = .list
    · exact .inr (.inl isList)
    · exact .inr (.inr (Codec.ofName?_name isDocument isList))
  rcases found kind with rfl | rfl | known <;> rcases found other with rfl | rfl | known' <;>
    simp_all

end Kind

def keyOf (kinds : List Kind) : Text := Text.joinWith "|" (kinds.map Kind.name)

theorem kindsOf_keyOf {kinds : List Kind} (some : kinds ≠ []) : kindsOf (keyOf kinds) = kinds.map Kind.name := by
  refine Text.splitOn_joinWith (by simpa using some) fun t member => ?_
  obtain ⟨kind, _, rfl⟩ := List.mem_map.mp member
  exact kind.name_plain.1

theorem contains_keyOf {kinds : List Kind} (some : kinds ≠ []) (kind : Kind) :
    (kindsOf (keyOf kinds)).contains kind.name = decide (kind ∈ kinds) := by
  rw [kindsOf_keyOf some, Bool.eq_iff_iff, List.contains_iff_mem, decide_eq_true_iff]
  refine ⟨fun member => ?_, List.mem_map_of_mem⟩
  obtain ⟨other, inside, same⟩ := List.mem_map.mp member
  exact Kind.name_injective same ▸ inside

theorem keyOf_named {kinds : List Kind} (some : kinds ≠ []) : (kindsOf (keyOf kinds)).contains [] = false := by
  rw [kindsOf_keyOf some]
  simp only [List.contains_eq_mem, List.mem_map, decide_eq_false_iff_not, not_exists, not_and]
  exact fun kind _ => kind.name_plain.2

namespace Filter

variable {β : Type}

theorem bind_keyOf {kinds : List Kind} (some : kinds ≠ []) {function : Value β} {h : Handler β}
    (callable : function.callable? = .some h) (warnings : List Text) :
    ((bind (.text (keyOf kinds)) function).run warnings).1 = .ok (.bound (keyOf kinds) h) := by
  simp only [bind, keyOf_named some, callable]
  by_cases known : (unknownKinds (keyOf kinds)).isEmpty = true
  · simp [known]
    rfl
  · simp [known]
    rfl

theorem unknownKinds_keyOf {kinds : List Kind} (some : kinds ≠ [])
    (inner : ∀ kind ∈ kinds, kind ≠ .document ∧ kind ≠ .list) : unknownKinds (keyOf kinds) = [] := by
  have none : (kinds.map Kind.name).filter (fun name => (Kind.ofName? name).isNone) = [] := by
    refine List.filter_eq_nil_iff.mpr fun name member => ?_
    obtain ⟨kind, inside, rfl⟩ := List.mem_map.mp member
    obtain ⟨notDocument, notList⟩ := inner kind inside
    simp [Codec.ofName?_name notDocument notList]
  rw [unknownKinds, kindsOf_keyOf some, none]
  simp [sortedOnce]

theorem bind_known {kinds : List Kind} (some : kinds ≠ [])
    (inner : ∀ kind ∈ kinds, kind ≠ .document ∧ kind ≠ .list) {function : Value β} {h : Handler β}
    (callable : function.callable? = .some h) :
    bind (.text (keyOf kinds)) function = (return .bound (keyOf kinds) h : Building β (Handler β)) := by
  simp only [bind, keyOf_named some, callable, unknownKinds_keyOf some inner]
  rfl

end Filter

end DocTree
