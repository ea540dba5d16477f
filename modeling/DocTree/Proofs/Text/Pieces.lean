import DocTree.Text.Basic
/-!
Texts that are taken apart at a mark. The pieces have no mark in them, and make up the text again with the
marks between them.
-/

namespace DocTree.Text

variable {mark : CodePoint} {t rest : Text} {pieces : List Text}

theorem splitOn_ne_nil (mark : CodePoint) (t : Text) : t.splitOn mark ≠ [] := by
  cases t with
  | nil => exact List.cons_ne_nil _ _
  | cons c rest =>
    rw [splitOn]
    split
    · exact List.cons_ne_nil _ _
    · split <;> exact List.cons_ne_nil _ _

theorem splitOn_append (t rest : Text) :
    (t ++ mark :: rest).splitOn mark = t.splitOn mark ++ rest.splitOn mark := by
  induction t with
  | nil => exact if_pos rfl
  | cons c t ih =>
    rw [List.cons_append, splitOn, ih, splitOn]
    split
    · rfl
    · obtain ⟨piece, pieces, eq⟩ := List.exists_cons_of_ne_nil (splitOn_ne_nil mark t)
      rw [eq]
      rfl

theorem splitOn_free (free : mark ∉ t) : t.splitOn mark = [t] := by
  induction t with
  | nil => rfl
  | cons c t ih =>
    obtain ⟨other, free⟩ := not_or.mp (mt List.mem_cons.mpr free)
    rw [splitOn, if_neg (Ne.symm other), ih free]

theorem splitOn_joinWith (some : pieces ≠ []) (free : ∀ t ∈ pieces, mark ∉ t) :
    (joinWith [mark] pieces).splitOn mark = pieces := by
  induction pieces with
  | nil => exact absurd rfl some
  | cons t pieces ih =>
    have first := free t List.mem_cons_self
    cases pieces with
    | nil => exact splitOn_free first
    | cons u pieces =>
      have later := ih (List.cons_ne_nil _ _) fun t member => free t (List.mem_cons_of_mem _ member)
      rw [joinWith, List.append_assoc, List.singleton_append, splitOn_append, splitOn_free first, later]
      rfl

theorem joinWith_cons {separator t : Text} {pieces : List Text} (more : pieces ≠ []) :
    joinWith separator (t :: pieces) = t ++ separator ++ joinWith separator pieces := by
  cases pieces with
  | nil => exact absurd rfl more
  | cons u rest => rfl

/-- The pieces of a text have no mark in them, and make up the text with the marks between them. -/
theorem splitOn_pieces (mark : CodePoint) (t : Text) :
    (∀ piece ∈ t.splitOn mark, mark ∉ piece) ∧ joinWith [mark] (t.splitOn mark) = t := by
  induction t with
  | nil => exact ⟨by simp [splitOn], rfl⟩
  | cons c rest ih =>
    obtain ⟨free, joined⟩ := ih
    have some := splitOn_ne_nil mark rest
    rw [splitOn]
    split
    · next same =>
      subst same
      refine ⟨List.forall_mem_cons.mpr ⟨List.not_mem_nil, free⟩, ?_⟩
      rw [joinWith_cons some, joined]
      rfl
    · next other =>
      generalize splitOn mark rest = pieces at free joined some
      cases pieces with
      | nil => exact absurd rfl some
      | cons piece pieces =>
        obtain ⟨first, later⟩ := List.forall_mem_cons.mp free
        refine ⟨List.forall_mem_cons.mpr ⟨?_, later⟩, ?_⟩
        · exact fun member => (List.mem_cons.mp member).elim (fun same => other same.symm) first
        · rw [← joined]
          cases pieces <;> rfl

end DocTree.Text
