import DocTree.Text.Mapping
/-!
Lookups in mappings.
-/

namespace DocTree.Mapping

variable {α : Type} {key : Text} {m m' : Mapping α} {a : α}

theorem get?_mem (found : m.get? key = some a) : (key, a) ∈ m := by
  induction m with
  | nil => simp [get?] at found
  | cons entry rest ih =>
    obtain ⟨k, b⟩ := entry
    simp only [get?] at found
    split at found
    · next same =>
      obtain rfl := Option.some.inj found
      exact same ▸ List.mem_cons_self
    · exact List.mem_cons_of_mem _ (ih found)

theorem get?_perm (order : m.Perm m') (distinct : m.keys.Nodup) : m.get? key = m'.get? key := by
  induction order with
  | nil => rfl
  | cons entry _ ih =>
    obtain ⟨k, b⟩ := entry
    rw [get?, get?, ih (List.nodup_cons.mp distinct).2]
  | swap first second rest =>
    obtain ⟨k, b⟩ := first
    obtain ⟨k', b'⟩ := second
    have different : k' ≠ k := by
      rintro rfl
      exact (List.nodup_cons.mp distinct).1 List.mem_cons_self
    simp only [get?]
    split
    · next same =>
      subst same
      rw [if_neg (Ne.symm different)]
    · rfl
  | trans first _ ih ih' =>
    exact (ih distinct).trans (ih' ((first.map _).nodup_iff.mp distinct))

theorem get?_of_perm (order : m.Perm m') (distinct : m'.keys.Nodup) : m.get? key = m'.get? key :=
  (get?_perm order.symm distinct).symm

section

variable {settled later : Mapping α}

theorem get?_middle (fresh : key ∉ settled.keys) : get? key (settled ++ (key, a) :: later) = some a := by
  induction settled with
  | nil => simp [get?]
  | cons entry rest ih =>
    obtain ⟨other, b⟩ := entry
    obtain ⟨different, fresh⟩ := not_or.mp (mt List.mem_cons.mpr fresh)
    rw [List.cons_append, get?, if_neg (Ne.symm different)]
    exact ih fresh

theorem put_middle (fresh : key ∉ settled.keys) (b : α) :
    put key b (settled ++ (key, a) :: later) = settled ++ (key, b) :: later := by
  induction settled with
  | nil => simp [put]
  | cons entry rest ih =>
    obtain ⟨other, c⟩ := entry
    obtain ⟨different, fresh⟩ := not_or.mp (mt List.mem_cons.mpr fresh)
    rw [List.cons_append, put, if_neg (Ne.symm different), ih fresh]
    rfl

theorem erase_middle (fresh : key ∉ settled.keys) :
    erase key (settled ++ (key, a) :: later) = settled ++ later := by
  induction settled with
  | nil => simp [erase]
  | cons entry rest ih =>
    obtain ⟨other, c⟩ := entry
    obtain ⟨different, fresh⟩ := not_or.mp (mt List.mem_cons.mpr fresh)
    rw [List.cons_append, erase, if_neg (Ne.symm different), ih fresh]
    rfl

theorem fresh_of_nodup (distinct : (settled ++ (key, a) :: later).keys.Nodup) :
    key ∉ settled.keys := by
  unfold keys at distinct ⊢
  rw [List.map_append, List.nodup_append] at distinct
  intro member
  exact distinct.2.2 key member key List.mem_cons_self rfl

end

end DocTree.Mapping
