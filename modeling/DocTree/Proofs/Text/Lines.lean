import DocTree.Proofs.Text.Bare
import DocTree.Text.Quoted
/-!
Texts that stay on one line. Whatever a text holds, what is quoted of it does.
-/

namespace DocTree

def CodePoint.breaksLine (c : CodePoint) : Bool := c.val == 0x0A || c.val == 0x0D

namespace Text

def OneLine (t : Text) : Prop := ∀ c ∈ t, c.breaksLine = false

variable {t u : Text} {c quote : CodePoint}

instance (t : Text) : Decidable t.OneLine :=
  decidable_of_iff (t.all fun c => !c.breaksLine) (by simp [OneLine])

theorem oneLine_nil : OneLine [] := fun _ member => nomatch member

@[simp] theorem oneLine_cons : OneLine (c :: t) ↔ c.breaksLine = false ∧ t.OneLine := List.forall_mem_cons

@[simp] theorem oneLine_append : OneLine (t ++ u) ↔ t.OneLine ∧ u.OneLine := List.forall_mem_append

theorem oneLine_copies (count : Nat) (plain : t.OneLine) : (copies count t).OneLine :=
  fun c member => plain c (mem_copies member)

theorem OneLine.noFeed (plain : t.OneLine) : CodePoint.ofChar '\n' ∉ t :=
  fun member => absurd (plain _ member) (by decide)

theorem OneLine.noReturn (plain : t.OneLine) : CodePoint.ofChar '\r' ∉ t :=
  fun member => absurd (plain _ member) (by decide)

theorem oneLine_iff : t.OneLine ↔ CodePoint.ofChar '\n' ∉ t ∧ CodePoint.ofChar '\r' ∉ t := by
  refine ⟨fun plain => ⟨plain.noFeed, plain.noReturn⟩, fun ⟨noFeed, noReturn⟩ c member => ?_⟩
  have feed : c ≠ CodePoint.ofChar '\n' := fun same => noFeed (same ▸ member)
  have back : c ≠ CodePoint.ofChar '\r' := fun same => noReturn (same ▸ member)
  simpa [CodePoint.breaksLine] using
    (⟨fun same => feed (Fin.ext same), fun same => back (Fin.ext same)⟩ : c.val ≠ 0x0A ∧ c.val ≠ 0x0D)

theorem Bare.oneLine (bare : t.Bare) : t.OneLine := by
  intro c member
  have visible := bare c member
  simp only [CodePoint.breaksLine, Bool.or_eq_false_iff, beq_eq_false_iff_ne]
  omega

theorem bare_numericEscape (c : CodePoint) : (numericEscape c).Bare := by
  unfold numericEscape
  split
  · exact bare_append.mpr ⟨by decide, bare_hex 2 c.val⟩
  · split
    · exact bare_append.mpr ⟨by decide, bare_hex 4 c.val⟩
    · exact bare_append.mpr ⟨by decide, bare_hex 8 c.val⟩

theorem oneLine_escapeFor (plain : quote.breaksLine = false) (c : CodePoint) : (escapeFor quote c).OneLine := by
  unfold escapeFor
  split
  · next marked =>
    rcases marked with rfl | rfl
    · exact oneLine_cons.mpr ⟨by decide, oneLine_cons.mpr ⟨plain, oneLine_nil⟩⟩
    · decide
  split
  · decide
  · next notFeed =>
    split
    · decide
    · next notReturn =>
      split
      · decide
      · split
        · simp [CodePoint.breaksLine, notFeed, notReturn, oneLine_nil]
        · exact (bare_numericEscape c).oneLine

theorem oneLine_quoted (t : Text) : t.quoted.OneLine := by
  have plain : (quoteMark t).breaksLine = false := by
    unfold quoteMark
    split
    · decide
    · decide
  refine oneLine_cons.mpr ⟨plain, oneLine_append.mpr ⟨fun c member => ?_, oneLine_cons.mpr ⟨plain, oneLine_nil⟩⟩⟩
  obtain ⟨d, _, inside⟩ := List.mem_flatMap.mp member
  exact oneLine_escapeFor plain d c inside

end Text

end DocTree
