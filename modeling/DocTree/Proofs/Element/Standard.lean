import DocTree.Element.Basic
/-!
Elements whose enumerations have one of their constructors, and whose citations have texts as ids. No
constructor is the name of a kind.
-/

namespace DocTree

def quoteTypes : List Text := ["SingleQuote", "DoubleQuote"]

def mathTypes : List Text := ["DisplayMath", "InlineMath"]

def citationModes : List Text := ["AuthorInText", "SuppressAuthor", "NormalCitation"]

def numberStyles : List Text :=
  ["DefaultStyle", "Example", "Decimal", "LowerRoman", "UpperRoman", "LowerAlpha", "UpperAlpha"]

def numberDelimiters : List Text := ["DefaultDelim", "Period", "OneParen", "TwoParens"]

def alignments : List Text := ["AlignLeft", "AlignRight", "AlignCenter", "AlignDefault"]

def constructors : List Text :=
  quoteTypes ++ mathTypes ++ citationModes ++ numberStyles ++ numberDelimiters ++ alignments

theorem ofName?_constructor : ∀ t ∈ constructors, Kind.ofName? t = none := by decide

section

variable {S S' M M' : Type}

def Citation.Standard (c : Citation S) : Prop := (∃ t, c.id = .str t) ∧ c.mode ∈ citationModes

def Row.Standard (r : Row S) : Prop := ∀ c ∈ r.cells, c.alignment ∈ alignments

def Table.rows (t : Table S) : List (Row S) :=
  t.head.rows ++ t.sections.flatMap (fun part => part.head ++ part.body) ++ t.foot.rows

def Table.Standard (t : Table S) : Prop :=
  (∀ c ∈ t.columns, c.alignment ∈ alignments) ∧ ∀ r ∈ t.rows, r.Standard

def Element.Standard : Element S M → Prop
  | .orderedList numbering _ =>
    numbering.style ∈ numberStyles ∧ numbering.delimiter ∈ numberDelimiters
  | .table t => t.Standard
  | .quoted style _ => style ∈ quoteTypes
  | .cite citations _ => ∀ c ∈ citations, c.Standard
  | .math style _ => style ∈ mathTypes
  | _ => True

theorem Row.Standard.map {r : Row S} (h : r.Standard) (f : S → S') : (r.map f).Standard := by
  intro c member
  obtain ⟨c, inside, rfl⟩ := List.mem_map.mp member
  exact h c inside

theorem Table.rows_map (t : Table S) (f : S → S') : (t.map f).rows = t.rows.map (·.map f) := by
  simp only [rows, Table.map, RowGroup.map, Section.map, List.map_append, List.map_flatMap,
    List.flatMap_map]

theorem Table.Standard.map {t : Table S} (h : t.Standard) (f : S → S') : (t.map f).Standard := by
  refine ⟨h.1, fun r member => ?_⟩
  rw [rows_map] at member
  obtain ⟨r, inside, rfl⟩ := List.mem_map.mp member
  exact (h.2 r inside).map f

theorem Element.Standard.map {e : Element S M} (h : e.Standard) (f : S → S') (g : M → M') :
    (e.map f g).Standard := by
  cases e with
  | table t => exact Table.Standard.map h f
  | cite citations content =>
    intro c member
    obtain ⟨c, inside, rfl⟩ := List.mem_map.mp member
    exact h c inside
  | _ => exact h

end

end DocTree
