import DocTree.Proofs.Node.Rewritten
import Mathlib.Data.List.Basic
/-!
Trees without superscripts and subscripts, in which every header below the first level is a paragraph with
its content emphasised: as one recursion, and as one for the headers and another one for the rest.
-/

namespace DocTree

def Element.deepHeading? {S M : Type} : Element S M → Option S
  | header level _ content => if level < 2 then none else some content
  | _ => none

namespace Element

variable {S S' M M' : Type}

theorem deepHeading?_eq_some {e : Element S M} {content : S} :
    e.deepHeading? = some content ↔ ∃ level attr, 2 ≤ level ∧ e = .header level attr content := by
  constructor
  · intro h
    unfold deepHeading? at h
    split at h
    · split at h
      · cases h
      · next deep =>
        cases h
        exact ⟨_, _, Int.not_lt.mp deep, rfl⟩
    · cases h
  · rintro ⟨level, attr, deep, rfl⟩
    exact if_neg (Int.not_lt.mpr deep)

theorem kind_eq_header {e : Element S M} :
    e.kind = .header ↔ ∃ level attr content, e = .header level attr content := by
  cases e with
  | wrap kind | text kind | mark kind | items kind | box kind | verbatim kind | raw kind | target kind =>
    cases kind <;> simp [kind, TextKind.kind, MarkKind.kind, WrapKind.kind, ItemsKind.kind, BoxKind.kind,
      VerbatimKind.kind, RawKind.kind, TargetKind.kind]
  | _ => simp [kind]

theorem deepHeading?_of_kind {e : Element S M} (other : e.kind ≠ .header) : e.deepHeading? = none := by
  cases heading : e.deepHeading? with
  | none => rfl
  | some content =>
    obtain ⟨level, attr, _, element⟩ := deepHeading?_eq_some.mp heading
    exact absurd (kind_eq_header.mpr ⟨level, attr, content, element⟩) other

@[simp] theorem deepHeading?_map (f : S → S') (g : M → M') (e : Element S M) :
    (e.map f g).deepHeading? = e.deepHeading?.map f := by
  cases e with
  | header level attr content =>
    simp only [map, deepHeading?]
    split <;> rfl
  | _ => rfl

end Element

def scripts : List Kind := [.superscript, .subscript]

namespace Node

variable {settle : Element (List Node) (Mapping Node) → List Node} {f g : Node → List Node}
  {e : Element (List Node) (Mapping Node)}

/-- From the leaves up, every element gives way to some nodes, of which a function says what they are when
its own members have given way. -/
def rebuilt (settle : Element (List Node) (Mapping Node) → List Node) (n : Node) : List Node :=
  n.fold fun e => settle (e.map List.flatten (·.flatMap fun (key, ns) => ns.map (key, ·)))

theorem rebuilt_mk : (mk e).rebuilt settle = settle (expand (rebuilt settle) e) := by
  rw [rebuilt, fold_mapChildren, Element.mapChildren, Element.map_map]
  simp only [Function.comp_def, List.flatMap_map]
  rfl

@[simp] theorem deepHeading?_expand (placed : Node → List Node) (e : Element (List Node) (Mapping Node)) :
    (expand placed e).deepHeading? = e.deepHeading?.map (·.flatMap placed) :=
  Element.deepHeading?_map _ _ e

theorem expand_expand : expand g (expand f e) = expand (fun n => (f n).flatMap g) e := by
  rw [expand, expand, expand, Element.map_map]
  simp only [Function.comp_def, List.flatMap_assoc, List.flatMap_map, List.map_flatMap]

theorem expand_congr (named : e.kind ≠ .list) (same : ∀ n ∈ e.children, f n = g n) :
    expand f e = expand g e := by
  refine Element.map_congr named (fun ns slot => ?_) fun entries slot => ?_
  · exact List.flatMap_congr fun n member => same n (Element.sequence_children slot member)
  · refine List.flatMap_congr fun (key, n) member => ?_
    exact congrArg (List.map (key, ·)) (same n (Element.mapping_children slot member))

def emphasisedPara (content : List Node) : Node := mk (.wrap .para [mk (.wrap .emph content)])

/-- What a header below the first level gives way to; everything else stays. -/
def settleHeading (e : Element (List Node) (Mapping Node)) : List Node :=
  match e.deepHeading? with
  | some content => [emphasisedPara content]
  | none => [mk e]

def settleScript (e : Element (List Node) (Mapping Node)) : List Node :=
  if e.kind ∈ scripts then [] else [mk e]

def settleBoth (e : Element (List Node) (Mapping Node)) : List Node :=
  match e.deepHeading? with
  | some content => [emphasisedPara content]
  | none => settleScript e

/-- Headers below the first level give way to paragraphs. -/
def lowered : Node → List Node := rebuilt settleHeading

def unscripted : Node → List Node := rebuilt settleScript

def flattened : Node → List Node := rebuilt settleBoth

theorem flattened_mk : (mk e).flattened = match e.deepHeading? with
    | some content => [emphasisedPara (content.flatMap flattened)]
    | none => if e.kind ∈ scripts then [] else [mk (expand flattened e)] := by
  have settled : (mk e).flattened = settleBoth (expand flattened e) := rebuilt_mk
  rw [settled, settleBoth, deepHeading?_expand, settleScript, kind_expand]
  cases e.deepHeading? <;> rfl

theorem rebuilt_emphasisedPara {content : List Node}
    (para : ∀ ns, settle (.wrap .para ns) = [mk (.wrap .para ns)])
    (emph : ∀ ns, settle (.wrap .emph ns) = [mk (.wrap .emph ns)]) :
    (emphasisedPara content).rebuilt settle = [emphasisedPara (content.flatMap (rebuilt settle))] := by
  have inner : (mk (.wrap .emph content)).rebuilt settle =
      [mk (.wrap .emph (content.flatMap (rebuilt settle)))] := by
    rw [rebuilt_mk]
    exact emph _
  rw [emphasisedPara, rebuilt_mk]
  change settle (.wrap .para ([mk (.wrap .emph content)].flatMap (rebuilt settle))) = _
  rw [para, List.flatMap_singleton, inner]
  rfl

def lowerings (n : Node) : List Node :=
  match n.element.deepHeading? with
  | some content => [emphasisedPara content]
  | none => [n]

theorem lowered_eq (n : Node) : n.lowered = n.lowerings.map (expanded lowered) := by
  obtain ⟨e⟩ := n
  rw [lowered, rebuilt_mk, settleHeading, deepHeading?_expand, lowerings, element]
  cases e.deepHeading? with
  | none => rfl
  | some content =>
    -- A paragraph stays where it is, so that what becomes of it is all that is below.
    have para : (emphasisedPara content).rebuilt settleHeading = [(emphasisedPara content).expanded lowered] :=
      rebuilt_mk
    exact (rebuilt_emphasisedPara (fun _ => rfl) fun _ => rfl).symm.trans para

theorem unscripted_eq (n : Node) :
    n.unscripted = (if n.element.kind ∈ scripts then [] else [n]).map (expanded unscripted) := by
  obtain ⟨e⟩ := n
  rw [unscripted, rebuilt_mk, settleScript, kind_expand, element]
  split <;> rfl

/-- The two recursions one after the other do what the one does. -/
theorem flatMap_lowered {n : Node} (proper : n.Proper) : n.lowered.flatMap unscripted = n.flattened := by
  induction proper with
  | @mk e _ named _ ih =>
    -- Lowering leaves no header that is deep, so the second recursion meets emphasised paragraphs instead.
    rw [lowered, rebuilt_mk, settleHeading, flattened, rebuilt_mk, settleBoth, deepHeading?_expand,
      deepHeading?_expand]
    cases content : e.deepHeading? with
    | none =>
      have inside : expand unscripted (expand lowered e) = expand flattened e :=
        expand_expand.trans (expand_congr named ih)
      change [mk (expand lowered e)].flatMap unscripted = settleScript (expand flattened e)
      rw [List.flatMap_singleton, unscripted, rebuilt_mk]
      exact congrArg settleScript inside
    | some ns =>
      obtain ⟨level, attr, _, rfl⟩ := Element.deepHeading?_eq_some.mp content
      have inside : (ns.flatMap lowered).flatMap unscripted = ns.flatMap flattened := by
        rw [List.flatMap_assoc]
        exact List.flatMap_congr fun n member => ih n (Element.sequence_children List.mem_cons_self member)
      change [emphasisedPara (ns.flatMap lowered)].flatMap unscripted = [emphasisedPara (ns.flatMap flattened)]
      rw [List.flatMap_singleton, unscripted, rebuilt_emphasisedPara (fun _ => rfl) fun _ => rfl, ← inside]
      rfl

/-- Neither a header below the first level nor a superscript nor a subscript. -/
def Flat (n : Node) : Prop := n.element.deepHeading? = none ∧ n.element.kind ∉ scripts

theorem flat_of_flattened (n : Node) : ∀ m ∈ n.flattened, ∀ x : Node, x.Occurs m → x.Flat := by
  induction n using Node.induction with
  | step e ih =>
    -- What is in the new nodes comes from the children, but for the paragraph and its emphasis.
    have inside : ∀ m ∈ e.children.flatMap flattened, ∀ x : Node, x.Occurs m → x.Flat := by
      intro m child
      obtain ⟨n, before, placed⟩ := List.mem_flatMap.mp child
      exact ih n before m placed
    intro m placed x found
    rw [flattened_mk] at placed
    cases heading : e.deepHeading? with
    | none =>
      by_cases script : e.kind ∈ scripts
      · simp [heading, script] at placed
      obtain rfl : m = mk (expand flattened e) := by simpa [heading, script] using placed
      rcases occurs_mk.mp found with rfl | ⟨m, child, deeper⟩
      · exact ⟨by simp [element, heading], by simpa [element] using script⟩
      · exact inside m (children_expand flattened e ▸ child) x deeper
    | some ns =>
      obtain ⟨level, attr, _, rfl⟩ := Element.deepHeading?_eq_some.mp heading
      obtain rfl : m = emphasisedPara (ns.flatMap flattened) := by simpa [heading] using placed
      have para : Kind.para ∉ scripts := by decide
      have emph : Kind.emph ∉ scripts := by decide
      rcases occurs_mk.mp found with rfl | ⟨m, child, deeper⟩
      · exact ⟨rfl, para⟩
      obtain rfl := List.mem_singleton.mp child
      rcases occurs_mk.mp deeper with rfl | ⟨m, child, deeper⟩
      · exact ⟨rfl, emph⟩
      · exact inside m (by simpa [Element.children, Element.slots, members] using child) x deeper

end Node

namespace Tree

variable {t : Tree}

theorem expanded_expanded (f g : Node → List Node) (t : Tree) :
    (t.expanded f).expanded g = t.expanded fun n => (f n).flatMap g := by
  cases t with
  | node n =>
    obtain ⟨e⟩ := n
    exact congrArg (fun e => node (.mk e)) Node.expand_expand
  | list ns => exact congrArg list List.flatMap_assoc

theorem expanded_congr {f g : Node → List Node} (named : ∀ n, t = .node n → n.element.kind ≠ .list)
    (same : ∀ n ∈ t.top, f n = g n) : t.expanded f = t.expanded g := by
  cases t with
  | node n =>
    obtain ⟨e⟩ := n
    exact congrArg (fun e => node (.mk e)) (Node.expand_congr (named _ rfl) same)
  | list ns => exact congrArg list (List.flatMap_congr same)

/-- A tree below whose root there are no superscripts and subscripts, and no headers below the first level,
which have become paragraphs. -/
def flattened (t : Tree) : Tree := t.expanded Node.flattened

theorem flattened_eq (proper : t.Proper) : (t.expanded Node.lowered).expanded Node.unscripted = t.flattened := by
  rw [expanded_expanded]
  refine expanded_congr ?_ fun n atTop => Node.flatMap_lowered ?_
  · rintro ⟨e⟩ rfl
    exact proper.1
  · cases t with
    | node top =>
      obtain ⟨e⟩ := top
      exact proper.2 n atTop
    | list ns => exact proper n atTop

theorem flat_of_flattened {x : Node} (held : t.flattened.Holds x) : x.Flat := by
  obtain ⟨m, atTop, found⟩ := held
  rw [flattened, top_expanded] at atTop
  obtain ⟨n, _, placed⟩ := List.mem_flatMap.mp atTop
  exact n.flat_of_flattened m placed x found

end Tree

end DocTree
