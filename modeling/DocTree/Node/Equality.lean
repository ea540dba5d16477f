import DocTree.Node.Basic
/-!
Equality of trees: the same kinds with equal fields. Mappings are compared without regard to order,
the ids of citations as JSON values, and widths as numbers.
-/

namespace DocTree

def sameLists {α β : Type} (same : α → β → Bool) : List α → List β → Bool
  | [], [] => true
  | a :: as, b :: bs => same a b && sameLists same as bs
  | _, _ => false

def sameOptions {α β : Type} (same : α → β → Bool) : Option α → Option β → Bool
  | none, none => true
  | some a, some b => same a b
  | _, _ => false

def sameMappings {α β : Type} (same : α → β → Bool) (m : Mapping α) (n : Mapping β) : Bool :=
  m.length == n.length && m.all fun (key, a) => (n.get? key).any (same a)

section

variable {S S' M M' : Type} (s : S → S' → Bool) (m : M → M' → Bool)

def Citation.same (c : Citation S) (d : Citation S') : Bool :=
  c.id.same d.id && s c.lead d.lead && s c.trail d.trail && c.mode == d.mode &&
    c.noteNum == d.noteNum && c.hash == d.hash

def Caption.same (c : Caption S) (d : Caption S') : Bool :=
  s c.long d.long && sameOptions s c.short d.short

def Column.same (c d : Column) : Bool :=
  c.alignment == d.alignment && sameOptions Binary64.same c.width d.width

def Cell.same (c : Cell S) (d : Cell S') : Bool :=
  s c.content d.content && c.alignment == d.alignment && c.rowSpan == d.rowSpan &&
    c.colSpan == d.colSpan && c.attr == d.attr

def Row.same (r : Row S) (q : Row S') : Bool :=
  sameLists (Cell.same s) r.cells q.cells && r.attr == q.attr

def RowGroup.same (g : RowGroup S) (h : RowGroup S') : Bool :=
  sameLists (Row.same s) g.rows h.rows && g.attr == h.attr

def Section.same (a : Section S) (b : Section S') : Bool :=
  sameLists (Row.same s) a.body b.body && sameLists (Row.same s) a.head b.head &&
    a.headColumns == b.headColumns && a.attr == b.attr

def Table.same (t : Table S) (u : Table S') : Bool :=
  RowGroup.same s t.head u.head && sameLists (Section.same s) t.sections u.sections &&
    RowGroup.same s t.foot u.foot && Caption.same s t.caption u.caption &&
    sameLists Column.same t.columns u.columns && t.attr == u.attr

def Definition.same (d : Definition S) (e : Definition S') : Bool :=
  s d.term e.term && sameLists s d.meanings e.meanings

def Element.same : Element S M → Element S' M' → Bool
  | .document v x b, .document v' x' b' => s b b' && m x x' && v == v'
  | .metaMap x, .metaMap x' => m x x'
  | .metaBool b, .metaBool b' => b == b'
  | .text k t, .text k' t' => k == k' && t == t'
  | .mark k, .mark k' => k == k'
  | .wrap k c, .wrap k' c' => k == k' && s c c'
  | .items k ps, .items k' ps' => k == k' && sameLists s ps ps'
  | .orderedList n ps, .orderedList n' ps' => sameLists s ps ps' && n == n'
  | .definitionList ds, .definitionList ds' => sameLists (Definition.same s) ds ds'
  | .header l a c, .header l' a' c' => l == l' && s c c' && a == a'
  | .table t, .table t' => Table.same s t t'
  | .figure a c b, .figure a' c' b' => s b b' && Caption.same s c c' && a == a'
  | .box k a c, .box k' a' c' => k == k' && s c c' && a == a'
  | .verbatim k a t, .verbatim k' a' t' => k == k' && t == t' && a == a'
  | .raw k f t, .raw k' f' t' => k == k' && f == f' && t == t'
  | .quoted q c, .quoted q' c' => q == q' && s c c'
  | .cite cs c, .cite cs' c' => sameLists (Citation.same s) cs cs' && s c c'
  | .math q t, .math q' t' => t == t' && q == q'
  | .target k a c u t, .target k' a' c' u' t' => k == k' && u == u' && s c c' && t == t' && a == a'
  | .list c, .list c' => s c c'
  | _, _ => false

end

namespace Node

/-- What an element with comparable children compares with. -/
def matchesShape (e : Element (List (Node → Bool)) (Mapping (Node → Bool))) (n : Node) : Bool :=
  e.same (sameLists fun p n => p n) (sameMappings fun p n => p n) n.element

def same (a b : Node) : Bool := a.fold matchesShape b

end Node

def Tree.same : Tree → Tree → Bool
  | .node a, .node b => a.same b
  | .list as, .list bs => sameLists Node.same as bs
  | _, _ => false

end DocTree
