import DocTree.Element.Basic
/-!
The containers of an element, whatever they are: the laws of `map` and `slots`, and what a traversal
yields if it is known what it yields at each container.
-/

namespace DocTree

section

variable {S T U M N O : Type}

@[simp] theorem citation_map_id (c : Citation S) : c.map id = c := rfl

@[simp] theorem Citation.map_map (f : S → T) (g : T → U) (c : Citation S) :
    (c.map f).map g = c.map (g ∘ f) := rfl

@[simp] theorem Caption.map_id (c : Caption S) : c.map id = c := by
  simp [Caption.map]

@[simp] theorem Caption.map_map (f : S → T) (g : T → U) (c : Caption S) :
    (c.map f).map g = c.map (g ∘ f) := by
  simp [Caption.map]

@[simp] theorem Cell.map_id (c : Cell S) : c.map id = c := rfl

@[simp] theorem Cell.map_map (f : S → T) (g : T → U) (c : Cell S) :
    (c.map f).map g = c.map (g ∘ f) := rfl

@[simp] theorem Row.map_id (r : Row S) : r.map id = r := by
  simp [Row.map]

@[simp] theorem Row.map_map (f : S → T) (g : T → U) (r : Row S) :
    (r.map f).map g = r.map (g ∘ f) := by
  simp [Row.map]

@[simp] theorem RowGroup.map_id (g : RowGroup S) : g.map id = g := by
  simp [RowGroup.map]

@[simp] theorem RowGroup.map_map (f : S → T) (g : T → U) (r : RowGroup S) :
    (r.map f).map g = r.map (g ∘ f) := by
  simp [RowGroup.map]

@[simp] theorem Section.map_id (s : Section S) : s.map id = s := by
  simp [Section.map]

@[simp] theorem Section.map_map (f : S → T) (g : T → U) (s : Section S) :
    (s.map f).map g = s.map (g ∘ f) := by
  simp [Section.map]

@[simp] theorem Table.map_id (t : Table S) : t.map id = t := by
  simp [Table.map]

@[simp] theorem Table.map_map (f : S → T) (g : T → U) (t : Table S) :
    (t.map f).map g = t.map (g ∘ f) := by
  simp [Table.map]

@[simp] theorem Definition.map_id (d : Definition S) : d.map id = d := by
  simp [Definition.map]

@[simp] theorem Definition.map_map (f : S → T) (g : T → U) (d : Definition S) :
    (d.map f).map g = d.map (g ∘ f) := by
  simp [Definition.map]

namespace Element

@[simp] theorem map_id (e : Element S M) : e.map id id = e := by
  cases e <;> simp [Element.map]

@[simp] theorem map_map (f : S → T) (f' : T → U) (g : M → N) (g' : N → O) (e : Element S M) :
    (e.map f g).map f' g' = e.map (f' ∘ f) (g' ∘ g) := by
  cases e <;> simp [Element.map]

@[simp] theorem kind_map (f : S → T) (g : M → N) (e : Element S M) : (e.map f g).kind = e.kind := by
  cases e <;> rfl

end Element

def Slot.map (f : S → T) (g : M → N) : Slot S M → Slot T N
  | .sequence s => .sequence (f s)
  | .mapping m => .mapping (g m)

@[simp] theorem Citation.sequences_map (f : S → T) (c : Citation S) :
    (c.map f).sequences = c.sequences.map f := rfl

@[simp] theorem Caption.sequences_map (f : S → T) (c : Caption S) :
    (c.map f).sequences = c.sequences.map f := by
  cases short : c.short <;> simp [Caption.sequences, Caption.map, short]

@[simp] theorem Row.sequences_map (f : S → T) (r : Row S) :
    (r.map f).sequences = r.sequences.map f := by
  simp [Row.sequences, Row.map, Cell.map, Function.comp_def]

@[simp] theorem RowGroup.sequences_map (f : S → T) (g : RowGroup S) :
    (g.map f).sequences = g.sequences.map f := by
  simp [RowGroup.sequences, RowGroup.map, List.flatMap_map, List.map_flatMap]

@[simp] theorem Section.sequences_map (f : S → T) (s : Section S) :
    (s.map f).sequences = s.sequences.map f := by
  simp [Section.sequences, Section.map, List.flatMap_map, List.map_flatMap]

@[simp] theorem Table.sequences_map (f : S → T) (t : Table S) :
    (t.map f).sequences = t.sequences.map f := by
  simp [Table.sequences, Table.map, List.flatMap_map, List.map_flatMap]

@[simp] theorem Definition.sequences_map (f : S → T) (d : Definition S) :
    (d.map f).sequences = d.sequences.map f := by
  simp [Definition.sequences, Definition.map]

theorem Element.slots_map (f : S → T) (g : M → N) (e : Element S M) :
    (e.map f g).slots = e.slots.map (Slot.map f g) := by
  cases e <;>
    simp [Element.map, Element.slots, Slot.map, List.flatMap_map, List.map_flatMap, Function.comp_def]

end

/-- A way to say what computations yield, as it shows in worlds of some sort. -/
structure Account (m : Type → Type) [Monad m] (ω : Type) where
  Yields : {α : Type} → m α → (ω → α → Prop) → Prop
  pure : ∀ {α : Type} {a : α} {Q : ω → α → Prop}, (∀ w, Q w a) → Yields (Pure.pure a) Q
  bind : ∀ {α β : Type} {x : m α} {f : α → m β} {Q : ω → α → Prop} {Q' : ω → β → Prop},
    Yields x Q → (∀ a, Yields (f a) fun w b => Q w a → Q' w b) → Yields (x >>= f) Q'

section

variable {m : Type → Type} [Monad m] {ω : Type} {L : Account m ω}
  {S S' T T' M M' N N' : Type} {F : S → T} {f : T → m T'} {r : ω → T' → S'} {v : S → S'}
  {G : M → N} {g : N → m N'} {r' : ω → N' → M'} {v' : M → M'}

theorem Account.both {α β : Type} {x : m α} {y : m β} {Q : ω → α → Prop} {Q' : ω → β → Prop}
    (first : L.Yields x Q) (second : L.Yields y Q') (order : Order) :
    L.Yields (order.both x y) fun w p => Q w p.1 ∧ Q' w p.2 := by
  cases order with
  | written => exact L.bind first fun _ => L.bind second fun _ => L.pure fun _ h' h => ⟨h, h'⟩
  | decoded => exact L.bind second fun _ => L.bind first fun _ => L.pure fun _ h h' => ⟨h, h'⟩

theorem Citation.yields {c : Citation S}
    (known : ∀ s ∈ c.sequences, L.Yields (f (F s)) fun w t => r w t = v s) :
    L.Yields ((c.map F).traverse f) fun w d => d.map (r w) = c.map v := by
  refine L.bind (known c.lead (by simp [sequences])) fun lead =>
    L.bind (known c.trail (by simp [sequences])) fun trail => L.pure ?_
  intro w atTrail atLead
  simp [Citation.map, atTrail, atLead]

theorem Cell.yields {c : Cell S} (known : L.Yields (f (F c.content)) fun w t => r w t = v c.content) :
    L.Yields ((c.map F).traverse f) fun w d => d.map (r w) = c.map v := by
  refine L.bind known fun content => L.pure ?_
  intro w content
  simp [Cell.map, content]

variable [LawfulMonad m]

theorem Account.map {α β : Type} {x : m α} {h : α → β} {Q : ω → α → Prop} {Q' : ω → β → Prop}
    (known : L.Yields x Q) (implies : ∀ w a, Q w a → Q' w (h a)) : L.Yields (h <$> x) Q' := by
  rw [← bind_pure_comp]
  exact L.bind known fun a => L.pure fun w h => implies w a h

theorem Account.imp {α : Type} {x : m α} {Q Q' : ω → α → Prop} (known : L.Yields x Q)
    (implies : ∀ w a, Q w a → Q' w a) : L.Yields x Q' := by
  rw [← id_map x]
  exact L.map known implies

theorem Account.mapM {α β γ δ : Type} {H : α → β} {h : β → m γ} {read : ω → γ → δ} {is : α → δ}
    {l : List α} (known : ∀ a ∈ l, L.Yields (h (H a)) fun w c => read w c = is a) :
    L.Yields ((l.map H).mapM h) fun w cs => cs.map (read w) = l.map is := by
  induction l with
  | nil => exact L.pure fun _ => rfl
  | cons a rest ih =>
    rw [List.map_cons, List.mapM_cons]
    have later := ih fun b member => known b (List.mem_cons_of_mem _ member)
    refine L.bind (known a List.mem_cons_self) fun b => L.bind later fun bs => L.pure ?_
    intro w tail head
    rw [List.map_cons, List.map_cons, head, tail]

theorem Caption.yields (order : Order) {c : Caption S}
    (known : ∀ s ∈ c.sequences, L.Yields (f (F s)) fun w t => r w t = v s) :
    L.Yields ((c.map F).traverse order f) fun w d => d.map (r w) = c.map v := by
  obtain ⟨long, short⟩ := c
  have atLong := known long (by simp [sequences])
  refine L.bind (L.both (?atShort : L.Yields _ fun w s => s.map (r w) = short.map v) atLong order) fun _ => L.pure ?_
  case atShort =>
    cases short with
    | none => exact L.pure fun _ => rfl
    | some short =>
      exact L.map (known short (by simp [sequences])) fun w s h => by rw [Option.map_some, h, Option.map_some]
  rintro w ⟨short, long⟩
  simp [Caption.map, long, short]

theorem Row.yields {row : Row S}
    (known : ∀ s ∈ row.sequences, L.Yields (f (F s)) fun w t => r w t = v s) :
    L.Yields ((row.map F).traverse f) fun w d => d.map (r w) = row.map v := by
  have cells := L.mapM (l := row.cells) fun c member =>
    Cell.yields (known c.content (List.mem_map_of_mem member))
  refine L.bind cells fun cells => L.pure ?_
  intro w cells
  simp [Row.map, cells]

theorem Row.list_yields {rows : List (Row S)}
    (known : ∀ s ∈ rows.flatMap (·.sequences), L.Yields (f (F s)) fun w t => r w t = v s) :
    L.Yields ((rows.map (·.map F)).mapM (·.traverse f)) fun w ds =>
      ds.map (·.map (r w)) = rows.map (·.map v) :=
  L.mapM fun row member => Row.yields fun s inside =>
    known s (List.mem_flatMap.mpr ⟨row, member, inside⟩)

theorem RowGroup.yields {group : RowGroup S}
    (known : ∀ s ∈ group.sequences, L.Yields (f (F s)) fun w t => r w t = v s) :
    L.Yields ((group.map F).traverse f) fun w d => d.map (r w) = group.map v := by
  refine L.bind (Row.list_yields known) fun rows => L.pure ?_
  intro w rows
  simp [RowGroup.map, rows]

theorem Section.yields (order : Order) {part : Section S}
    (known : ∀ s ∈ part.sequences, L.Yields (f (F s)) fun w t => r w t = v s) :
    L.Yields ((part.map F).traverse order f) fun w d => d.map (r w) = part.map v := by
  have head := Row.list_yields fun s inside => known s (List.mem_append_left _ inside)
  have body := Row.list_yields fun s inside => known s (List.mem_append_right _ inside)
  refine L.bind (L.both head body order) fun _ => L.pure ?_
  rintro w ⟨head, body⟩
  simp [Section.map, body, head]

theorem Table.yields (order : Order) {t : Table S}
    (known : ∀ s ∈ t.sequences, L.Yields (f (F s)) fun w t => r w t = v s) :
    L.Yields ((t.map F).traverse order f) fun w d => d.map (r w) = t.map v := by
  simp only [sequences, List.mem_append, List.mem_flatMap] at known
  have caption := Caption.yields order fun s inside => known s (.inl (.inl (.inl inside)))
  have head := RowGroup.yields fun s inside => known s (.inl (.inl (.inr inside)))
  have sections := L.mapM (l := t.sections) fun part member => Section.yields order fun s inside =>
    known s (.inl (.inr ⟨part, member, inside⟩))
  have foot := RowGroup.yields fun s inside => known s (.inr inside)
  have rows : L.Yields ((t.map F).traverseRows order f) fun w d => d.1.map (r w) = t.head.map v ∧
      d.2.1.map (·.map (r w)) = t.sections.map (·.map v) ∧ d.2.2.map (r w) = t.foot.map v := by
    refine L.bind head fun head => L.bind sections fun sections => L.bind foot fun foot => L.pure ?_
    exact fun w foot sections head => ⟨head, sections, foot⟩
  refine L.bind (L.both caption rows order) fun _ => L.pure ?_
  rintro w ⟨caption, head, sections, foot⟩
  simp [Table.map, caption, head, sections, foot]

theorem Definition.yields {d : Definition S}
    (known : ∀ s ∈ d.sequences, L.Yields (f (F s)) fun w t => r w t = v s) :
    L.Yields ((d.map F).traverse f) fun w e => e.map (r w) = d.map v := by
  have meanings := L.mapM fun s member => known s (List.mem_cons_of_mem _ member)
  refine L.bind (known d.term List.mem_cons_self) fun term => L.bind meanings fun meanings =>
    L.pure ?_
  intro w meanings term
  simp [Definition.map, meanings, term]

/-- A traversal of an element yields an element of the same shape, and at each of its containers what
the traversal yields there. The nodes of a list are in none of these. -/
theorem Element.yields (order : Order) {e : Element S M} (named : e.kind ≠ .list)
    (sequences : ∀ s, .sequence s ∈ e.slots → L.Yields (f (F s)) fun w t => r w t = v s)
    (mappings : ∀ s, .mapping s ∈ e.slots → L.Yields (g (G s)) fun w t => r' w t = v' s) :
    L.Yields ((e.map F G).traverse order f g) fun w d => d.map (r w) (r' w) = e.map v v' := by
  cases e with
  | document version metadata blocks =>
    have parts := L.both (mappings metadata (by simp [slots])) (sequences blocks (by simp [slots])) order
    refine L.bind parts fun _ => L.pure ?_
    rintro w ⟨metadata, blocks⟩
    simp [Element.map, blocks, metadata]
  | metaMap entries =>
    exact L.map (mappings entries (by simp [slots])) fun w d h => by simp [Element.map, h]
  | metaBool | text | mark | verbatim | raw | math => exact L.pure fun _ => rfl
  | list nodes => exact absurd rfl named
  | wrap kind content | header level attr content | box kind attr content | quoted style content =>
    exact L.map (sequences content (by simp [slots])) fun w d h => by simp [Element.map, h]
  | items kind parts | orderedList numbering parts =>
    have known := L.mapM (l := parts) fun s member => sequences s (by simpa [slots] using member)
    exact L.map known fun w d h => by simp [Element.map, h]
  | definitionList parts =>
    have known := L.mapM (l := parts) fun d member => Definition.yields fun s inside =>
      sequences s (by simpa [slots] using ⟨d, member, inside⟩)
    exact L.map known fun w d h => by simp [Element.map, h]
  | table t =>
    have known := Table.yields order fun s inside => sequences s (by simpa [slots] using inside)
    exact L.map known fun w d h => by simp [Element.map, h]
  | figure attr caption content =>
    have caption := Caption.yields order (c := caption) fun s inside =>
      sequences s (by simpa [slots] using .inl inside)
    refine L.bind (L.both caption (sequences content (by simp [slots])) order) fun _ => L.pure ?_
    rintro w ⟨caption, content⟩
    simp [Element.map, content, caption]
  | cite citations content =>
    have citations := L.mapM (l := citations) fun c member => Citation.yields fun s inside =>
      sequences s (by simpa [slots] using .inl ⟨c, member, inside⟩)
    refine L.bind citations fun citations =>
      L.bind (sequences content (by simp [slots])) fun content => L.pure ?_
    intro w content citations
    simp [Element.map, content, citations]
  | target kind attr content url title =>
    refine L.bind (sequences content (by simp [slots])) fun content => L.pure ?_
    intro w content
    simp [Element.map, content]

end

def Account.identity : Account Id Unit where
  Yields x Q := Q () x
  pure h := h ()
  bind h later := later _ h

namespace Element

variable {S S' M M' : Type}

theorem traverse_identity {e : Element S M} (named : e.kind ≠ .list) :
    e.traverse (m := Id) .written (fun s => s) (fun m => m) = e := by
  have all : Account.identity.Yields ((e.map id id).traverse .written (fun s => s) (fun m => m)) fun _ d =>
      d.map id id = e.map id id := Element.yields .written named (fun _ _ => rfl) fun _ _ => rfl
  simpa [Account.identity] using all

theorem map_congr {e : Element S M} (named : e.kind ≠ .list) {f f' : S → S'} {g g' : M → M'}
    (sequences : ∀ s, .sequence s ∈ e.slots → f s = f' s)
    (mappings : ∀ m, .mapping m ∈ e.slots → g m = g' m) : e.map f g = e.map f' g' := by
  have all : Account.identity.Yields ((e.map id id).traverse .written (fun s => s) (fun m => m)) fun _ d =>
      d.map f g = e.map f' g' := Element.yields .written named sequences mappings
  rw [map_id] at all
  change Element.map _ _ (e.traverse (m := Id) .written _ _) = _ at all
  rwa [traverse_identity named] at all

end Element

end DocTree
