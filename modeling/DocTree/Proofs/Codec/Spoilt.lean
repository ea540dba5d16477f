import DocTree.Proofs.Codec.Depth
/-!
Values that are laid out as documents are but for one element, in whose place stands something that is
refused. Whatever encloses it, decoding the whole ends in that same refusal.
-/

namespace DocTree.Codec

/-- A value that has a layout except that one of the elements in it is something else. -/
inductive Spoilt (isElement isOther : Json → Prop) : Layout → Json → Prop
  | element {j : Json} (other : isOther j) : Spoilt isElement isOther .element j
  | present {l : Layout} {j : Json} (inside : Spoilt isElement isOther l j) :
    Spoilt isElement isOther (.nullable l) j
  | item {l : Layout} {before after : List Json} {j : Json}
    (fit : ∀ i ∈ before ++ after, Fits isElement l i) (inside : Spoilt isElement isOther l j) :
    Spoilt isElement isOther (.list l) (.arr (before ++ j :: after))
  | part {l : Layout} {ls : List Layout} {j : Json} {js : List Json}
    (inside : Spoilt isElement isOther l j) (others : Fits isElement (.tuple ls) (.arr js)) :
    Spoilt isElement isOther (.tuple (l :: ls)) (.arr (j :: js))
  | laterPart {l : Layout} {ls : List Layout} {j : Json} {js : List Json} (fits : Fits isElement l j)
    (inside : Spoilt isElement isOther (.tuple ls) (.arr js)) :
    Spoilt isElement isOther (.tuple (l :: ls)) (.arr (j :: js))
  | field {key : Text} {l : Layout} {fields : List (Text × Layout)} {j : Json} {ms ms' : Mapping Json}
    (inside : Spoilt isElement isOther l j) (others : Fits isElement (.record fields) (.obj ms))
    (order : ms'.Perm ((key, j) :: ms)) : Spoilt isElement isOther (.record ((key, l) :: fields)) (.obj ms')
  | laterField {key : Text} {l : Layout} {fields : List (Text × Layout)} {j : Json}
    {ms ms' : Mapping Json} (fits : Fits isElement l j)
    (inside : Spoilt isElement isOther (.record fields) (.obj ms))
    (order : ms'.Perm ((key, j) :: ms)) : Spoilt isElement isOther (.record ((key, l) :: fields)) (.obj ms')
  | value {l : Layout} {before after : Mapping Json} {key : Text} {j : Json}
    (fit : ∀ e ∈ before ++ after, Fits isElement l e.2) (inside : Spoilt isElement isOther l j) :
    Spoilt isElement isOther (.entries l) (.obj (before ++ (key, j) :: after))

/-- A value in the place of an element: it is `x`, or it is an element except that `x` stands in the
place of one of the elements in it, at whatever depth. -/
inductive SpoiltBy (x : Json) : Json → Prop
  | here : SpoiltBy x x
  | inside {kind : Kind} {l : Layout} {c : Json} {ms : Mapping Json}
    (layout : Layout.ofKind? kind = some l) (spoilt : Spoilt IsElement (SpoiltBy x) l c)
    (order : ms.Perm [("t", .str kind.name), ("c", c)]) : SpoiltBy x (.obj ms)

/-- A document with a version that is let through, an element or a list of elements, except that `x`
stands in the place of one of the elements below the root. As the first of two members of a list it must
not make the list look like a document of old. -/
inductive SpoiltTree [Versioning] (options : Options) (x : Json) : Json → Prop
  | metadata {v : List Int} {metadata content : Json} {ms : Mapping Json}
    (accepted : options.validates = true → checkVersion options v = .ok ())
    (spoilt : Spoilt IsElement (SpoiltBy x) (.entries .element) metadata)
    (elements : Fits IsElement .elements content)
    (order : ms.Perm [("pandoc-api-version", .arr (v.map .int)), ("meta", metadata),
      ("blocks", content)]) : SpoiltTree options x (.obj ms)
  | blocks {v : List Int} {metadata content : Json} {ms : Mapping Json}
    (accepted : options.validates = true → checkVersion options v = .ok ())
    (entries : Fits IsElement (.entries .element) metadata)
    (spoilt : Spoilt IsElement (SpoiltBy x) .elements content)
    (order : ms.Perm [("pandoc-api-version", .arr (v.map .int)), ("meta", metadata),
      ("blocks", content)]) : SpoiltTree options x (.obj ms)
  | element {kind : Kind} {l : Layout} {c : Json} {ms : Mapping Json}
    (layout : Layout.ofKind? kind = some l) (spoilt : Spoilt IsElement (SpoiltBy x) l c)
    (order : ms.Perm [("t", .str kind.name), ("c", c)]) : SpoiltTree options x (.obj ms)
  | list {js : List Json} (spoilt : Spoilt IsElement (SpoiltBy x) .elements (.arr js))
    (current : ∀ (y : Json) (ms : Mapping Json), js = [x, y] → x = .obj ms → ms.get? "unMeta" = none) :
    SpoiltTree options x (.arr js)

def Placed (isElement isOther : Json → Prop) : Bool → Layout → Json → Prop
  | false => Fits isElement
  | true => Spoilt isElement isOther

section

variable {P Q : Json → Prop} {b : Bool} {l : Layout} {ls : List Layout} {j : Json} {js : List Json}

theorem Spoilt.ofTuple (h : Spoilt P Q (.tuple ls) j) : ∃ l ∈ ls, ∃ i, Spoilt P Q l i := by
  generalize whole : Layout.tuple ls = l at h
  induction h generalizing ls with
  | part inside =>
    cases whole
    exact ⟨_, List.mem_cons_self, _, inside⟩
  | laterPart _ _ ih =>
    cases whole
    obtain ⟨l, member, i, inside⟩ := ih rfl
    exact ⟨l, List.mem_cons_of_mem _ member, i, inside⟩
  | element | present | item | field | laterField | value => cases whole

theorem Spoilt.ofList (h : Spoilt P Q (.list l) j) : ∃ i, Spoilt P Q l i := by
  cases h with
  | item _ inside => exact ⟨_, inside⟩

theorem Spoilt.members (h : Spoilt P Q .elements (.arr js)) : ∀ i ∈ js, P i ∨ Q i := by
  intro i member
  cases h with
  | item fit inside =>
    cases inside with
    | element other =>
      rcases List.mem_append.mp member with before | after
      · cases fit i (List.mem_append_left _ before) with
        | element known => exact .inl known
      · rcases List.mem_cons.mp after with rfl | after
        · exact .inr other
        · cases fit i (List.mem_append_right _ after) with
          | element known => exact .inl known

theorem not_spoilt_attr : ¬ Spoilt P Q .attr j := by
  intro h
  obtain ⟨l, member, i, inside⟩ := h.ofTuple
  simp only [List.mem_cons, List.not_mem_nil, or_false] at member
  rcases member with rfl | rfl | rfl
  · cases inside
  · obtain ⟨_, inside⟩ := inside.ofList
    cases inside
  · obtain ⟨_, inside⟩ := inside.ofList
    obtain ⟨l, member, i, inside⟩ := inside.ofTuple
    simp only [List.mem_cons, List.not_mem_nil, or_false, or_self] at member
    subst member
    cases inside

theorem not_spoilt_column : ¬ Spoilt P Q .column j := by
  intro h
  obtain ⟨l, member, i, inside⟩ := h.ofTuple
  simp only [List.mem_cons, List.not_mem_nil, or_false] at member
  rcases member with rfl | rfl
  · cases inside
  · cases inside

namespace Placed

theorem array (h : Placed P Q b (.tuple ls) j) : ∃ js, j = .arr js := by
  cases b with
  | false => exact Fits.array h
  | true => cases h <;> exact ⟨_, rfl⟩

theorem next (h : Placed P Q b (.tuple (l :: ls)) (.arr js)) : ∃ b₁ b₂ j rest,
    b = (b₁ || b₂) ∧ js = j :: rest ∧ Placed P Q b₁ l j ∧ Placed P Q b₂ (.tuple ls) (.arr rest) := by
  cases b with
  | false =>
    obtain ⟨j, rest, rfl, fits, others⟩ := Fits.next h
    exact ⟨false, false, j, rest, rfl, rfl, fits, others⟩
  | true =>
    cases h with
    | part inside others => exact ⟨true, false, _, _, rfl, rfl, inside, others⟩
    | laterPart fits inside => exact ⟨false, true, _, _, rfl, rfl, fits, inside⟩

theorem last (h : Placed P Q b (.tuple []) (.arr js)) : b = false ∧ js = [] := by
  cases b with
  | false => exact ⟨rfl, Fits.last h⟩
  | true => cases h

theorem pair {l₁ l₂ : Layout} (h : Placed P Q b (.tuple [l₁, l₂]) j) : ∃ b₁ b₂ i₁ i₂,
    b = (b₁ || b₂) ∧ j = .arr [i₁, i₂] ∧ Placed P Q b₁ l₁ i₁ ∧ Placed P Q b₂ l₂ i₂ := by
  obtain ⟨_, rfl⟩ := h.array
  obtain ⟨b₁, _, i₁, _, rfl, rfl, first, h⟩ := h.next
  obtain ⟨b₂, _, i₂, _, rfl, rfl, second, h⟩ := h.next
  obtain ⟨rfl, rfl⟩ := h.last
  exact ⟨b₁, b₂, i₁, i₂, by rw [Bool.or_false], rfl, first, second⟩

theorem triple {l₁ l₂ l₃ : Layout} (h : Placed P Q b (.tuple [l₁, l₂, l₃]) j) : ∃ b₁ b₂ b₃ i₁ i₂ i₃,
    b = (b₁ || (b₂ || b₃)) ∧ j = .arr [i₁, i₂, i₃] ∧ Placed P Q b₁ l₁ i₁ ∧ Placed P Q b₂ l₂ i₂ ∧
      Placed P Q b₃ l₃ i₃ := by
  obtain ⟨_, rfl⟩ := h.array
  obtain ⟨b₁, _, i₁, _, rfl, rfl, first, h⟩ := h.next
  obtain ⟨b₂, _, i₂, _, rfl, rfl, second, h⟩ := h.next
  obtain ⟨b₃, _, i₃, _, rfl, rfl, third, h⟩ := h.next
  obtain ⟨rfl, rfl⟩ := h.last
  exact ⟨b₁, b₂, b₃, i₁, i₂, i₃, by rw [Bool.or_false], rfl, first, second, third⟩

theorem object {fields : List (Text × Layout)} (h : Placed P Q b (.record fields) j) :
    ∃ ms, j = .obj ms := by
  cases b with
  | false => exact Fits.object h
  | true => cases h <;> exact ⟨_, rfl⟩

theorem nextField {key : Text} {fields : List (Text × Layout)} {ms : Mapping Json}
    (h : Placed P Q b (.record ((key, l) :: fields)) (.obj ms)) : ∃ b₁ b₂ j rest,
    b = (b₁ || b₂) ∧ ms.Perm ((key, j) :: rest) ∧ Placed P Q b₁ l j ∧
      Placed P Q b₂ (.record fields) (.obj rest) := by
  cases b with
  | false =>
    obtain ⟨j, rest, order, fits, others⟩ := Fits.nextField h
    exact ⟨false, false, j, rest, rfl, order, fits, others⟩
  | true =>
    cases h with
    | field inside others order => exact ⟨true, false, _, _, rfl, order, inside, others⟩
    | laterField fits inside order => exact ⟨false, true, _, _, rfl, order, fits, inside⟩

theorem lastField {ms : Mapping Json} (h : Placed P Q b (.record []) (.obj ms)) : b = false ∧ ms = [] := by
  cases b with
  | false => exact ⟨rfl, Fits.lastField h⟩
  | true => cases h

theorem isText (h : Placed P Q b .text j) : b = false ∧ ∃ t, j = .str t := by
  cases b with
  | false => exact ⟨rfl, Fits.isText h⟩
  | true => cases h

theorem items (h : Placed P Q b (.list l) j) : ∃ js, j = .arr js := by
  cases b with
  | false =>
    obtain ⟨js, rfl, _⟩ := Fits.items h
    exact ⟨js, rfl⟩
  | true =>
    cases h with
    | item => exact ⟨_, rfl⟩

theorem nullable (h : Placed P Q b (.nullable l) j) : b = false ∧ j = .null ∨ Placed P Q b l j := by
  cases b with
  | false =>
    cases h with
    | absent => exact .inl ⟨rfl, rfl⟩
    | present fits => exact .inr fits
  | true =>
    cases h with
    | present inside => exact .inr inside

end Placed

end

section

variable {α β : Type} {f : Fault} {a b : Bool}

/-- A computation ends in a fault, or it does not fail. -/
def Tells (f : Fault) : Bool → Decoded α → Prop
  | false, x => ∃ a, x = .ok a
  | true, x => x = .error f

theorem Tells.stop {x : Decoded α} (failed : Tells f true x) (g : α → Decoded β) :
    Tells f true (x >>= g) := by
  have eq : x = .error f := failed
  rw [eq]
  rfl

theorem Tells.bind {x : Decoded α} {g : α → Decoded β} (first : Tells f a x)
    (later : ∀ v, Tells f b (g v)) : Tells f (a || b) (x >>= g) := by
  cases a with
  | false =>
    obtain ⟨v, rfl⟩ := first
    exact later v
  | true => exact first.stop g

theorem Tells.cast {x : Decoded α} (known : Tells f a x) (same : a = b) : Tells f b x := same ▸ known

theorem Tells.pure (v : α) : Tells f false (pure v : Decoded α) := ⟨v, rfl⟩

theorem Tells.last {x : Decoded α} (known : Tells f a x) (g : α → β) : Tells f a (do return g (← x)) := by
  have done := known.bind fun v => Tells.pure (g v)
  rwa [Bool.or_false] at done

theorem Tells.map {x : Decoded α} {g : α → β} (known : Tells f a x) : Tells f a (g <$> x) := by
  cases a with
  | false =>
    obtain ⟨v, rfl⟩ := known
    exact ⟨g v, rfl⟩
  | true =>
    have failed : x = .error f := known
    rw [failed]
    rfl

theorem Tells.mapM {γ : Type} {read : γ → Decoded α} {items : List γ}
    (each : ∀ c ∈ items, Tells f false (read c)) : Tells f false (items.mapM read) := by
  induction items with
  | nil => exact .pure []
  | cons first rest ih =>
    rw [List.mapM_cons]
    refine (each first List.mem_cons_self).bind fun _ => ?_
    exact (ih fun c member => each c (List.mem_cons_of_mem first member)).bind fun _ => .pure _

theorem Tells.mapM_middle {γ : Type} {read : γ → Decoded α} {before after : List γ} {c : γ}
    (each : ∀ c ∈ before, Tells f false (read c)) (failed : Tells f true (read c)) :
    Tells f true ((before ++ c :: after).mapM read) := by
  rw [List.mapM_append, List.mapM_cons]
  exact (Tells.mapM each).bind fun _ => (failed.stop _).stop _

end

section

variable {child : Json → Decoded Node} {f : Fault} {b : Bool} {l : Layout} {j : Json}

/-- A value that has a layout if all elements in it are read, except for one that may be refused. -/
abbrev Met (child : Json → Decoded Node) (f : Fault) : Bool → Layout → Json → Prop :=
  Placed (fun j => Tells f false (child j)) (fun j => Tells f true (child j))

theorem Met.element (h : Met child f b .element j) : Tells f b (child j) := by
  cases b with
  | false =>
    cases h with
    | element known => exact known
  | true =>
    cases h with
    | element other => exact other

theorem Met.list {α : Type} {read : Json → Decoded α}
    (each : ∀ b i, Met child f b l i → Tells f b (read i)) (what : Text) (h : Met child f b (.list l) j) :
    Tells f b (do (← listOf what j).mapM read) := by
  cases b with
  | false =>
    obtain ⟨js, rfl, fit⟩ := Fits.items h
    exact Tells.mapM fun i member => each false i (fit i member)
  | true =>
    cases h with
    | item fit inside =>
      exact Tells.mapM_middle (fun i member => each false i (fit i (List.mem_append_left _ member)))
        (each true _ inside)

theorem Met.bindList {α β : Type} {a b : Bool} {read : Json → Decoded α} {next : List α → Decoded β}
    {what : Text} (h : Met child f a (.list l) j) (each : ∀ b i, Met child f b l i → Tells f b (read i))
    (later : ∀ as, Tells f b (next as)) : Tells f (a || b) (do next (← (← listOf what j).mapM read)) := by
  have items := Met.list each what h
  rw [← bind_assoc]
  exact items.bind later

theorem attr_tells (h : Met child f b .attr j) : Tells f b (attr j) := by
  cases b with
  | false =>
    obtain ⟨a, rfl⟩ := Fits.isAttr h
    exact ⟨a, attr_attrJson a⟩
  | true => exact absurd h not_spoilt_attr

theorem whole_tells (h : Met child f b .whole j) : Tells f b (whole j) := by
  cases b with
  | false =>
    obtain ⟨n, rfl⟩ := Fits.isWhole h
    exact ⟨n, rfl⟩
  | true => cases h

theorem enumeration_tells (h : Met child f b .enumeration j) : Tells f b (enumeration j) := by
  cases b with
  | false =>
    obtain ⟨name, rfl⟩ := Fits.isEnumeration h
    exact ⟨name, enumeration_enumerationJson name⟩
  | true => cases h

theorem column_tells (h : Met child f b .column j) : Tells f b (column j) := by
  cases b with
  | false =>
    obtain ⟨c, isRead, _⟩ := column_reads h
    exact ⟨c, isRead⟩
  | true => exact absurd h not_spoilt_column

theorem columns_tells (h : Met child f b (.list .column) j) : Tells f b (columns j) :=
  Met.list (fun _ _ => column_tells) _ h

theorem children_tells (what : Text) (h : Met child f b .elements j) :
    Tells f b (children child what j) := by
  rw [children_eq]
  exact Met.list (fun _ _ => Met.element) what h

theorem inlines_tells (h : Met child f b .elements j) : Tells f b (inlines child j) :=
  children_tells "inline list" h

theorem blocks_tells (h : Met child f b .elements j) : Tells f b (blocks child j) :=
  children_tells "block list" h

theorem blockLists_tells (h : Met child f b (.list .elements) j) : Tells f b (blockLists child j) :=
  Met.list (fun _ _ => blocks_tells) "list items" h

theorem mapping_tells (h : Met child f b (.entries .element) j) : Tells f b (mapping child j) := by
  have each (a : Bool) (e : Text × Json) (known : Met child f a .element e.2) :
      Tells f a (entry child e) := by
    exact (Met.element known).last fun n => (e.1, n)
  cases b with
  | false =>
    cases h with
    | entries fit =>
      rw [mapping_obj]
      exact Tells.mapM fun e member => each false e (fit e member)
  | true =>
    cases h with
    | value fit inside =>
      rw [mapping_obj]
      exact Tells.mapM_middle (fun e member => each false e (fit e (List.mem_append_left _ member)))
        (each true _ inside)

theorem citation_tells (h : Met child f b .citation j) : Tells f b (citation child j) := by
  obtain ⟨ms, rfl⟩ := h.object
  obtain ⟨b₁, _, id, _, rfl, order₁, isId, h⟩ := h.nextField
  obtain ⟨b₂, _, lead, _, rfl, order₂, isLead, h⟩ := h.nextField
  obtain ⟨b₃, _, trail, _, rfl, order₃, isTrail, h⟩ := h.nextField
  obtain ⟨b₄, _, mode, _, rfl, order₄, isMode, h⟩ := h.nextField
  obtain ⟨b₅, _, noteNum, _, rfl, order₅, isNoteNum, h⟩ := h.nextField
  obtain ⟨b₆, _, hash, _, rfl, order₆, isHash, h⟩ := h.nextField
  obtain ⟨rfl, rfl⟩ := h.lastField
  obtain ⟨rfl, _⟩ := isId.isText
  have last := order₅.trans (order₆.cons _)
  have later := order₃.trans ((order₄.trans (last.cons _)).cons _)
  have order := order₁.trans ((order₂.trans (later.cons _)).cons _)
  have distinct : List.Nodup [("citationId" : Text), "citationPrefix", "citationSuffix",
      "citationMode", "citationNoteNum", "citationHash"] := by decide
  have found (key : Text) : Mapping.get? key ms = _ := Mapping.get?_of_perm order distinct
  have isThere : member "citationId" (.obj ms) = .ok id := by rw [member, found]; rfl
  have modeIsThere : member "citationMode" (.obj ms) = .ok mode := by rw [member, found]; rfl
  have leadIs : memberOr "citationPrefix" (.arr []) (.obj ms) = lead := by rw [memberOr, found]; rfl
  have trailIs : memberOr "citationSuffix" (.arr []) (.obj ms) = trail := by rw [memberOr, found]; rfl
  have noteNumIs : memberOr "citationNoteNum" (.int 0) (.obj ms) = noteNum := by
    rw [memberOr, found]; rfl
  have hashIs : memberOr "citationHash" (.int 0) (.obj ms) = hash := by rw [memberOr, found]; rfl
  simp only [citation, isThere, modeIsThere, leadIs, trailIs, noteNumIs, hashIs, lift_self, ok_bind]
  refine (inlines_tells isLead).bind fun _ => ?_
  refine (inlines_tells isTrail).bind fun _ => ?_
  refine (enumeration_tells isMode).bind fun _ => ?_
  refine (whole_tells isNoteNum).bind fun _ => ?_
  exact (whole_tells isHash).bind fun _ => .pure _

theorem caption_tells (h : Met child f b .caption j) : Tells f b (caption child j) := by
  obtain ⟨b₁, b₂, short, long, rfl, rfl, isShort, isLong⟩ := h.pair
  rw [caption, pair_arr, lift_self, ok_bind, Bool.or_comm]
  refine (blocks_tells isLong).bind fun _ => ?_
  rcases isShort.nullable with ⟨rfl, rfl⟩ | isShort
  · exact .pure _
  · obtain ⟨_, rfl⟩ := isShort.items
    exact (inlines_tells isShort).map.last _

theorem cell_tells (h : Met child f b .cell j) : Tells f b (cell child j) := by
  obtain ⟨_, rfl⟩ := h.array
  obtain ⟨b₁, _, a, _, rfl, rfl, isAttr, h⟩ := h.next
  obtain ⟨b₂, _, alignment, _, rfl, rfl, isAlignment, h⟩ := h.next
  obtain ⟨b₃, _, rowSpan, _, rfl, rfl, isRowSpan, h⟩ := h.next
  obtain ⟨b₄, _, colSpan, _, rfl, rfl, isColSpan, h⟩ := h.next
  obtain ⟨b₅, _, content, _, rfl, rfl, areElements, h⟩ := h.next
  obtain ⟨rfl, rfl⟩ := h.last
  -- The contents are decoded first, and the attributes last.
  have order : (b₁ || (b₂ || (b₃ || (b₄ || (b₅ || false))))) = (b₅ || (b₂ || (b₃ || (b₄ || b₁)))) := by
    rw [Bool.or_false]
    ac_rfl
  rw [order, cell, unpack_five, lift_self, ok_bind]
  refine (blocks_tells areElements).bind fun _ => ?_
  refine (enumeration_tells isAlignment).bind fun _ => ?_
  refine (whole_tells isRowSpan).bind fun _ => ?_
  exact (whole_tells isColSpan).bind fun _ => (attr_tells isAttr).last _

theorem row_tells (h : Met child f b .row j) : Tells f b (row child j) := by
  obtain ⟨b₁, b₂, a, cells, rfl, rfl, isAttr, areCells⟩ := h.pair
  rw [row, pair_arr, lift_self, ok_bind, Bool.or_comm]
  exact Met.bindList areCells (fun _ _ => cell_tells) fun _ => (attr_tells isAttr).last _

theorem rows_tells (h : Met child f b (.list .row) j) : Tells f b (rows child j) :=
  Met.list (fun _ _ => row_tells) "table rows" h

theorem rowGroup_tells (h : Met child f b .rowGroup j) :
    ∃ a rowList, j = .arr [a, rowList] ∧ Tells f b (rowGroup child a rowList) := by
  obtain ⟨b₁, b₂, a, rowList, rfl, rfl, isAttr, areRows⟩ := h.pair
  refine ⟨a, rowList, rfl, ?_⟩
  rw [Bool.or_comm]
  exact (rows_tells areRows).bind fun _ => (attr_tells isAttr).last _

theorem tableSection_tells (h : Met child f b .tableSection j) : Tells f b (tableSection child j) := by
  obtain ⟨_, rfl⟩ := h.array
  obtain ⟨b₁, _, a, _, rfl, rfl, isAttr, h⟩ := h.next
  obtain ⟨b₂, _, headColumns, _, rfl, rfl, isHeadColumns, h⟩ := h.next
  obtain ⟨b₃, _, head, _, rfl, rfl, areHead, h⟩ := h.next
  obtain ⟨b₄, _, body, _, rfl, rfl, areBody, h⟩ := h.next
  obtain ⟨rfl, rfl⟩ := h.last
  have order : (b₁ || (b₂ || (b₃ || (b₄ || false)))) = (b₄ || (b₃ || (b₂ || b₁))) := by
    rw [Bool.or_false]
    ac_rfl
  rw [order, tableSection, unpack_four, lift_self, ok_bind]
  refine (rows_tells areBody).bind fun _ => ?_
  refine (rows_tells areHead).bind fun _ => ?_
  exact (whole_tells isHeadColumns).bind fun _ => (attr_tells isAttr).last _

theorem definition_tells (h : Met child f b .definition j) : Tells f b (definition child j) := by
  obtain ⟨b₁, b₂, term, meanings, rfl, rfl, isTerm, areMeanings⟩ := h.pair
  rw [definition, pair_arr, lift_self, ok_bind]
  exact (inlines_tells isTerm).bind fun _ => (blockLists_tells areMeanings).last _

theorem wrapped_tells (kind : WrapKind) (h : Met child f b .elements j) :
    Tells f b (wrapped child kind j) := by
  have told (what : Text) := children_tells what h
  cases kind <;> exact (told _).map

theorem orderedList_tells (h : Met child f b (.tuple [.numbering, .list .elements]) j) :
    Tells f b (orderedList child j) := by
  obtain ⟨b₁, b₂, numbering, parts, rfl, rfl, isNumbering, areParts⟩ := h.pair
  obtain ⟨b₃, b₄, b₅, start, style, delimiter, rfl, rfl, isStart, isStyle, isDelimiter⟩ :=
    isNumbering.triple
  rw [orderedList, pair_arr, lift_self, ok_bind, Bool.or_comm]
  simp only [triple_arr, lift_self, ok_bind]
  refine (blockLists_tells areParts).bind fun _ => ?_
  refine (whole_tells isStart).bind fun _ => ?_
  exact (enumeration_tells isStyle).bind fun _ => (enumeration_tells isDelimiter).last _

theorem header_tells (h : Met child f b (.tuple [.whole, .attr, .elements]) j) :
    Tells f b (header child j) := by
  obtain ⟨b₁, b₂, b₃, level, a, content, rfl, rfl, isLevel, isAttr, areElements⟩ := h.triple
  rw [header, triple_arr, lift_self, ok_bind, Bool.or_comm b₂]
  refine (whole_tells isLevel).bind fun _ => ?_
  exact (inlines_tells areElements).bind fun _ => (attr_tells isAttr).last _

theorem table_tells (h : Met child f b .table j) : Tells f b (table child j) := by
  obtain ⟨_, rfl⟩ := h.array
  obtain ⟨b₁, _, a, _, rfl, rfl, isAttr, h⟩ := h.next
  obtain ⟨b₂, _, legend, _, rfl, rfl, isCaption, h⟩ := h.next
  obtain ⟨b₃, _, columns, _, rfl, rfl, areColumns, h⟩ := h.next
  obtain ⟨b₄, _, head, _, rfl, rfl, isHead, h⟩ := h.next
  obtain ⟨b₅, _, sections, _, rfl, rfl, areSections, h⟩ := h.next
  obtain ⟨b₆, _, foot, _, rfl, rfl, isFoot, h⟩ := h.next
  obtain ⟨rfl, rfl⟩ := h.last
  obtain ⟨headAttr, headRows, rfl, headTells⟩ := rowGroup_tells isHead
  obtain ⟨footAttr, footRows, rfl, footTells⟩ := rowGroup_tells isFoot
  have order : (b₁ || (b₂ || (b₃ || (b₄ || (b₅ || (b₆ || false)))))) =
      (b₄ || (b₅ || (b₆ || (b₂ || (b₃ || b₁))))) := by
    rw [Bool.or_false]
    ac_rfl
  rw [order, table, unpack_six, lift_self, ok_bind]
  simp only [pair_arr, lift_self, ok_bind]
  refine headTells.bind fun _ => ?_
  refine Met.bindList areSections (fun _ _ => tableSection_tells) fun _ => ?_
  refine footTells.bind fun _ => ?_
  refine (caption_tells isCaption).bind fun _ => ?_
  exact (columns_tells areColumns).bind fun _ => (attr_tells isAttr).last _

theorem figure_tells (h : Met child f b (.tuple [.attr, .caption, .elements]) j) :
    Tells f b (figure child j) := by
  obtain ⟨b₁, b₂, b₃, a, legend, content, rfl, rfl, isAttr, isCaption, areElements⟩ := h.triple
  have order : (b₁ || (b₂ || b₃)) = (b₃ || (b₂ || b₁)) := by ac_rfl
  rw [order, figure, triple_arr, lift_self, ok_bind]
  refine (blocks_tells areElements).bind fun _ => ?_
  exact (caption_tells isCaption).bind fun _ => (attr_tells isAttr).last _

theorem box_tells (kind : BoxKind) (h : Met child f b (.tuple [.attr, .elements]) j) :
    Tells f b (box child kind j) := by
  obtain ⟨b₁, b₂, a, content, rfl, rfl, isAttr, areElements⟩ := h.pair
  rw [box, pair_arr, lift_self, ok_bind, Bool.or_comm]
  cases kind with
  | div => exact (blocks_tells areElements).bind fun _ => (attr_tells isAttr).last _
  | span => exact (inlines_tells areElements).bind fun _ => (attr_tells isAttr).last _

theorem verbatim_tells (kind : VerbatimKind) (h : Met child f b (.tuple [.attr, .text]) j) :
    Tells f b (verbatim kind j : Decoded (Shape Node)) := by
  obtain ⟨b₁, _, a, t, rfl, rfl, isAttr, isText⟩ := h.pair
  obtain ⟨rfl, _⟩ := isText.isText
  rw [verbatim, pair_arr, ok_bind, Bool.or_false]
  exact (attr_tells isAttr).last _

theorem raw_tells (kind : RawKind) (h : Met child f b (.tuple [.text, .text]) j) :
    Tells f b (raw kind j : Decoded (Shape Node)) := by
  obtain ⟨_, _, format, t, rfl, rfl, isFormat, isText⟩ := h.pair
  obtain ⟨rfl, _⟩ := isFormat.isText
  obtain ⟨rfl, _⟩ := isText.isText
  rw [raw, pair_arr, ok_bind]
  exact .pure _

theorem quoted_tells (h : Met child f b (.tuple [.enumeration, .elements]) j) :
    Tells f b (quoted child j) := by
  obtain ⟨b₁, b₂, style, content, rfl, rfl, isStyle, areElements⟩ := h.pair
  rw [quoted, pair_arr, lift_self, ok_bind]
  exact (enumeration_tells isStyle).bind fun _ => (inlines_tells areElements).last _

theorem cite_tells (h : Met child f b (.tuple [.list .citation, .elements]) j) :
    Tells f b (cite child j) := by
  obtain ⟨b₁, b₂, citations, content, rfl, rfl, areCitations, areElements⟩ := h.pair
  rw [cite, pair_arr, lift_self, ok_bind]
  exact Met.bindList areCitations (fun _ _ => citation_tells) fun _ => (inlines_tells areElements).last _

theorem math_tells (h : Met child f b (.tuple [.enumeration, .text]) j) :
    Tells f b (math j : Decoded (Shape Node)) := by
  obtain ⟨b₁, _, style, t, rfl, rfl, isStyle, isText⟩ := h.pair
  obtain ⟨rfl, _⟩ := isText.isText
  rw [math, pair_arr, ok_bind, Bool.or_false]
  exact (enumeration_tells isStyle).last _

theorem target_tells (kind : TargetKind)
    (h : Met child f b (.tuple [.attr, .elements, .tuple [.text, .text]]) j) :
    Tells f b (target child kind j) := by
  obtain ⟨b₁, b₂, _, a, content, place, rfl, rfl, isAttr, areElements, isPlace⟩ := h.triple
  obtain ⟨_, _, url, title, rfl, rfl, isUrl, isTitle⟩ := isPlace.pair
  obtain ⟨rfl, _⟩ := isUrl.isText
  obtain ⟨rfl, _⟩ := isTitle.isText
  rw [target, triple_arr, lift_self, ok_bind]
  simp only [pair_arr, lift_self, ok_bind, Bool.or_false, Bool.or_comm b₁]
  exact (inlines_tells areElements).bind fun _ => (attr_tells isAttr).last _

theorem leaf_tells {kind : TextKind} (h : Met child f b .text j) :
    Tells f b (leafText kind j : Decoded (Shape Node)) := by
  obtain ⟨rfl, t, rfl⟩ := h.isText
  exact ⟨_, rfl⟩

theorem metaBool_tells (h : Met child f b .flag j) : Tells f b (metaBool j : Decoded (Shape Node)) := by
  cases b with
  | false =>
    cases h with
    | flag value => exact ⟨_, rfl⟩
  | true => cases h

theorem contents_tells {kind : Kind} (layout : Layout.ofKind? kind = some l) (h : Met child f b l j) :
    Tells f b (contents child kind j) := by
  cases kind <;> cases layout
  case metaMap => exact (mapping_tells h).map
  case metaBool => exact metaBool_tells h
  case metaList => exact wrapped_tells .metaList h
  case metaInlines => exact wrapped_tells .metaInlines h
  case metaBlocks => exact wrapped_tells .metaBlocks h
  case plain => exact wrapped_tells .plain h
  case para => exact wrapped_tells .para h
  case blockQuote => exact wrapped_tells .blockQuote h
  case emph => exact wrapped_tells .emph h
  case underline => exact wrapped_tells .underline h
  case strong => exact wrapped_tells .strong h
  case strikeout => exact wrapped_tells .strikeout h
  case superscript => exact wrapped_tells .superscript h
  case subscript => exact wrapped_tells .subscript h
  case smallCaps => exact wrapped_tells .smallCaps h
  case note => exact wrapped_tells .note h
  case metaString => exact leaf_tells h
  case str => exact leaf_tells h
  case lineBlock =>
    have lines : Tells f (b || false) (contents child .lineBlock j) :=
      Met.bindList h (fun _ _ => inlines_tells) fun _ => .pure _
    exact lines.cast (Bool.or_false b)
  case bulletList => exact (blockLists_tells h).map
  case codeBlock => exact verbatim_tells .codeBlock h
  case code => exact verbatim_tells .code h
  case rawBlock => exact raw_tells .rawBlock h
  case rawInline => exact raw_tells .rawInline h
  case div => exact box_tells .div h
  case span => exact box_tells .span h
  case link => exact target_tells .link h
  case image => exact target_tells .image h
  case orderedList => exact orderedList_tells h
  case definitionList =>
    have parts : Tells f (b || false) (contents child .definitionList j) :=
      Met.bindList h (fun _ _ => definition_tells) fun _ => .pure _
    exact parts.cast (Bool.or_false b)
  case header => exact header_tells h
  case table => exact table_tells h
  case figure => exact figure_tells h
  case quoted => exact quoted_tells h
  case cite => exact cite_tells h
  case math => exact math_tells h

end

theorem Spoilt.imp {P P' Q Q' : Json → Prop} {l : Layout} {j : Json} {fuel : Nat} (h : Spoilt P Q l j)
    (low : j.height ≤ fuel) (each : ∀ j, P j → j.height ≤ fuel → P' j)
    (other : ∀ j, Q j → j.height ≤ fuel → Q' j) : Spoilt P' Q' l j := by
  have arr {js : List Json} (low : (Json.arr js).height ≤ fuel) {i : Json} (member : i ∈ js) :
      i.height ≤ fuel := Nat.le_trans (Nat.le_of_lt (height_lt_arr member)) low
  have obj {ms : Mapping Json} (low : (Json.obj ms).height ≤ fuel) {e : Text × Json} (member : e ∈ ms) :
      e.2.height ≤ fuel := Nat.le_trans (Nat.le_of_lt (height_lt_obj member)) low
  have rest {j : Json} {js : List Json} (low : (Json.arr (j :: js)).height ≤ fuel) :
      (Json.arr js).height ≤ fuel := by
    rw [Json.height, Json.heightItems] at low
    rw [Json.height]
    omega
  have fewer {entry : Text × Json} {ms ms' : Mapping Json} (low : (Json.obj ms').height ≤ fuel)
      (order : ms'.Perm (entry :: ms)) : (Json.obj ms).height ≤ fuel := by
    have others : Json.heightMembers ms ≤ Json.heightMembers ms' :=
      heightMembers_le_iff.mpr fun e member => heightMembers_le_iff.mp (Nat.le_refl _) e
        (order.mem_iff.mpr (List.mem_cons_of_mem _ member))
    rw [Json.height] at low ⊢
    omega
  induction h with
  | element isOther => exact .element (other _ isOther low)
  | present _ ih => exact .present (ih low)
  | item fit _ ih =>
    refine .item (fun i member => (fit i member).imp (arr low ?_) each) (ih (arr low (by simp)))
    rw [List.mem_append] at member
    exact List.mem_append.mpr (member.imp_right (List.mem_cons_of_mem _))
  | part _ others ih =>
    exact .part (ih (arr low List.mem_cons_self)) (others.imp (rest low) each)
  | laterPart fits _ ih =>
    exact .laterPart (fits.imp (arr low List.mem_cons_self) each) (ih (rest low))
  | field _ others order ih =>
    exact .field (ih (obj low (order.mem_iff.mpr List.mem_cons_self))) (others.imp (fewer low order) each) order
  | laterField fits _ order ih =>
    exact .laterField (fits.imp (obj low (order.mem_iff.mpr List.mem_cons_self)) each) (ih (fewer low order)) order
  | value fit _ ih =>
    have isThere := ih (obj low (List.mem_append_right _ List.mem_cons_self))
    refine .value (fun e member => (fit e member).imp (obj low ?_) each) isThere
    rw [List.mem_append] at member
    exact List.mem_append.mpr (member.imp_right (List.mem_cons_of_mem _))

theorem shape_refused {α : Type} {child : Json → Decoded α} {ms : Mapping Json} {kind : Kind} {c : Json}
    {r : Refusal} (inner : kind ≠ .document) (named : kind ≠ .list)
    (order : ms.Perm [("t", .str kind.name), ("c", c)])
    (known : contents child kind c = .error (.refused r)) : shape child (.obj ms) = .error (.refused r) := by
  obtain ⟨tag, place⟩ := tag_and_contents order
  simp only [shape, tag, kindOf, ofName?_name inner named, lift_self, ok_bind, place, known, inElement_eq]

section

variable {x : Json} {r : Refusal}

theorem IsElement.tells {j : Json} (h : IsElement j) {fuel : Nat} (enough : j.height ≤ fuel) (f : Fault) :
    Tells f false (elementWithin fuel j) := by
  obtain ⟨n, isRead, _⟩ := elementWithin_reads h enough
  exact ⟨n, isRead⟩

theorem SpoiltBy.refused (refused : Codec.element x = .error (.refused r)) {j : Json} (h : SpoiltBy x j)
    {fuel : Nat} (enough : j.height ≤ fuel) : Tells (.refused r) true (elementWithin fuel j) := by
  induction fuel generalizing j with
  | zero => exact absurd j.height_pos (by omega)
  | succ fuel ih =>
    cases h with
    | here => exact (elementWithin_eq enough).trans refused
    | @inside kind l c ms layout spoilt order =>
      have lower := height_lt_obj (order.mem_iff.mpr (.tail _ (.head _)))
      have low : c.height ≤ fuel := Nat.le_of_lt_succ (Nat.lt_of_lt_of_le lower enough)
      have met : Met (elementWithin fuel) (.refused r) true l c :=
        spoilt.imp low (fun _ element low => element.tells low _) fun _ spoilt low => ih spoilt low
      obtain ⟨inner, named⟩ := inner_of_layout layout
      rw [elementWithin_succ]
      exact Tells.map (shape_refused inner named order (contents_tells layout met))

theorem Fits.met {l : Layout} {j : Json} (h : Fits IsElement l j) : Met Codec.element (.refused r) false l j :=
  h.imp (Nat.le_refl _) fun _ known _ => known.tells (Nat.le_refl _) _

theorem Spoilt.met (refused : Codec.element x = .error (.refused r)) {l : Layout} {j : Json}
    (h : Spoilt IsElement (SpoiltBy x) l j) : Met Codec.element (.refused r) true l j :=
  h.imp (Nat.le_refl _) (fun _ known _ => known.tells (Nat.le_refl _) _)
    fun _ spoilt _ => spoilt.refused refused (Nat.le_refl _)

section

variable [Versioning]

theorem document_tells {options : Options} {v : List Int} {metadata content : Json} {ms : Mapping Json}
    {a b : Bool} {f : Fault} (accepted : options.validates = true → checkVersion options v = .ok ())
    (entries : Met Codec.element f a (.entries .element) metadata)
    (elements : Met Codec.element f b .elements content)
    (order : ms.Perm [("pandoc-api-version", .arr (v.map .int)), ("meta", metadata),
      ("blocks", content)]) : Tells f (b || a) (decode options (.obj ms)) := by
  have distinct : List.Nodup [("pandoc-api-version" : Text), "meta", "blocks"] := by decide
  have found (key : Text) : Mapping.get? key ms = _ := Mapping.get?_of_perm order distinct
  have versionAt : ms.get? versionKey = some (.arr (v.map .int)) := found _
  have metaAt : ms.get? "meta" = some metadata := found _
  have blocksAt : ms.get? "blocks" = some content := found _
  have told : Tells f (b || a) (body v ms) := by
    simp only [body, blocksAt, metaAt, Option.getD_some]
    exact (blocks_tells elements).bind fun _ => (mapping_tells entries).last _
  rw [decode_document options versionAt, version_read, ok_bind]
  refine Tells.map ?_
  cases checked : options.validates with
  | false => exact told
  | true =>
    rw [accepted checked]
    exact told

/-- Where an element below the root is refused, the whole is refused for that reason and no other: what
encloses the element leaves the report as it is. -/
theorem spoilt_refused {options : Options} {whole : Json} (spoilt : SpoiltTree options x whole)
    (refused : Codec.element x = .error (.refused r)) : decode options whole = .error (.refused r) := by
  cases spoilt with
  | metadata accepted spoilt elements order =>
    exact document_tells accepted (spoilt.met refused) elements.met order
  | blocks accepted entries spoilt order =>
    exact document_tells accepted entries.met (spoilt.met refused) order
  | @element kind l c ms layout spoilt order =>
    have told := (SpoiltBy.inside layout spoilt order).refused refused (Nat.le_refl _)
    have distinct : List.Nodup [("t" : Text), "c"] := by decide
    have noVersion : Mapping.get? versionKey ms = none := by
      rw [Mapping.get?_of_perm order distinct]
      rfl
    have failed : Codec.element (.obj ms) = .error (.refused r) := told
    rw [decode_element options noVersion, failed]
    rfl
  | @list js spoilt current =>
    have told := Met.list (fun _ _ => Met.element) "list" (spoilt.met refused)
    have notOld : isOldLayout js = false := by
      refine isOldLayout_eq_false fun ms y eq => ?_
      rcases spoilt.members (.obj ms) (eq ▸ List.mem_cons_self) with element | spoilt
      · obtain ⟨_, ⟨⟩, absent⟩ := element.keys
        exact absent "unMeta" (by decide) (by decide)
      · cases spoilt with
        | here => exact current y ms eq rfl
        | inside _ _ order =>
          have distinct : List.Nodup [("t" : Text), "c"] := by decide
          rw [Mapping.get?_of_perm order distinct]
          rfl
    have failed : js.mapM Codec.element = .error (.refused r) := told
    rw [decode_arr, notOld, failed]
    rfl

end

end

def stray : Json := .obj [("t", .str "Stray")]

def citationAfter (j : Json) : Json :=
  .obj [("citationId", .str "a"), ("citationPrefix", .arr [j]), ("citationSuffix", .arr []),
    ("citationMode", .obj [("t", .str "NormalCitation")]), ("citationNoteNum", .int 1),
    ("citationHash", .int 0)]

def noteAfter (j : Json) : Json :=
  .obj [("pandoc-api-version", .arr [.int 1, .int 23]),
    ("meta", .obj [("title", .obj [("t", .str "MetaInlines"), ("c", .arr [
      .obj [("t", .str "Cite"), ("c", .arr [.arr [citationAfter j], .arr []])]])])]),
    ("blocks", .arr [])]

section

attribute [local instance] Versioning.ofClauses

theorem stray_refused : SpoiltTree .default stray (noteAfter stray) ∧
    Codec.element stray = .error (.refused (.unknownKind (.str "Stray"))) ∧
    decode .default (noteAfter stray) = .error (.refused (.unknownKind (.str "Stray"))) := by
  have supported : checkVersion .default [1, 23] = .ok () := by cbv
  have isStray : Codec.element stray = .error (.refused (.unknownKind (.str "Stray"))) := by cbv
  have empty : Fits IsElement .elements (.arr []) := .list (by simp)
  have others : Fits IsElement (.record [("citationSuffix", .elements), ("citationMode", .enumeration),
      ("citationNoteNum", .whole), ("citationHash", .whole)]) (.obj [("citationSuffix", .arr []),
      ("citationMode", .obj [("t", .str "NormalCitation")]), ("citationNoteNum", .int 1),
      ("citationHash", .int 0)]) :=
    .field empty (.field (.enumeration _) (.field (.whole _) (.field (.whole _) .noField (.refl _))
      (.refl _)) (.refl _)) (.refl _)
  have lead : Spoilt IsElement (SpoiltBy stray) .elements (.arr ([] ++ stray :: [])) :=
    .item (by simp) (.element .here)
  have citation : Spoilt IsElement (SpoiltBy stray) .citation (citationAfter stray) :=
    .laterField (.text _) (.field lead others (.refl _)) (.refl _)
  have citations : Spoilt IsElement (SpoiltBy stray) (.list .citation)
      (.arr ([] ++ citationAfter stray :: [])) := .item (by simp) citation
  have cite : SpoiltBy stray (.obj [("t", .str "Cite"), ("c", .arr [.arr [citationAfter stray], .arr []])]) :=
    .inside (show Layout.ofKind? .cite = some _ from rfl) (.part citations (.part empty .noPart)) (.refl _)
  have inlineList : Spoilt IsElement (SpoiltBy stray) .elements (.arr ([] ++ _ :: [])) :=
    .item (by simp) (.element cite)
  have title : SpoiltBy stray (.obj [("t", .str "MetaInlines"), ("c", .arr ([] ++
      .obj [("t", .str "Cite"), ("c", .arr [.arr [citationAfter stray], .arr []])] :: []))]) :=
    .inside (show Layout.ofKind? .metaInlines = some _ from rfl) inlineList (.refl _)
  have metadata : Spoilt IsElement (SpoiltBy stray) (.entries .element) (.obj _) :=
    @Spoilt.value _ _ _ [] [] "title" _ (by simp) (.element title)
  have spoilt : SpoiltTree .default stray (noteAfter stray) :=
    .metadata (fun _ => supported) metadata empty (.refl _)
  exact ⟨spoilt, isStray, spoilt_refused spoilt isStray⟩

end

end DocTree.Codec
