import DocTree.Proofs.Codec.Canonical
/-!
How decoding ends, whatever the value is. A defect never leaves the element it is found in, except that of
a tag which no table can look up; a number out of range is reported as such from wherever it stands.
-/

namespace DocTree.Codec

/-- A value stands at the place of a layout, somewhere inside a value that is read by a layout. Only
the places on the way have to be as laid out. -/
inductive Stands (place : Layout) (v : Json) : Layout → Json → Prop
  | here : Stands place v place v
  | present {l : Layout} {j : Json} (inside : Stands place v l j) : Stands place v (.nullable l) j
  | item {l : Layout} {js : List Json} {j : Json} (member : j ∈ js) (inside : Stands place v l j) :
    Stands place v (.list l) (.arr js)
  | part {ls : List Layout} {js : List Json} {i : Nat} {l : Layout} {j : Json} (layout : ls[i]? = some l)
    (value : js[i]? = some j) (inside : Stands place v l j) : Stands place v (.tuple ls) (.arr js)
  | field {fields : List (Text × Layout)} {ms : Mapping Json} {key : Text} {l : Layout} {j : Json}
    (layout : (key, l) ∈ fields) (value : ms.get? key = some j) (inside : Stands place v l j) :
    Stands place v (.record fields) (.obj ms)
  | value {l : Layout} {ms : Mapping Json} {entry : Text × Json} (member : entry ∈ ms)
    (inside : Stands place v l entry.2) : Stands place v (.entries l) (.obj ms)
  | contents {kind : Kind} {l : Layout} {ms : Mapping Json} {c : Json}
    (tag : ms.get? "t" = some (.str kind.name)) (layout : Layout.ofKind? kind = some l)
    (value : ms.get? "c" = some c) (inside : Stands place v l c) : Stands place v .element (.obj ms)

theorem Stands.scalar {place l : Layout} {v j : Json} (stands : Stands place v l j)
    (isScalar : (∀ js, j ≠ .arr js) ∧ ∀ ms, j ≠ .obj ms) : v = j := by
  induction stands with
  | here => rfl
  | present _ ih => exact ih isScalar
  | item | part => exact absurd rfl (isScalar.1 _)
  | field | value | contents => exact absurd rfl (isScalar.2 _)

theorem Stands.null {place l : Layout} {v : Json} (stands : Stands place v l .null) : v = .null :=
  stands.scalar ⟨nofun, nofun⟩

theorem Stands.str {place l : Layout} {v : Json} {t : Text} (stands : Stands place v l (.str t)) :
    v = .str t := stands.scalar ⟨nofun, nofun⟩

/-- What a decoder of a layout may end in. A number that is out of range stands in the value. -/
inductive Explained (l : Layout) (j : Json) : Fault → Prop
  | defect (d : Defect) : Explained l j (.defect d)
  | refused (r : Refusal) : Explained l j (.refused r)
  | infinite {negative : Bool} (stands : Stands .whole (.float (.infinite negative)) l j) :
    Explained l j (.overflow .infinite)
  | tooLarge {ms : Mapping Json} {n : Int} (stands : Stands .width (.obj ms) l j)
    (isWidth : ms.get? "c" = some (.int n)) (large : Binary64.ofInt? n = none) :
    Explained l j (.overflow .tooLarge)

inductive Plain : Fault → Prop
  | defect (d : Defect) : Plain (.defect d)
  | refused (r : Refusal) : Plain (.refused r)

section

variable {l l' : Layout} {ls : List Layout} {j j' : Json} {js : List Json} {f : Fault}

theorem Plain.explained (plain : Plain f) : Explained l j f := by
  cases plain with
  | defect d => exact .defect d
  | refused r => exact .refused r

theorem Explained.lift (known : Explained l j f)
    (up : ∀ place v, (∀ t, v ≠ .str t) → v ≠ .null → Stands place v l j → Stands place v l' j') :
    Explained l' j' f := by
  cases known with
  | defect d => exact .defect d
  | refused r => exact .refused r
  | infinite stands => exact .infinite (up _ _ nofun nofun stands)
  | tooLarge stands isWidth large => exact .tooLarge (up _ _ nofun nofun stands) isWidth large

theorem Explained.item (member : j ∈ js) (f : Fault) (known : Explained l j f) :
    Explained (.list l) (.arr js) f :=
  known.lift fun _ _ _ _ inside => .item member inside

theorem Explained.part (i : Nat) (sequence : sequence? j = some js) (layout : ls[i]? = some l)
    (value : js[i]? = some j') (f : Fault) (known : Explained l j' f) : Explained (.tuple ls) j f := by
  refine known.lift fun place v noText _ inside => ?_
  have fromText (t : Text) (isText : j' = .str t) : False := by
    subst isText
    exact noText t inside.str
  cases j with
  | arr items =>
    cases sequence
    exact .part layout value inside
  | str t =>
    cases sequence
    rw [List.getElem?_map, Option.map_eq_some_iff] at value
    obtain ⟨c, -, eq⟩ := value
    exact (fromText _ eq.symm).elim
  | obj ms =>
    cases sequence
    rw [List.getElem?_map, Option.map_eq_some_iff] at value
    obtain ⟨entry, -, eq⟩ := value
    exact (fromText _ eq.symm).elim
  | null | bool | int | float => cases sequence

end

section

variable {α β : Type} {good : α → Prop} {good' : β → Prop} {bad bad' : Fault → Prop}

def Ends (good : α → Prop) (bad : Fault → Prop) : Decoded α → Prop
  | .ok a => good a
  | .error f => bad f

theorem Ends.bind {x : Decoded α} {next : α → Decoded β} (first : Ends good bad x)
    (later : ∀ a, good a → Ends good' bad (next a)) : Ends good' bad (x >>= next) := by
  cases x with
  | ok a => exact later a first
  | error f => exact first

theorem Ends.map {x : Decoded α} {g : α → β} (first : Ends good bad x) (later : ∀ a, good a → good' (g a)) :
    Ends good' bad (g <$> x) := by
  cases x with
  | ok a => exact later a first
  | error f => exact first

theorem Ends.weaken {x : Decoded α} (known : Ends good bad x) (weaker : ∀ f, bad f → bad' f) :
    Ends good bad' x := by
  cases x with
  | ok a => exact known
  | error f => exact weaker f known

theorem Ends.imp {good' : α → Prop} {x : Decoded α} (known : Ends good bad x)
    (weaker : ∀ a, good a → good' a) : Ends good' bad x := by
  cases x with
  | ok a => exact weaker a known
  | error f => exact known

theorem Ends.mapM {γ : Type} {read : γ → Decoded α} {items : List γ}
    (each : ∀ c ∈ items, Ends good bad (read c)) : Ends (fun as => ∀ a ∈ as, good a) bad (items.mapM read) := by
  induction items with
  | nil => exact fun _ member => nomatch member
  | cons first rest ih =>
    rw [List.mapM_cons]
    refine (each first List.mem_cons_self).bind fun a isGood => ?_
    refine (ih fun c member => each c (List.mem_cons_of_mem first member)).bind fun as all => ?_
    exact List.forall_mem_cons.mpr ⟨isGood, all⟩

end

section

variable {α : Type} {good : α → Prop} {l : Layout} {j : Json}

theorem Ends.plain {x : Decoded α} (known : Ends good Plain x) : Ends good (Explained l j) x :=
  known.weaken fun _ plain => plain.explained

theorem unpack_ends (count : Nat) (j : Json) :
    Ends (fun js => sequence? j = some js ∧ js.length = count) Plain (unpack count j) := by
  rw [unpack]
  split
  · exact .defect _
  · next items sequence =>
    split
    · exact .defect _
    split
    · exact .defect _
    · exact ⟨sequence, by omega⟩

theorem pair_ends (j : Json) : Ends (fun p => sequence? j = some [p.1, p.2]) Plain (pair j) := by
  refine (unpack_ends 2 j).bind fun js known => ?_
  split
  · exact known.1
  · exact .defect _

theorem triple_ends (j : Json) :
    Ends (fun p => sequence? j = some [p.1, p.2.1, p.2.2]) Plain (triple j) := by
  refine (unpack_ends 3 j).bind fun js known => ?_
  split
  · exact known.1
  · exact .defect _

theorem listOf_ends (what : Text) (j : Json) : Ends (fun items => j = .arr items) Plain (listOf what j) := by
  cases j with
  | arr items => rfl
  | _ => exact .refused _

theorem member_ends (key : Text) (j : Json) :
    Ends (fun v => ∃ ms : Mapping Json, j = .obj ms ∧ ms.get? key = some v) Plain (member key j) := by
  cases j with
  | obj ms =>
    rw [member]
    split
    · next found => exact ⟨ms, rfl, found⟩
    · exact .defect _
  | _ => exact .defect _

theorem enumeration_ends (j : Json) : Ends (fun _ => True) Plain (enumeration j) :=
  (member_ends "t" j).map fun _ _ => trivial

theorem whole_ends (j : Json) : Ends (fun _ => True) (Explained .whole j) (whole j) := by
  cases j with
  | int | bool => trivial
  | str t =>
    rw [whole]
    split
    · trivial
    · exact .defect _
  | float x =>
    cases x with
    | nan literal => exact .defect _
    | infinite negative => exact .infinite .here
    | finite negative exponent fraction => cases negative <;> trivial
  | null | arr | obj => exact .defect _

theorem textPair_ends (j : Json) : Ends (fun _ => True) Plain (textPair j) :=
  (pair_ends j).bind fun _ _ => trivial

theorem attr_ends (j : Json) : Ends (fun _ => True) Plain (attr j) := by
  refine (triple_ends j).bind fun (identifier, classes, pairs) _ => ?_
  refine (listOf_ends _ classes).bind fun _ _ => ?_
  refine (listOf_ends _ pairs).bind fun items _ => ?_
  exact (Ends.mapM fun pair _ => textPair_ends pair).bind fun _ _ => trivial

theorem Ends.items {good : α → Prop} {read : Json → Decoded α}
    (each : ∀ j, Ends good (Explained l j) (read j)) (what : Text) (j : Json) :
    Ends (fun as => ∀ a ∈ as, good a) (Explained (.list l) j) (do (← listOf what j).mapM read) := by
  refine (listOf_ends what j).plain.bind fun items isList => ?_
  subst isList
  exact Ends.mapM fun j member => (each j).weaken (Explained.item member)

theorem Ends.bindItems {β : Type} {read : Json → Decoded α} {next : List α → Decoded β} {good' : β → Prop}
    {bad : Fault → Prop} {what : Text} (each : ∀ j, Ends good (Explained l j) (read j))
    (up : ∀ f, Explained (.list l) j f → bad f)
    (later : ∀ as, (∀ a ∈ as, good a) → Ends good' bad (next as)) :
    Ends good' bad (do next (← (← listOf what j).mapM read)) := by
  have items := (Ends.items each what j).weaken up
  rw [← bind_assoc]
  exact items.bind later

end

def AllGood (good : Node → Prop) (sequences : List (List Node)) : Prop := ∀ ns ∈ sequences, ∀ n ∈ ns, good n

section

variable {good : Node → Prop}

theorem AllGood.append {first second : List (List Node)} (h : AllGood good first) (h' : AllGood good second) :
    AllGood good (first ++ second) := List.forall_mem_append.mpr ⟨h, h'⟩

theorem AllGood.cons {ns : List Node} {others : List (List Node)} (h : AllGood good [ns])
    (h' : AllGood good others) : AllGood good (ns :: others) := h.append h'

theorem AllGood.flatMap {α : Type} {sequences : α → List (List Node)} {as : List α}
    (each : ∀ a ∈ as, AllGood good (sequences a)) : AllGood good (as.flatMap sequences) := by
  intro ns inside
  obtain ⟨a, member, own⟩ := List.mem_flatMap.mp inside
  exact each a member ns own

variable {child : Json → Decoded Node} (each : ∀ j, Ends good (Explained .element j) (child j))

include each

theorem children_ends (what : Text) (j : Json) :
    Ends (fun ns => AllGood good [ns]) (Explained .elements j) (children child what j) := by
  rw [children_eq]
  exact (Ends.items each what j).imp fun _ proper => List.forall_mem_singleton.mpr proper

theorem inlines_ends (j : Json) :
    Ends (fun ns => AllGood good [ns]) (Explained .elements j) (inlines child j) := children_ends each _ j

theorem blocks_ends (j : Json) :
    Ends (fun ns => AllGood good [ns]) (Explained .elements j) (blocks child j) := children_ends each _ j

theorem blockLists_ends (j : Json) :
    Ends (AllGood good) (Explained (.list .elements) j) (blockLists child j) :=
  (Ends.items (blocks_ends each) _ j).imp fun _ proper ns inside => proper ns inside ns List.mem_cons_self

theorem mapping_ends (j : Json) :
    Ends (fun m => ∀ entry ∈ m, good entry.2) (Explained (.entries .element) j) (mapping child j) := by
  cases j with
  | obj ms =>
    rw [mapping_obj]
    refine Ends.mapM fun e member => ?_
    have value : Ends good (Explained (.entries .element) (.obj ms)) (child e.2) :=
      (each e.2).weaken fun _ known => known.lift fun _ _ _ _ inside => .value member inside
    exact value.bind fun _ proper => proper
  | _ => exact .refused _

omit each in
theorem memberOr_ends {α : Type} {good : α → Prop} {read : Json → Decoded α} {l : Layout}
    {fields : List (Text × Layout)} {ms : Mapping Json} {key : Text} {absent : Json} {a : α}
    (layout : (key, l) ∈ fields) (present : ∀ j, Ends good (Explained l j) (read j))
    (missing : read absent = .ok a) (isGood : good a) :
    Ends good (Explained (.record fields) (.obj ms)) (read (memberOr key absent (.obj ms))) := by
  cases found : ms.get? key with
  | none =>
    rw [memberOr, found, Option.getD_none, missing]
    exact isGood
  | some v =>
    rw [memberOr, found, Option.getD_some]
    exact (present v).weaken fun _ known => known.lift fun _ _ _ _ inside => .field layout found inside

theorem citation_ends (j : Json) :
    Ends (fun c => AllGood good c.sequences) (Explained .citation j) (citation child j) := by
  refine (member_ends "citationId" j).plain.bind fun id known => ?_
  obtain ⟨ms, rfl, -⟩ := known
  have empty : AllGood good [[]] := List.forall_mem_singleton.mpr nofun
  refine (memberOr_ends (.tail _ (.head _)) (inlines_ends each) rfl empty).bind fun lead leadProper => ?_
  refine (memberOr_ends (.tail _ (.tail _ (.head _))) (inlines_ends each) rfl empty).bind
    fun trail trailProper => ?_
  refine (member_ends "citationMode" _).plain.bind fun mode _ => ?_
  refine (enumeration_ends mode).plain.bind fun _ _ => ?_
  refine (memberOr_ends (.tail _ (.tail _ (.tail _ (.tail _ (.head _))))) whole_ends rfl trivial).bind
    fun _ _ => ?_
  refine (memberOr_ends (.tail _ (.tail _ (.tail _ (.tail _ (.tail _ (.head _)))))) whole_ends rfl trivial).bind
    fun _ _ => ?_
  exact leadProper.cons trailProper

theorem caption_ends (j : Json) :
    Ends (fun c => AllGood good c.sequences) (Explained .caption j) (caption child j) := by
  refine (pair_ends j).plain.bind fun (short, long) parts => ?_
  refine ((blocks_ends each long).weaken (Explained.part 1 parts rfl rfl)).bind fun nodes proper => ?_
  have present : Ends (fun s => AllGood good s.toList) (Explained .caption j) (some <$> inlines child short) := by
    refine ((inlines_ends each short).weaken fun f known => ?_).map fun _ shortProper => shortProper
    exact Explained.part 0 parts rfl rfl f (known.lift fun _ _ _ _ inside => .present inside)
  cases short with
  | null => exact proper
  | _ => exact present.bind fun _ shortProper => shortProper.append proper

omit each in
theorem width_ends (j : Json) :
    Ends (fun _ => True) (Explained .width j) (do real (← member "c" j)) := by
  refine (member_ends "c" j).plain.bind fun v known => ?_
  obtain ⟨ms, rfl, found⟩ := known
  cases v with
  | float | bool => exact True.intro
  | int n =>
    simp only [real]
    split
    · exact True.intro
    · next large => exact .tooLarge .here found large
  | str t =>
    simp only [real]
    split
    · exact True.intro
    · exact .defect _
  | null | arr | obj => exact .defect _

omit each in
theorem column_ends (j : Json) : Ends (fun _ => True) (Explained .column j) (column j) := by
  refine (pair_ends j).plain.bind fun (alignment, width) parts => ?_
  refine (enumeration_ends width).plain.bind fun tag _ => ?_
  have last (w : Option Binary64) : Ends (fun _ => True) (Explained .column j)
      (do return (⟨← enumeration alignment, w⟩ : Column)) :=
    (enumeration_ends alignment).plain.bind fun _ _ => trivial
  split
  · exact last none
  · have number : Ends (fun _ => True) (Explained .column j) (real =<< member "c" width) :=
      (width_ends width).weaken (Explained.part 1 parts rfl rfl)
    have present : Ends (fun _ => True) (Explained .column j) (some <$> (real =<< member "c" width)) :=
      number.map fun _ _ => trivial
    exact present.bind fun w _ => last w

omit each in
theorem columns_ends (j : Json) : Ends (fun _ => True) (Explained (.list .column) j) (columns j) :=
  (Ends.items column_ends _ j).imp fun _ _ => trivial

theorem cell_ends (j : Json) :
    Ends (fun c => AllGood good [c.content]) (Explained .cell j) (cell child j) := by
  refine (unpack_ends 5 j).plain.bind fun parts known => ?_
  obtain ⟨parts, count⟩ := known
  split
  · next a alignment rowSpan colSpan content =>
    refine ((blocks_ends each content).weaken (Explained.part 4 parts rfl rfl)).bind fun _ proper => ?_
    refine (enumeration_ends alignment).plain.bind fun _ _ => ?_
    refine ((whole_ends rowSpan).weaken (Explained.part 2 parts rfl rfl)).bind fun _ _ => ?_
    refine ((whole_ends colSpan).weaken (Explained.part 3 parts rfl rfl)).bind fun _ _ => ?_
    exact (attr_ends a).plain.bind fun _ _ => proper
  · exact .defect _

theorem row_ends (j : Json) : Ends (fun r => AllGood good r.sequences) (Explained .row j) (row child j) := by
  refine (pair_ends j).plain.bind fun (a, cells) parts => ?_
  refine Ends.bindItems (cell_ends each) (Explained.part 1 parts rfl rfl) fun cells proper => ?_
  refine (attr_ends a).plain.bind fun _ _ => ?_
  intro ns inside
  obtain ⟨c, member, rfl⟩ := List.mem_map.mp inside
  exact proper c member _ List.mem_cons_self

theorem rows_ends (j : Json) :
    Ends (fun rs => AllGood good (rs.flatMap (·.sequences))) (Explained (.list .row) j) (rows child j) := by
  refine (Ends.items (row_ends each) "table rows" j).imp fun rs proper ns inside => ?_
  obtain ⟨r, member, own⟩ := List.mem_flatMap.mp inside
  exact proper r member ns own

theorem rowGroup_ends {j a rowList : Json} (parts : sequence? j = some [a, rowList]) :
    Ends (fun g => AllGood good g.sequences) (Explained .rowGroup j) (rowGroup child a rowList) := by
  refine ((rows_ends each rowList).weaken (Explained.part 1 parts rfl rfl)).bind fun _ proper => ?_
  exact (attr_ends a).plain.bind fun _ _ => proper

theorem tableSection_ends (j : Json) :
    Ends (fun s => AllGood good s.sequences) (Explained .tableSection j) (tableSection child j) := by
  refine (unpack_ends 4 j).plain.bind fun parts known => ?_
  obtain ⟨parts, count⟩ := known
  split
  · next a headColumns head body =>
    refine ((rows_ends each body).weaken (Explained.part 3 parts rfl rfl)).bind fun _ bodyProper => ?_
    refine ((rows_ends each head).weaken (Explained.part 2 parts rfl rfl)).bind fun _ headProper => ?_
    refine ((whole_ends headColumns).weaken (Explained.part 1 parts rfl rfl)).bind fun _ _ => ?_
    exact (attr_ends a).plain.bind fun _ _ => headProper.append bodyProper
  · exact .defect _

theorem definition_ends (j : Json) :
    Ends (fun d => AllGood good d.sequences) (Explained .definition j) (definition child j) := by
  refine (pair_ends j).plain.bind fun (term, meanings) parts => ?_
  refine ((inlines_ends each term).weaken (Explained.part 0 parts rfl rfl)).bind fun _ termProper => ?_
  refine ((blockLists_ends each meanings).weaken (Explained.part 1 parts rfl rfl)).bind
    fun _ meaningsProper => ?_
  exact termProper.cons meaningsProper

def ShapeOf (good : Node → Prop) (kind : Kind) (e : Shape Node) : Prop := e.kind = kind ∧ ∀ n ∈ e.children, good n

omit each in
theorem ShapeOf.of_sequences {kind : Kind} {e : Shape Node} (sequences : List (List Node))
    (isKind : e.kind = kind) (slots : e.slots = sequences.map .sequence) (proper : AllGood good sequences) :
    ShapeOf good kind e := by
  refine ⟨isKind, fun n inside => ?_⟩
  obtain ⟨slot, own, member⟩ := List.mem_flatMap.mp inside
  rw [slots] at own
  obtain ⟨ns, sequence, rfl⟩ := List.mem_map.mp own
  exact proper ns sequence n member

theorem wrapped_ends (kind : WrapKind) (c : Json) :
    Ends (ShapeOf good kind.kind) (Explained .elements c) (wrapped child kind c) := by
  have known (what : Text) := children_ends each what c
  cases kind <;> exact (known _).map fun ns proper => .of_sequences [ns] rfl rfl proper

omit each in
theorem leafText_ends (kind : TextKind) (c : Json) :
    Ends (ShapeOf good kind.kind) Plain (leafText kind c) := by
  cases c with
  | str t => exact .of_sequences [] rfl rfl nofun
  | _ => exact .refused _

omit each in
theorem metaBool_ends (c : Json) : Ends (ShapeOf good .metaBool) Plain (metaBool c) := by
  cases c with
  | bool b => exact .of_sequences [] rfl rfl nofun
  | _ => exact .refused _

theorem metaMap_ends (c : Json) :
    Ends (ShapeOf good .metaMap) (Explained (.entries .element) c) (.metaMap <$> mapping child c) := by
  refine (mapping_ends each c).map fun m proper => ⟨rfl, fun n inside => ?_⟩
  obtain ⟨slot, own, member⟩ := List.mem_flatMap.mp inside
  obtain rfl := List.mem_singleton.mp own
  obtain ⟨entry, inEntries, rfl⟩ := List.mem_map.mp member
  exact proper entry inEntries

omit each in
theorem verbatim_ends (kind : VerbatimKind) (c : Json) :
    Ends (ShapeOf good kind.kind) Plain (verbatim kind c) := by
  refine (pair_ends c).bind fun (a, t) _ => ?_
  exact (attr_ends a).bind fun _ _ => .of_sequences [] rfl rfl nofun

omit each in
theorem raw_ends (kind : RawKind) (c : Json) : Ends (ShapeOf good kind.kind) Plain (raw kind c) :=
  (pair_ends c).bind fun _ _ => .of_sequences [] rfl rfl nofun

omit each in
theorem math_ends (c : Json) : Ends (ShapeOf good .math) Plain (math c) := by
  refine (pair_ends c).bind fun (style, t) _ => ?_
  exact (enumeration_ends style).bind fun _ _ => .of_sequences [] rfl rfl nofun

theorem lineBlock_ends (c : Json) :
    Ends (ShapeOf good .lineBlock) (Explained (.list .elements) c) (contents child .lineBlock c) := by
  refine Ends.bindItems (inlines_ends each) (fun _ => id) fun parts proper => ?_
  exact .of_sequences parts rfl rfl fun ns inside => proper ns inside ns List.mem_cons_self

theorem bulletList_ends (c : Json) :
    Ends (ShapeOf good .bulletList) (Explained (.list .elements) c) (contents child .bulletList c) :=
  (blockLists_ends each c).map fun parts proper => .of_sequences parts rfl rfl proper

theorem orderedList_ends (c : Json) : Ends (ShapeOf good .orderedList)
    (Explained (.tuple [.numbering, .list .elements]) c) (orderedList child c) := by
  refine (pair_ends c).plain.bind fun (numbering, parts) known => ?_
  refine (triple_ends numbering).plain.bind fun (start, style, delimiter) inner => ?_
  refine ((blockLists_ends each parts).weaken (Explained.part 1 known rfl rfl)).bind fun parts proper => ?_
  have isStart : Ends (fun _ => True) (Explained .numbering numbering) (whole start) :=
    (whole_ends start).weaken (Explained.part 0 inner rfl rfl)
  refine (isStart.weaken (Explained.part 0 known rfl rfl)).bind fun _ _ => ?_
  refine (enumeration_ends style).plain.bind fun _ _ => ?_
  refine (enumeration_ends delimiter).plain.bind fun _ _ => ?_
  exact .of_sequences parts rfl rfl proper

theorem definitionList_ends (c : Json) : Ends (ShapeOf good .definitionList) (Explained (.list .definition) c)
    (contents child .definitionList c) := by
  refine Ends.bindItems (definition_ends each) (fun _ => id) fun parts proper => ?_
  exact .of_sequences (parts.flatMap (·.sequences)) rfl rfl (.flatMap proper)

theorem header_ends (c : Json) :
    Ends (ShapeOf good .header) (Explained (.tuple [.whole, .attr, .elements]) c) (header child c) := by
  refine (triple_ends c).plain.bind fun (level, a, content) known => ?_
  refine ((whole_ends level).weaken (Explained.part 0 known rfl rfl)).bind fun _ _ => ?_
  refine ((inlines_ends each content).weaken (Explained.part 2 known rfl rfl)).bind fun ns proper => ?_
  exact (attr_ends a).plain.bind fun _ _ => .of_sequences [ns] rfl rfl proper

theorem table_ends (c : Json) : Ends (ShapeOf good .table) (Explained .table c) (table child c) := by
  refine (unpack_ends 6 c).plain.bind fun parts known => ?_
  obtain ⟨known, count⟩ := known
  split
  · next a legend columns head sections foot =>
    refine (pair_ends head).plain.bind fun (headAttr, headRows) inHead => ?_
    refine (pair_ends foot).plain.bind fun (footAttr, footRows) inFoot => ?_
    refine ((rowGroup_ends each inHead).weaken (Explained.part 3 known rfl rfl)).bind
      fun head headProper => ?_
    refine Ends.bindItems (tableSection_ends each) (Explained.part 4 known rfl rfl)
      fun sections sectionsProper => ?_
    refine ((rowGroup_ends each inFoot).weaken (Explained.part 5 known rfl rfl)).bind
      fun foot footProper => ?_
    refine ((caption_ends each legend).weaken (Explained.part 1 known rfl rfl)).bind
      fun legend legendProper => ?_
    refine ((columns_ends columns).weaken (Explained.part 2 known rfl rfl)).bind fun columns _ => ?_
    refine (attr_ends a).plain.bind fun a _ => ?_
    have inSections : AllGood good (sections.flatMap (·.sequences)) := .flatMap sectionsProper
    refine .of_sequences (Table.sequences ⟨a, legend, columns, head, sections, foot⟩) rfl rfl ?_
    exact ((legendProper.append headProper).append inSections).append footProper
  · exact .defect _

theorem figure_ends (c : Json) :
    Ends (ShapeOf good .figure) (Explained (.tuple [.attr, .caption, .elements]) c) (figure child c) := by
  refine (triple_ends c).plain.bind fun (a, legend, content) known => ?_
  refine ((blocks_ends each content).weaken (Explained.part 2 known rfl rfl)).bind fun ns proper => ?_
  refine ((caption_ends each legend).weaken (Explained.part 1 known rfl rfl)).bind
    fun legend legendProper => ?_
  refine (attr_ends a).plain.bind fun _ _ => ?_
  exact .of_sequences (legend.sequences ++ [ns]) rfl rfl (legendProper.append proper)

theorem box_ends (kind : BoxKind) (c : Json) :
    Ends (ShapeOf good kind.kind) (Explained (.tuple [.attr, .elements]) c) (box child kind c) := by
  refine (pair_ends c).plain.bind fun (a, content) known => ?_
  have last (ns : List Node) (proper : AllGood good [ns]) : Ends (ShapeOf good kind.kind)
      (Explained (.tuple [.attr, .elements]) c) (do return .box kind (← attr a) ns) :=
    (attr_ends a).plain.bind fun _ _ => .of_sequences [ns] rfl rfl proper
  have inside (what : Text) : Ends (fun ns => AllGood good [ns]) (Explained (.tuple [.attr, .elements]) c)
      (children child what content) :=
    (children_ends each what content).weaken (Explained.part 1 known rfl rfl)
  cases kind with
  | div => exact (inside "block list").bind last
  | span => exact (inside "inline list").bind last

theorem quoted_ends (c : Json) :
    Ends (ShapeOf good .quoted) (Explained (.tuple [.enumeration, .elements]) c) (quoted child c) := by
  refine (pair_ends c).plain.bind fun (style, content) known => ?_
  refine (enumeration_ends style).plain.bind fun _ _ => ?_
  refine ((inlines_ends each content).weaken (Explained.part 1 known rfl rfl)).bind fun ns proper => ?_
  exact .of_sequences [ns] rfl rfl proper

theorem cite_ends (c : Json) :
    Ends (ShapeOf good .cite) (Explained (.tuple [.list .citation, .elements]) c) (cite child c) := by
  refine (pair_ends c).plain.bind fun (citations, content) known => ?_
  refine Ends.bindItems (citation_ends each) (Explained.part 0 known rfl rfl)
    fun citations citationsProper => ?_
  refine ((inlines_ends each content).weaken (Explained.part 1 known rfl rfl)).bind fun ns proper => ?_
  have inCitations : AllGood good (citations.flatMap (·.sequences)) := .flatMap citationsProper
  exact .of_sequences (citations.flatMap (·.sequences) ++ [ns]) rfl rfl (inCitations.append proper)

theorem target_ends (kind : TargetKind) (c : Json) : Ends (ShapeOf good kind.kind)
    (Explained (.tuple [.attr, .elements, .tuple [.text, .text]]) c) (target child kind c) := by
  refine (triple_ends c).plain.bind fun (a, content, place) known => ?_
  refine (pair_ends place).plain.bind fun _ _ => ?_
  refine ((inlines_ends each content).weaken (Explained.part 1 known rfl rfl)).bind fun ns proper => ?_
  exact (attr_ends a).plain.bind fun _ _ => .of_sequences [ns] rfl rfl proper

theorem contents_ends {kind : Kind} {l : Layout} (layout : Layout.ofKind? kind = some l) (c : Json) :
    Ends (ShapeOf good kind) (Explained l c) (contents child kind c) := by
  cases kind <;> cases layout
  case metaMap => exact metaMap_ends each c
  case metaBool => exact (metaBool_ends c).plain
  case metaList => exact wrapped_ends each .metaList c
  case metaInlines => exact wrapped_ends each .metaInlines c
  case metaBlocks => exact wrapped_ends each .metaBlocks c
  case plain => exact wrapped_ends each .plain c
  case para => exact wrapped_ends each .para c
  case blockQuote => exact wrapped_ends each .blockQuote c
  case emph => exact wrapped_ends each .emph c
  case underline => exact wrapped_ends each .underline c
  case strong => exact wrapped_ends each .strong c
  case strikeout => exact wrapped_ends each .strikeout c
  case superscript => exact wrapped_ends each .superscript c
  case subscript => exact wrapped_ends each .subscript c
  case smallCaps => exact wrapped_ends each .smallCaps c
  case note => exact wrapped_ends each .note c
  case metaString => exact (leafText_ends .metaString c).plain
  case str => exact (leafText_ends .str c).plain
  case lineBlock => exact lineBlock_ends each c
  case bulletList => exact bulletList_ends each c
  case codeBlock => exact (verbatim_ends .codeBlock c).plain
  case code => exact (verbatim_ends .code c).plain
  case rawBlock => exact (raw_ends .rawBlock c).plain
  case rawInline => exact (raw_ends .rawInline c).plain
  case div => exact box_ends each .div c
  case span => exact box_ends each .span c
  case link => exact target_ends each .link c
  case image => exact target_ends each .image c
  case orderedList => exact orderedList_ends each c
  case definitionList => exact definitionList_ends each c
  case header => exact header_ends each c
  case table => exact table_ends each c
  case figure => exact figure_ends each c
  case quoted => exact quoted_ends each c
  case cite => exact cite_ends each c
  case math => exact (math_ends c).plain

end

end DocTree.Codec
