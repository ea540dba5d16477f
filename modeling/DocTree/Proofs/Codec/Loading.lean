import DocTree.Codec.Load
import DocTree.Proofs.Element.Visits
import DocTree.Proofs.Node.Proper
import DocTree.Store.Transfer
/-!
What the decoder adds to the store is the tree that it decodes, new in each of its parts. It takes the same
steps whether it adds or not; if it does, it adds each part when it comes to its end, which is the order that
trees are loaded in.
-/

namespace DocTree.Codec

open Store (Adding loadList loadMetadata loadTree)

section

variable {α β γ δ : Type} {s : Store} {f : β → γ × Store}

/-- Decoding that adds to the store follows decoding that does not. -/
def Follows (y : Loading γ) (add : β → Adding γ) (x : Decoded β) : Prop := ∀ s, y s = (fun b => add b s) <$> x

/-- What is decoded on the way does not touch the store. -/
theorem run_lift {x : Decoded α} {k : α → Decoded β} {k' : α → Loading γ} (next : ∀ a, k' a s = f <$> k a) :
    ((liftM x : Loading α) >>= k') s = f <$> (x >>= k) := by
  cases x with
  | error => rfl
  | ok a => exact next a

/-- A part is added, and what comes next is added to the store that it leaves. -/
theorem run_part {x : Decoded α} {add : α → δ × Store} {y : Loading δ} {k : α → Decoded β} {k' : δ → Loading γ}
    (first : y s = add <$> x) (next : ∀ a, k' (add a).1 (add a).2 = f <$> k a) : (y >>= k') s = f <$> (x >>= k) := by
  change y s >>= (fun p => k' p.1 p.2) = _
  rw [first, bind_map_left, map_bind]
  exact bind_congr next

theorem run_map {x : Decoded α} {add : α → δ × Store} {y : Loading δ} {g : α → β} {g' : δ → γ}
    (known : y s = add <$> x) (same : ∀ a, (g' (add a).1, (add a).2) = f (g a)) : (g' <$> y) s = f <$> g <$> x := by
  change y s >>= (fun p => pure (g' p.1, p.2)) = _
  rw [known, bind_map_left, ← map_eq_pure_bind, Functor.map_map]
  exact congrArg (· <$> x) (funext same)

theorem Follows.mapM {ι : Type} {g : ι → Decoded β} {g' : ι → Loading γ} {add : β → Adding γ}
    (each : ∀ i, Follows (g' i) add (g i)) (items : List ι) :
    Follows (items.mapM g') (fun bs => bs.mapM add) (items.mapM g) := by
  induction items with
  | nil => exact fun s => rfl
  | cons i items ih =>
    intro s
    rw [List.mapM_cons, List.mapM_cons]
    refine run_part (each i s) fun b => run_part (ih _) fun bs => ?_
    exact congrArg (fun added : Adding (List γ) => (pure (added s) : Decoded (List γ × Store)))
      (List.mapM_cons (f := add)).symm

end

/-- The shape of an element with its containers added. -/
abbrev addShape (e : Shape Node) : Adding StoredElement := e.traverse .decoded loadList loadMetadata

section

variable (j : Json)

theorem verbatim_follows (kind : VerbatimKind) :
    Follows (liftM (verbatim kind j : Decoded StoredElement)) addShape (verbatim kind j) := by
  intro s
  unfold verbatim
  cases pair j with
  | error => rfl
  | ok parts =>
    cases isAttr : attr parts.1 <;> simp only [bind, Except.bind, isAttr] <;> rfl

theorem raw_follows (kind : RawKind) :
    Follows (liftM (raw kind j : Decoded StoredElement)) addShape (raw kind j) := by
  intro s
  unfold raw
  cases pair j <;> rfl

theorem math_follows : Follows (liftM (math j : Decoded StoredElement)) addShape (math j) := by
  intro s
  unfold math
  cases pair j with
  | error => rfl
  | ok parts =>
    cases isStyle : enumeration parts.1 <;> simp only [bind, Except.bind, isStyle] <;> rfl

theorem leafText_follows (kind : TextKind) :
    Follows (liftM (leafText kind j : Decoded StoredElement)) addShape (leafText kind j) := by
  cases j <;> exact fun s => rfl

theorem metaBool_follows :
    Follows (liftM (metaBool j : Decoded StoredElement)) addShape (metaBool j) := by
  cases j <;> exact fun s => rfl

end

section

variable {child : Json → Decoded Node} {child' : Json → Loading NodeId}
    (known : ∀ j, Follows (child' j) Store.load (child j))

include known

theorem children_follows (what : Text) (j : Json) :
    Follows (children child' what j) loadList (children child what j) := by
  intro s
  refine run_lift fun items => run_part (Follows.mapM known items s) fun ns => ?_
  rfl

theorem inlines_follows (j : Json) : Follows (inlines child' j) loadList (inlines child j) :=
  children_follows known "inline list" j

theorem blocks_follows (j : Json) : Follows (blocks child' j) loadList (blocks child j) :=
  children_follows known "block list" j

theorem blockLists_follows (j : Json) :
    Follows (blockLists child' j) (fun parts => parts.mapM loadList) (blockLists child j) :=
  fun s => run_lift fun items => Follows.mapM (blocks_follows known) items s

theorem mapping_follows (j : Json) : Follows (mapping child' j) loadMetadata (mapping child j) := by
  cases j with
  | obj members =>
    intro s
    have entries (e : Text × Json) : Follows (entry child' e) (fun e => do return (e.1, ← Store.load e.2))
        (entry child e) := fun s => run_part (known e.2 s) fun n => rfl
    refine run_part (Follows.mapM entries members s) fun m => ?_
    rfl
  | _ => exact fun s => rfl

theorem citation_follows (j : Json) :
    Follows (citation child' j) (·.traverse loadList) (citation child j) := by
  intro s
  refine run_lift fun id => run_part (inlines_follows known _ s) fun lead => ?_
  refine run_part (inlines_follows known _ _) fun trail => run_lift fun tag => run_lift fun mode => ?_
  exact run_lift fun noteNum => run_lift fun hash => rfl

theorem caption_follows (j : Json) :
    Follows (caption child' j) (·.traverse .decoded loadList) (caption child j) := by
  intro s
  refine run_lift fun parts => run_part (blocks_follows known _ s) fun long => ?_
  obtain ⟨short, _⟩ := parts
  cases short with
  | null => rfl
  | _ => exact run_part (run_map (inlines_follows known _ _) fun ns => rfl) fun o => rfl

theorem cell_follows (j : Json) : Follows (cell child' j) (·.traverse loadList) (cell child j) := by
  intro s
  refine run_lift fun parts => ?_
  split
  · refine run_part (blocks_follows known _ s) fun content => run_lift fun alignment => ?_
    exact run_lift fun rowSpan => run_lift fun colSpan => run_lift fun a => rfl
  · rfl

theorem row_follows (j : Json) : Follows (row child' j) (·.traverse loadList) (row child j) := by
  intro s
  refine run_lift fun parts => run_lift fun cells => run_part (Follows.mapM (cell_follows known) cells s)
    fun cells => ?_
  exact run_lift fun a => rfl

theorem rows_follows (j : Json) :
    Follows (rows child' j) (fun rows => rows.mapM (·.traverse loadList)) (rows child j) :=
  fun s => run_lift fun items => Follows.mapM (row_follows known) items s

theorem rowGroup_follows (a rowList : Json) :
    Follows (rowGroup child' a rowList) (·.traverse loadList) (rowGroup child a rowList) :=
  fun s => run_part (rows_follows known rowList s) fun _ => run_lift fun _ => rfl

theorem tableSection_follows (j : Json) :
    Follows (tableSection child' j) (·.traverse .decoded loadList) (tableSection child j) := by
  intro s
  refine run_lift fun parts => ?_
  split
  · refine run_part (rows_follows known _ s) fun body => run_part (rows_follows known _ _) fun head => ?_
    exact run_lift fun headColumns => run_lift fun a => rfl
  · rfl

theorem definition_follows (j : Json) :
    Follows (definition child' j) (·.traverse loadList) (definition child j) := by
  intro s
  refine run_lift fun parts => run_part (inlines_follows known _ s) fun term => ?_
  exact run_part (blockLists_follows known _ _) fun meanings => rfl

theorem wrapped_follows (kind : WrapKind) (j : Json) :
    Follows (wrapped child' kind j) addShape (wrapped child kind j) := by
  intro s
  cases kind with
  | metaList => exact run_map (children_follows known _ _ s) fun ns => rfl
  | metaBlocks | blockQuote | note => exact run_map (blocks_follows known _ s) fun ns => rfl
  | _ => exact run_map (inlines_follows known _ s) fun ns => rfl

theorem orderedList_follows (j : Json) : Follows (orderedList child' j) addShape (orderedList child j) := by
  intro s
  refine run_lift fun parts => run_lift fun numbering => run_part (blockLists_follows known _ s) fun parts => ?_
  exact run_lift fun start => run_lift fun style => run_lift fun delimiter => rfl

theorem header_follows (j : Json) : Follows (header child' j) addShape (header child j) := by
  intro s
  refine run_lift fun parts => run_lift fun level => run_part (inlines_follows known _ s) fun content => ?_
  exact run_lift fun a => rfl

theorem table_follows (j : Json) : Follows (table child' j) addShape (table child j) := by
  intro s
  refine run_lift fun parts => ?_
  split
  · refine run_lift fun head => run_lift fun foot => ?_
    refine run_part (rowGroup_follows known _ _ s) fun head => run_lift fun sections => ?_
    refine run_part (Follows.mapM (tableSection_follows known) sections _) fun sections => ?_
    refine run_part (rowGroup_follows known _ _ _) fun foot => run_part (caption_follows known _ _) fun c => ?_
    exact run_lift fun columns => run_lift fun a => rfl
  · rfl

theorem figure_follows (j : Json) : Follows (figure child' j) addShape (figure child j) := by
  intro s
  refine run_lift fun parts => run_part (blocks_follows known _ s) fun content => ?_
  exact run_part (caption_follows known _ _) fun c => run_lift fun a => rfl

theorem box_follows (kind : BoxKind) (j : Json) : Follows (box child' kind j) addShape (box child kind j) := by
  intro s
  refine run_lift fun parts => ?_
  cases kind with
  | div => exact run_part (blocks_follows known _ s) fun content => run_lift fun a => rfl
  | span => exact run_part (inlines_follows known _ s) fun content => run_lift fun a => rfl

theorem quoted_follows (j : Json) : Follows (quoted child' j) addShape (quoted child j) :=
  fun s => run_lift fun _ => run_lift fun _ => run_part (inlines_follows known _ s) fun _ => rfl

theorem cite_follows (j : Json) : Follows (cite child' j) addShape (cite child j) := by
  intro s
  refine run_lift fun parts => run_lift fun citations => ?_
  refine run_part (Follows.mapM (citation_follows known) citations s) fun citations => ?_
  exact run_part (inlines_follows known _ _) fun content => rfl

theorem target_follows (kind : TargetKind) (j : Json) :
    Follows (target child' kind j) addShape (target child kind j) := by
  intro s
  refine run_lift fun parts => run_lift fun place => run_part (inlines_follows known _ s) fun content => ?_
  exact run_lift fun a => rfl

theorem contents_follows (kind : Kind) (j : Json) :
    Follows (contents child' kind j) addShape (contents child kind j) := by
  cases kind with
  | metaMap => exact fun s => run_map (mapping_follows known j s) fun m => rfl
  | metaList | metaInlines | metaBlocks | plain | para | blockQuote | emph | underline | strong | strikeout
  | superscript | subscript | smallCaps | note => exact wrapped_follows known _ j
  | lineBlock =>
    exact fun s => run_lift fun items => run_part (Follows.mapM (inlines_follows known) items s) fun parts => rfl
  | orderedList => exact orderedList_follows known j
  | bulletList => exact fun s => run_map (blockLists_follows known j s) fun parts => rfl
  | definitionList =>
    exact fun s => run_lift fun items => run_part (Follows.mapM (definition_follows known) items s) fun parts => rfl
  | header => exact header_follows known j
  | table => exact table_follows known j
  | figure => exact figure_follows known j
  | div => exact box_follows known .div j
  | span => exact box_follows known .span j
  | quoted => exact quoted_follows known j
  | cite => exact cite_follows known j
  | link => exact target_follows known .link j
  | image => exact target_follows known .image j
  | codeBlock => exact verbatim_follows j .codeBlock
  | code => exact verbatim_follows j .code
  | rawBlock => exact raw_follows j .rawBlock
  | rawInline => exact raw_follows j .rawInline
  | math => exact math_follows j
  | metaString => exact leafText_follows j .metaString
  | str => exact leafText_follows j .str
  | metaBool => exact metaBool_follows j
  | document | list | horizontalRule | null | space | softBreak | lineBreak => exact fun s => rfl

theorem shape_follows (j : Json) : Follows (shape child' j) addShape (shape child j) := by
  have inside {kind : Kind} {y : Loading StoredElement} {x : Decoded (Shape Node)} (follows : Follows y addShape x) :
      Follows (inElement kind y) addShape (inElement kind x) := by
    intro s
    change tryCatch (y s) _ = _
    rw [follows s]
    cases x with
    | ok e => rfl
    | error fault => cases fault <;> rfl
  intro s
  cases j with
  | obj members =>
    rw [shape, shape]
    cases Mapping.get? "t" members with
    | none => rfl
    | some tag => exact run_lift fun kind => inside (contents_follows known kind _) s
  | _ => rfl

end

theorem load_eq (e : Shape Node) : Store.load (.mk e) = addShape e >>= Store.newElement := by
  have sequences : (fun ns : List Node => Store.loadSequence (ns.map Store.load)) = loadList := by
    funext ns
    rw [Store.loadSequence, List.mapM_map]
    rfl
  have mappings : (fun m : Mapping Node => Store.loadMapping (m.map fun e => (e.1, Store.load e.2))) =
      loadMetadata := by
    funext m
    rw [Store.loadMapping, List.mapM_map]
    rfl
  rw [addShape, ← sequences, ← mappings, ← Element.traverse_map, Store.load, Node.fold_mapChildren]
  rfl

theorem makeElementWithin_follows (fuel : Nat) (j : Json) :
    Follows (makeElementWithin fuel j : Loading NodeId) Store.load (makeElementWithin fuel j : Decoded Node) := by
  induction fuel generalizing j with
  | zero => exact fun s => rfl
  | succ fuel ih =>
    intro s
    refine run_part (shape_follows ih j s) fun e => ?_
    change _ = pure (Store.load (.mk e) s)
    rw [load_eq]
    rfl

theorem makeElement_follows (j : Json) :
    Follows (makeElement j : Loading NodeId) Store.load (makeElement j : Decoded Node) :=
  makeElementWithin_follows j.height j

section

variable [Versioning]

theorem document_follows (options : Options) (ms : Mapping Json) (value : Json) :
    Follows (document options ms value : Loading NodeId) Store.load (document options ms value : Decoded Node) := by
  have body (v : List Int) : Follows (body v ms : Loading NodeId) Store.load (body v ms : Decoded Node) := by
    intro s
    rw [Codec.body, Codec.body]
    cases Mapping.get? "blocks" ms with
    | none => rfl
    | some content =>
      refine run_part (blocks_follows makeElement_follows _ s) fun content => ?_
      refine run_part (mapping_follows makeElement_follows _ _) fun metadata => ?_
      change _ = pure (Store.load (.mk _) s)
      rw [load_eq]
      rfl
  intro s
  refine run_lift fun v => ?_
  cases options.validates with
  | false => exact body v s
  | true => exact run_lift fun _ => body v s

/-- Decoding into the store loads what is decoded. -/
theorem decodeInto_eq (options : Options) (j : Json) (s : Store) :
    decodeInto options j s = (fun t => loadTree t s) <$> decode options j := by
  have root {y : Loading NodeId} {x : Decoded Node} (follows : Follows y Store.load x) :
      (Root.node <$> y) s = (fun t => loadTree t s) <$> Tree.node <$> x := run_map (follows s) fun n => rfl
  rw [decodeInto, decode]
  cases j with
  | obj ms =>
    rw [makeTree, makeTree]
    cases Mapping.get? versionKey ms with
    | none => exact root (makeElement_follows _)
    | some value => exact root (document_follows options ms value)
  | arr items =>
    rw [makeTree, makeTree]
    cases isOldLayout items with
    | true => rfl
    | false => exact run_part (Follows.mapM makeElement_follows items s) fun ns => rfl
  | _ => exact root (makeElement_follows _)

end

end DocTree.Codec
