import DocTree.Proofs.Codec.Faults
import DocTree.Proofs.Codec.Loading
import DocTree.Proofs.Number.Digits
import DocTree.Version.Range
/-!
Which errors leave the decoder. Every malformed value is reported as such, but for two leaks: a number
that is out of range, and a tag that no table can look up where no element encloses it. What else gets out is
no matter of the layout of a value: the errors of the library of versions, a version that is too long to be
held against a range, and a stack without room for the value.
-/

namespace DocTree.Codec

section

variable {α : Type} {good : α → Prop} {l : Layout} {j : Json}

def Reported (l : Layout) (j : Json) (f : Fault) : Prop := Explained l j f ∧ ∀ d, f ≠ .defect d

theorem Reported.refused (r : Refusal) : Reported l j (.refused r) := ⟨.refused r, nofun⟩

theorem Ends.reported {x : Decoded α} (known : Ends good (Explained l j) x)
    (noDefect : ∀ d, x ≠ .error (.defect d)) : Ends good (Reported l j) x := by
  cases x with
  | ok a => exact known
  | error f => exact ⟨known, fun d isDefect => noDefect d (congrArg _ isDefect)⟩

end

/-- A value whose tag no table of kinds can look up. -/
def HasCompoundTag (ms : Mapping Json) (d : Defect) : Prop :=
  (∃ js, ms.get? "t" = some (.arr js) ∧ d = .compoundTag (Json.arr js).typeName) ∨
    ∃ inner, ms.get? "t" = some (.obj inner) ∧ d = .compoundTag (Json.obj inner).typeName

inductive Escapes : Json → Fault → Prop
  | reported {j : Json} {f : Fault} (known : Reported .element j f) : Escapes j f
  | compoundTag {ms : Mapping Json} {d : Defect} (compound : HasCompoundTag ms d) :
    Escapes (.obj ms) (.defect d)

theorem Escapes.explained {j : Json} {f : Fault} (known : Escapes j f) : Explained .element j f := by
  cases known with
  | reported known => exact known.1
  | compoundTag => exact .defect _

theorem Escapes.refused (j : Json) (r : Refusal) : Escapes j (.refused r) := .reported ⟨.refused r, nofun⟩

section

variable {ms : Mapping Json}

theorem kindOf_ends {tag : Json} (isTag : ms.get? "t" = some tag) :
    Ends (fun kind => ms.get? "t" = some (.str kind.name) ∧ kind ≠ .document ∧ kind ≠ .list)
      (Escapes (.obj ms)) (kindOf tag) := by
  cases tag with
  | arr js => exact .compoundTag (.inl ⟨js, isTag, rfl⟩)
  | obj inner => exact .compoundTag (.inr ⟨inner, isTag, rfl⟩)
  | str name =>
    rw [kindOf]
    split
    · next kind found =>
      have isName : kind.name = name := by simpa using List.find?_some found
      have listed : kind ∈ Kind.elements := List.mem_of_find?_eq_some found
      refine ⟨isName ▸ isTag, ?_, ?_⟩
      · rintro rfl
        revert listed
        decide
      · rintro rfl
        revert listed
        decide
    · exact .refused _ _
  | null | bool | int | float => exact .refused _ _

variable {child : Json → Decoded Node} (each : ∀ j, Ends Node.Proper (Explained .element j) (child j))

include each

theorem inElement_ends {kind : Kind} (isTag : ms.get? "t" = some (.str kind.name))
    (inner : kind ≠ .document) (named : kind ≠ .list) :
    Ends (fun e => Node.Proper (.mk e)) (Reported .element (.obj ms))
      (inElement kind (contents child kind (memberOr "c" .null (.obj ms)))) := by
  suffices known : Ends (fun e => Node.Proper (.mk e)) (Explained .element (.obj ms))
      (contents child kind (memberOr "c" .null (.obj ms))) by
    rw [inElement_eq]
    split
    · exact .refused _
    · next noDefect => exact known.reported noDefect
  have proper (e : Shape Node) (known : ShapeOf Node.Proper kind e) : Node.Proper (.mk e) := by
    obtain ⟨rfl, below⟩ := known
    exact .mk inner named below
  cases layout : Layout.ofKind? kind with
  | none =>
    -- A kind without contents ends well, whatever stands in their place.
    cases kind with
    | document => exact absurd rfl inner
    | list => exact absurd rfl named
    | horizontalRule | null | space | softBreak | lineBreak =>
      exact proper _ (.of_sequences [] rfl rfl (List.forall_mem_nil _))
    | _ => cases layout
  | some l =>
    have known := (contents_ends each layout (memberOr "c" .null (.obj ms))).imp proper
    cases found : ms.get? "c" with
    | some c =>
      rw [memberOr, found] at known ⊢
      exact known.weaken fun _ known => known.lift fun _ _ _ _ inside => .contents isTag layout found inside
    | none =>
      rw [memberOr, found] at known ⊢
      refine known.weaken fun _ known => known.lift fun _ _ _ noNull inside => ?_
      exact absurd inside.null noNull

theorem shape_ends (j : Json) :
    Ends (fun e => Node.Proper (.mk e)) (Escapes j) (shape child j) := by
  cases j with
  | obj ms =>
    rw [shape]
    split
    · exact .refused _ _
    · next tag isTag =>
      refine (kindOf_ends isTag).bind ?_
      rintro kind ⟨isName, inner, named⟩
      exact (inElement_ends each isName inner named).weaken fun _ known => .reported known
  | _ => exact .refused _ _

end

theorem elementWithin_ends (fuel : Nat) (j : Json) :
    Ends Node.Proper (Escapes j) (elementWithin fuel j) := by
  induction fuel generalizing j with
  | zero => exact .refused _ _
  | succ fuel ih =>
    have each (j : Json) : Ends Node.Proper (Explained .element j) (elementWithin fuel j) :=
      (ih j).weaken fun _ known => known.explained
    exact (shape_ends each j).map fun _ proper => proper

theorem element_ends (j : Json) : Ends Node.Proper (Escapes j) (element j) := elementWithin_ends _ j

def Layout.document : Layout :=
  record [(versionKey, list whole), ("meta", entries element), ("blocks", elements)]

def Layout.ofRoot : Json → Layout
  | .arr _ => elements
  | .obj ms => if (Mapping.get? versionKey ms).isSome then document else element
  | _ => element

/-- The objects that no element encloses: the root, unless it is a document, the items of a list of
elements, and the blocks and the metadata values of a document. -/
inductive Outermost : Json → Mapping Json → Prop
  | root {ms : Mapping Json} (element : ms.get? versionKey = none) : Outermost (.obj ms) ms
  | item {js : List Json} {ms : Mapping Json} (member : .obj ms ∈ js) : Outermost (.arr js) ms
  | block {root ms : Mapping Json} {js : List Json} (document : (root.get? versionKey).isSome)
    (blocks : root.get? "blocks" = some (.arr js)) (member : .obj ms ∈ js) : Outermost (.obj root) ms
  | metadata {root ms metadata : Mapping Json} {key : Text} (document : (root.get? versionKey).isSome)
    (value : root.get? "meta" = some (.obj metadata)) (member : (key, .obj ms) ∈ metadata) :
    Outermost (.obj root) ms

/-- An error that is no report of a malformed value. -/
inductive Leaks (j : Json) : Fault → Prop
  | infinite {negative : Bool} (stands : Stands .whole (.float (.infinite negative)) (.ofRoot j) j) :
    Leaks j (.overflow .infinite)
  | tooLarge {ms : Mapping Json} {n : Int} (stands : Stands .width (.obj ms) (.ofRoot j) j)
    (isWidth : ms.get? "c" = some (.int n)) (large : Binary64.ofInt? n = none) :
    Leaks j (.overflow .tooLarge)
  | compoundTag {ms : Mapping Json} {d : Defect} (outermost : Outermost j ms)
    (compound : HasCompoundTag ms d) : Leaks j (.defect d)

/-- A document whose version has a number with more digits than are printed. -/
inductive Overlong : Json → Prop
  | version {ms : Mapping Json} {items : List Json} {n : Int} (found : ms.get? versionKey = some (.arr items))
    (part : .int n ∈ items) (long : Number.isShort n = false) : Overlong (.obj ms)

theorem version_ends (j : Json) :
    Ends (fun v => version j = .ok v) (Reported (.list .whole) j) (version j) := by
  have parts : Ends (fun _ => True) (Reported (.list .whole) j) (version j) := by
    cases j with
    | arr items =>
      have each : ∀ part ∈ items, Ends (fun _ => True) (Explained (.list .whole) (.arr items)) (whole part) :=
        fun part member => (whole_ends part).weaken (Explained.item member)
      have known := (Ends.mapM each).imp fun _ _ => trivial
      rw [version, listOf_arr, ok_bind]
      split
      · exact .refused _
      · next noDefect => exact known.reported noDefect
    | _ => exact .refused _
  cases known : version j with
  | ok v => rfl
  | error f =>
    rw [known] at parts
    exact parts

theorem whole_short {j : Json} {n : Int} (isRead : whole j = .ok n) :
    j = .int n ∨ Number.isShort n = true := by
  cases j with
  | int m => exact .inl (congrArg Json.int (Except.ok.inj isRead))
  | bool b =>
    obtain rfl := Except.ok.inj isRead
    cases b <;> exact .inr rfl
  | str t =>
    rw [whole] at isRead
    split at isRead
    · next m isInt =>
      obtain rfl := Except.ok.inj isRead
      exact .inr (Number.isShort_readInt isInt)
    · cases isRead
  | float x =>
    cases x with
    | nan => cases isRead
    | infinite => cases isRead
    | finite negative exponent fraction =>
      rw [whole] at isRead
      split at isRead
      · next m isWhole =>
        obtain rfl := Except.ok.inj isRead
        exact .inr (Number.isShort_truncate isWhole)
      · cases isRead
      · intro _ impossible
        cases impossible
  | null | arr | obj => cases isRead

theorem version_ok {value : Json} {v : List Int} (isVersion : version value = .ok v) :
    ∃ items, value = .arr items ∧ items.mapM whole = .ok v := by
  cases value with
  | arr items =>
    rw [version, listOf_arr, ok_bind] at isVersion
    split at isVersion
    · cases isVersion
    · exact ⟨items, rfl, isVersion⟩
  | _ => cases isVersion

theorem version_overlong {ms : Mapping Json} {value : Json} {v : List Int}
    (found : ms.get? versionKey = some value) (isVersion : version value = .ok v)
    (long : v.all Number.isShort = false) : Overlong (.obj ms) := by
  obtain ⟨items, rfl, read⟩ := version_ok isVersion
  have each (j : Json) (part : j ∈ items) :
      Ends (fun n => .int n ∈ items ∨ Number.isShort n = true) (fun _ => True) (whole j) := by
    cases isRead : whole j with
    | error f => trivial
    | ok n =>
      rcases whole_short isRead with rfl | short
      · exact .inl part
      · exact .inr short
  have known := Ends.mapM each
  rw [read] at known
  obtain ⟨n, member, notShort⟩ := List.all_eq_false.mp long
  rcases known n member with part | short
  · exact .version found part (Bool.eq_false_iff.mpr notShort)
  · exact absurd short notShort

section

variable [Versioning]

/-- The library fails to hold the version of a document against the range of the options. -/
inductive Unchecked (options : Options) : Json → Foreign → Prop
  | document {ms : Mapping Json} {value : Json} {v : List Int} {w : Versioning.Version} {c : Foreign}
    (found : ms.get? versionKey = some value) (isVersion : version value = .ok v)
    (isRead : Versioning.version? (versionText v) = some w) (checks : options.validates = true)
    (fails : Versioning.contains options.range w = .error c) : Unchecked options (.obj ms) c

inductive Failure (options : Options) (j : Json) : Fault → Prop
  | refused (r : Refusal) : Failure options j (.refused r)
  | leaks {f : Fault} (leaks : Leaks j f) : Failure options j f
  | library {c : Foreign} (unchecked : Unchecked options j c) : Failure options j (.library c)
  | unprintable (overlong : Overlong j) : Failure options j .unprintable

section

variable {options : Options} {j : Json} {f : Fault}

theorem Reported.failure {l : Layout} {j' : Json} (known : Reported l j' f)
    (up : ∀ place v, Stands place v l j' → Stands place v (.ofRoot j) j) : Failure options j f := by
  obtain ⟨known, noDefect⟩ := known
  cases known with
  | defect d => exact absurd rfl (noDefect d)
  | refused r => exact .refused r
  | infinite stands => exact .leaks (.infinite (up _ _ stands))
  | tooLarge stands isWidth large => exact .leaks (.tooLarge (up _ _ stands) isWidth large)

theorem Escapes.failure {j' : Json} (known : Escapes j' f)
    (up : ∀ place v, Stands place v .element j' → Stands place v (.ofRoot j) j)
    (outermost : ∀ ms, j' = .obj ms → Outermost j ms) : Failure options j f := by
  cases known with
  | reported known => exact known.failure up
  | compoundTag compound => exact .leaks (.compoundTag (outermost _ rfl) compound)

end

theorem checkVersion_ends {options : Options} {ms : Mapping Json} {value : Json} {v : List Int}
    (found : ms.get? versionKey = some value) (isVersion : version value = .ok v)
    (checks : options.validates = true) :
    Ends (fun _ => True) (Failure options (.obj ms)) (checkVersion options v) := by
  rw [checkVersion]
  split
  · split
    · exact .refused _
    · next w isRead =>
      split
      · trivial
      · exact .refused _
      · next c fails => exact .library (.document found isVersion isRead checks fails)
  · next long => exact .unprintable (version_overlong found isVersion (Bool.eq_false_iff.mpr long))

theorem blocks_fail {options : Options} {ms : Mapping Json} {content : Json}
    (document : (ms.get? versionKey).isSome) (isContent : ms.get? "blocks" = some content) :
    Ends (fun ns => ∀ n ∈ ns, n.Proper) (Failure options (.obj ms)) (blocks element content) := by
  have layout : Layout.ofRoot (.obj ms) = .document := if_pos document
  cases content with
  | arr items =>
    rw [blocks, elements_eq]
    refine Ends.mapM fun j member => (element_ends j).weaken fun _ known => known.failure ?_ ?_
    · intro place v inside
      exact layout ▸ .field (.tail _ (.tail _ (.head _))) isContent (.item member inside)
    · rintro inner rfl
      exact .block document isContent member
  | _ => exact .refused _

theorem metadata_fail {options : Options} {ms : Mapping Json} (document : (ms.get? versionKey).isSome) :
    Ends (fun m => ∀ entry ∈ m, entry.2.Proper) (Failure options (.obj ms))
      (mapping element ((ms.get? "meta").getD (.obj []))) := by
  have layout : Layout.ofRoot (.obj ms) = .document := if_pos document
  cases found : ms.get? "meta" with
  | none => exact nofun
  | some metadata =>
    cases metadata with
    | obj entries =>
      rw [Option.getD_some, mapping_obj]
      refine Ends.mapM fun e member => ?_
      have value : Ends Node.Proper (Failure options (.obj ms)) (element e.2) := by
        refine (element_ends e.2).weaken fun _ known => known.failure ?_ ?_
        · intro place v inside
          exact layout ▸ .field (.tail _ (.head _)) found (.value member inside)
        · intro inner isObject
          obtain ⟨key, j⟩ := e
          obtain rfl : j = .obj inner := isObject
          exact .metadata document found member
      exact value.bind fun _ proper => proper
    | _ => exact .refused _

theorem body_ends (options : Options) {ms : Mapping Json} (document : (ms.get? versionKey).isSome)
    (v : List Int) :
    Ends (fun n => Tree.Proper (.node n)) (Failure options (.obj ms)) (body v ms) := by
  unfold body
  split
  · exact .refused _
  · next content isContent =>
    refine (blocks_fail document isContent).bind fun ns contentProper => ?_
    refine (metadata_fail document).bind fun m metadataProper => ⟨by rintro ⟨⟩, fun n inside => ?_⟩
    obtain ⟨slot, own, member⟩ := List.mem_flatMap.mp inside
    simp only [Element.slots, List.mem_cons, List.not_mem_nil, or_false] at own
    rcases own with rfl | rfl
    · obtain ⟨entry, inEntries, rfl⟩ := List.mem_map.mp member
      exact metadataProper entry inEntries
    · exact contentProper n member

theorem document_ends (options : Options) {ms : Mapping Json} {value : Json}
    (found : ms.get? versionKey = some value) :
    Ends Tree.Proper (Failure options (.obj ms)) (decode options (.obj ms)) := by
  rw [decode_document options found]
  refine Ends.map ?_ fun (n : Node) (proper : Tree.Proper (.node n)) => proper
  have isDocument : (ms.get? versionKey).isSome := Option.isSome_of_eq_some found
  have layout : Layout.ofRoot (.obj ms) = .document := if_pos isDocument
  refine ((version_ends value).weaken fun f known => ?_).bind fun v isVersion => ?_
  · exact known.failure fun place v inside => layout ▸ .field (.head _) found inside
  have content := body_ends options isDocument v
  by_cases checks : options.validates = true
  · rw [if_pos checks]
    exact (checkVersion_ends found isVersion checks).bind fun _ _ => content
  · rw [if_neg checks]
    exact content

theorem rootElement_ends (options : Options) {j : Json} (layout : Layout.ofRoot j = .element)
    (outermost : ∀ ms, j = .obj ms → Outermost j ms) :
    Ends Tree.Proper (Failure options j) (.node <$> element j) := by
  have known : Ends Node.Proper (Failure options j) (element j) :=
    (element_ends j).weaken fun _ known => known.failure (fun _ _ inside => layout ▸ inside) outermost
  refine known.map fun n proper => ?_
  cases proper with
  | mk inner named below => exact ⟨named, below⟩

/-- However a value is laid out, decoding it gives a tree or ends in one of the known ways. -/
theorem decode_ends (options : Options) (j : Json) :
    Ends Tree.Proper (Failure options j) (decode options j) := by
  cases j with
  | obj ms =>
    cases found : Mapping.get? versionKey ms with
    | some value => exact document_ends options found
    | none =>
      rw [decode_element options found]
      refine rootElement_ends options (if_neg (by simp [found])) ?_
      rintro _ ⟨⟩
      exact .root found
  | arr items =>
    rw [decode_arr]
    split
    · exact .refused _
    · refine (Ends.mapM fun j member => (element_ends j).weaken fun _ known => ?_).map fun _ proper => proper
      refine known.failure (fun _ _ inside => .item member inside) ?_
      rintro ms rfl
      exact .item member
  | null | bool | int | float | str => exact rootElement_ends options rfl (by rintro _ ⟨⟩)

theorem decode_proper {options : Options} {j : Json} {t : Tree} (decoded : decode options j = .ok t) :
    t.Proper := by
  have ends := decode_ends options j
  rw [decoded] at ends
  exact ends

theorem load_ok [Stack] {options : Options} {j : Json} {s s' : Store} {root : Root}
    (loaded : load options j s = .ok (root, s')) :
    ∃ t, decode options j = .ok t ∧ Store.loadTree t s = (root, s') := by
  cases room : Stack.decodes j with
  | true =>
    rw [load, if_pos room, decodeInto_eq] at loaded
    exact of_map_ok loaded
  | false =>
    rw [load, if_neg (Bool.eq_false_iff.mp room)] at loaded
    cases loaded

/-- Decoding into the store fails as decoding does, unless there is no room for it. -/
theorem load_error [Stack] {options : Options} {j : Json} {s : Store} {f : Fault}
    (failed : load options j s = .error f) :
    decode options j = .error f ∨ f = .recursion ∧ Stack.decodes j = false := by
  cases room : Stack.decodes j with
  | true =>
    rw [load, if_pos room, decodeInto_eq] at failed
    cases ending : decode options j with
    | ok t =>
      rw [ending] at failed
      cases failed
    | error f' =>
      rw [ending] at failed
      exact .inl (congrArg Except.error (Except.error.inj failed))
  | false =>
    rw [load, if_neg (Bool.eq_false_iff.mp room)] at failed
    exact .inr ⟨(Except.error.inj failed).symm, rfl⟩

/-- The decoder adds a tree to the store, or reports a malformed value, or a number that is out of range leaks, or a
tag that no table can look up, or the library of versions fails, or a version has too many digits, or there is no
room for the value. -/
theorem decode_or_known_failure [Stack] (options : Options) (j : Json) (s : Store) :
    (∃ t : Tree, t.Proper ∧ load options j s = .ok (Store.loadTree t s)) ∨
      (∃ r, load options j s = .error (.refused r)) ∨
      (∃ f, load options j s = .error f ∧ Leaks j f) ∨
      (∃ c, load options j s = .error (.library c) ∧ Unchecked options j c) ∨
      load options j s = .error .unprintable ∧ Overlong j ∨
      load options j s = .error .recursion ∧ Stack.decodes j = false := by
  cases ending : load options j s with
  | ok result =>
    obtain ⟨t, decoded, loaded⟩ := load_ok ending
    exact .inl ⟨t, decode_proper decoded, congrArg Except.ok loaded.symm⟩
  | error f =>
    refine .inr ?_
    rcases load_error ending with failed | ⟨rfl, full⟩
    · have known := decode_ends options j
      rw [failed] at known
      cases known with
      | refused r => exact .inl ⟨r, rfl⟩
      | leaks leaks => exact .inr (.inl ⟨f, rfl, leaks⟩)
      | library unchecked => exact .inr (.inr (.inl ⟨_, rfl, unchecked⟩))
      | unprintable overlong => exact .inr (.inr (.inr (.inl ⟨rfl, overlong⟩)))
    · exact .inr (.inr (.inr (.inr ⟨rfl, full⟩)))

end

/-- The decoder adds a tree, or reports a malformed value, or leaks what has to do with its layout. -/
def ReportedOrLeaked [Versioning] [Stack] (options : Options) (j : Json) : Prop :=
  (∃ result, load options j .empty = .ok result) ∨ (∃ r, load options j .empty = .error (.refused r)) ∨
    ∃ f, load options j .empty = .error f ∧ Leaks j f

/-- Emphases in emphases, in a list. -/
def emphases : Nat → Json
  | 0 => .arr []
  | depth + 1 => .arr [.obj [("t", .str "Emph"), ("c", emphases depth)]]

theorem le_height_emphases (depth : Nat) : depth < (emphases depth).height := by
  induction depth with
  | zero => decide
  | succ depth ih =>
    have inObject : (emphases depth).height < (Json.obj [("t", .str "Emph"), ("c", emphases depth)]).height :=
      height_lt_obj (.tail (_, _) (.head _))
    have inList : _ < (emphases (depth + 1)).height := height_lt_arr List.mem_cons_self
    omega

section

attribute [local instance] Versioning.ofClauses

/-- Options with a range that reads well, where a letter is only taken for an ASCII letter. -/
def borrowingOptions : Options :=
  { Options.default with
    supported := .str "~=1.22.po\u017ft1"
    range := [.faulty .borrowedLetter]
    reads := by rfl }

def emptyDocument : Json :=
  .obj [("pandoc-api-version", .arr [.int 1, .int 23, .int 1]), ("meta", .obj []), ("blocks", .arr [])]

/-- Two more errors get out: what the library of versions raises when a version is held against a range, and, however
much room there is on the stack, that there is none for some value. -/
theorem other_errors_escape :
    ¬@ReportedOrLeaked _ .unbounded borrowingOptions emptyDocument ∧
      ∀ depth, ¬@ReportedOrLeaked _ (.ofDepth depth) .default (emphases depth) := by
  refine ⟨?_, fun depth => ?_⟩
  · have ending : @load _ .unbounded borrowingOptions emptyDocument .empty =
        .error (.library ClauseFault.borrowedLetter.toForeign) := rfl
    unfold ReportedOrLeaked
    rw [ending]
    rintro (⟨result, ⟨⟩⟩ | ⟨r, ⟨⟩⟩ | ⟨f, ⟨⟩, ⟨⟩⟩)
  · have noRoom : ¬(emphases depth).height ≤ depth := Nat.not_le_of_lt (le_height_emphases depth)
    have full : (Stack.ofDepth depth).decodes (emphases depth) = false := decide_eq_false noRoom
    have ending : @load _ (.ofDepth depth) .default (emphases depth) .empty = .error .recursion := by
      unfold load
      rw [full]
      rfl
    unfold ReportedOrLeaked
    rw [ending]
    rintro (⟨result, ⟨⟩⟩ | ⟨r, ⟨⟩⟩ | ⟨f, ⟨⟩, ⟨⟩⟩)

end

end DocTree.Codec
