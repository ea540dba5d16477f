import DocTree.Json.Writer
import DocTree.Proofs.Codec.Held
import DocTree.Proofs.Codec.Keyed
/-!
Values and trees in which every number has a text. What is read has no number with too many digits in it, and
decoding makes no number longer: a tree that is decoded from what is read can be printed.
-/

namespace DocTree

namespace Json

variable {i j : Json}

def Printable (j : Json) : Prop := j.isPrintable = true

theorem printable_arr {js : List Json} : (arr js).Printable ↔ ∀ j ∈ js, j.Printable := by
  rw [Printable, isPrintable]
  induction js with
  | nil => simp [arePrintable]
  | cons j rest ih => simp [arePrintable, ih, Printable]

theorem printable_obj {ms : Mapping Json} : (obj ms).Printable ↔ ∀ entry ∈ ms, entry.2.Printable := by
  rw [Printable, isPrintable]
  induction ms with
  | nil => simp [havePrintable]
  | cons entry rest ih => simp [havePrintable, ih, Printable]

theorem Printable.inside (printable : j.Printable) (within : i.Inside j) : i.Printable := by
  induction within with
  | item member => exact printable_arr.mp printable _ member
  | value member same => exact same ▸ printable_obj.mp printable _ member
  | inItem member _ ih => exact ih (printable_arr.mp printable _ member)
  | inValue member _ ih => exact ih (printable_obj.mp printable _ member)

theorem printable_readable : Readable Printable where
  str _ := rfl
  arr items := printable_arr.mpr items
  obj members := printable_obj.mpr (Mapping.ofPairs_good members).2
  word := by simp [Reader.words, Printable, isPrintable]
  int short := short
  float _ := rfl

end Json

namespace Codec

open Json (Printable)

theorem printable_hereditary : Hereditary Printable fun _ => True where
  null := rfl
  bool _ := rfl
  word _ := rfl
  arr := Json.printable_arr
  obj _ := Json.printable_obj
  words _ _ := trivial

section

variable {α β : Type} {good : α → Prop} {good' : β → Prop} {j : Json} {x : Decoded α}

/-- If decoding comes to a result, it is a good one. -/
abbrev Yields (good : α → Prop) (x : Decoded α) : Prop := Ends good (fun _ => True) x

theorem Yields.anything (x : Decoded α) : Yields (fun _ => True) x := by
  cases x <;> trivial

theorem Yields.of_ends {bad : Fault → Prop} (known : Ends good bad x) : Yields good x :=
  known.weaken fun _ _ => trivial

/-- What a step comes to does not matter for the result. -/
theorem Yields.skip {next : α → Decoded β} (later : ∀ a, Yields good' (next a)) : Yields good' (x >>= next) :=
  (Yields.anything x).bind fun a _ => later a

theorem Yields.items {read : Json → Decoded α} {what : Text} (printable : j.Printable)
    (each : ∀ i : Json, i.Printable → Yields good (read i)) :
    Yields (fun as => ∀ a ∈ as, good a) (do (← listOf what j).mapM read) := by
  refine (Yields.of_ends (listOf_ends what j)).bind fun items isList => ?_
  subst isList
  exact Ends.mapM fun i member => each i (Json.printable_arr.mp printable i member)

end

section

variable {child : Json → Decoded Node} {j : Json}

theorem printable_parts {js : List Json} (printable : j.Printable) (parts : sequence? j = some js) :
    ∀ i ∈ js, i.Printable := by
  cases j with
  | arr items =>
    cases parts
    exact Json.printable_arr.mp printable
  | str t =>
    cases parts
    exact List.forall_mem_map.mpr fun c _ => rfl
  | obj ms =>
    cases parts
    exact List.forall_mem_map.mpr fun entry _ => rfl
  | null | bool | int | float => cases parts

theorem pair_yields (printable : j.Printable) : Yields (fun p => p.1.Printable ∧ p.2.Printable) (pair j) := by
  refine Yields.of_ends ((pair_ends j).imp fun p parts => ?_)
  have known := printable_parts printable parts
  exact ⟨known _ (.head _), known _ (.tail _ (.head _))⟩

theorem triple_yields (printable : j.Printable) :
    Yields (fun p => p.1.Printable ∧ p.2.1.Printable ∧ p.2.2.Printable) (triple j) := by
  refine Yields.of_ends ((triple_ends j).imp fun p parts => ?_)
  have known := printable_parts printable parts
  exact ⟨known _ (.head _), known _ (.tail _ (.head _)), known _ (.tail _ (.tail _ (.head _)))⟩

theorem unpack_yields (count : Nat) (printable : j.Printable) :
    Yields (fun js => ∀ i ∈ js, i.Printable) (unpack count j) :=
  Yields.of_ends ((unpack_ends count j).imp fun _ known => printable_parts printable known.1)

theorem member_yields (key : Text) (printable : j.Printable) : Yields Printable (member key j) := by
  refine Yields.of_ends ((member_ends key j).imp fun v known => ?_)
  obtain ⟨ms, rfl, found⟩ := known
  exact Json.printable_obj.mp printable _ (Mapping.get?_mem found)

theorem memberOr_printable {key : Text} {absent : Json} (printable : j.Printable) (fallback : absent.Printable) :
    (memberOr key absent j).Printable := memberOr_inside Json.Printable.inside printable fallback

theorem whole_yields (printable : j.Printable) : Yields (fun n => (Json.int n).Printable) (whole j) := by
  cases isRead : whole j with
  | error f => trivial
  | ok n =>
    rcases whole_short isRead with rfl | short
    · exact printable
    · exact short

theorem printable_str (t : Text) : (Json.str t).Printable := rfl

theorem attr_printable (a : Attr) : ∀ j ∈ a.held, j.Printable := by
  simp only [Attr.held, List.forall_mem_append, List.forall_mem_cons, List.forall_mem_map, List.forall_mem_flatMap]
  exact ⟨⟨printable_str _, fun t _ => printable_str t⟩, fun pair _ => by simp [printable_str]⟩

theorem citation_yields (printable : j.Printable) :
    Yields (fun c => ∀ i ∈ c.held, i.Printable) (citation child j) := by
  refine (member_yields "citationId" printable).bind fun id knownId => ?_
  refine Yields.skip fun lead => Yields.skip fun trail => Yields.skip fun mode => Yields.skip fun style => ?_
  have zero : (Json.int 0).Printable := rfl
  refine (whole_yields (memberOr_printable printable zero)).bind fun noteNum knownNum => ?_
  refine (whole_yields (memberOr_printable printable zero)).bind fun hash knownHash => ?_
  have held : ∀ i ∈ [id, .str style, .int noteNum, .int hash], i.Printable := by
    simp [printable_str, knownId, knownNum, knownHash]
  exact held

theorem cell_yields (printable : j.Printable) : Yields (fun c => ∀ i ∈ c.held, i.Printable) (cell child j) := by
  refine (unpack_yields 5 printable).bind fun parts known => ?_
  split
  · next a alignment rowSpan colSpan content =>
    simp only [List.forall_mem_cons] at known
    obtain ⟨_, _, knownRow, knownCol, _⟩ := known
    refine Yields.skip fun content => Yields.skip fun alignment => ?_
    refine (whole_yields knownRow).bind fun rowSpan shortRow => ?_
    refine (whole_yields knownCol).bind fun colSpan shortCol => Yields.skip fun a => ?_
    have own : ∀ i ∈ [Json.str alignment, .int rowSpan, .int colSpan], i.Printable := by
      simp [printable_str, shortRow, shortCol]
    exact List.forall_mem_append.mpr ⟨attr_printable a, own⟩
  · trivial

theorem row_yields (printable : j.Printable) : Yields (fun r => ∀ i ∈ r.held, i.Printable) (row child j) := by
  refine (pair_yields printable).bind fun (a, cells) ⟨_, known⟩ => ?_
  dsimp only
  rw [← bind_assoc]
  refine (Yields.items known fun _ => cell_yields).bind fun cells inCells => Yields.skip fun a => ?_
  exact List.forall_mem_append.mpr ⟨attr_printable a, List.forall_mem_flatMap.mpr inCells⟩

theorem rows_yields (printable : j.Printable) :
    Yields (fun rs => ∀ r ∈ rs, ∀ i ∈ r.held, i.Printable) (rows child j) :=
  Yields.items printable fun _ => row_yields

theorem rowGroup_yields {a : Json} (printable : j.Printable) :
    Yields (fun g => ∀ i ∈ g.held, i.Printable) (rowGroup child a j) := by
  refine (rows_yields printable).bind fun rows inRows => Yields.skip fun a => ?_
  exact List.forall_mem_append.mpr ⟨attr_printable a, List.forall_mem_flatMap.mpr inRows⟩

theorem tableSection_yields (printable : j.Printable) :
    Yields (fun s => ∀ i ∈ s.held, i.Printable) (tableSection child j) := by
  refine (unpack_yields 4 printable).bind fun parts known => ?_
  split
  · next a headColumns head body =>
    simp only [List.forall_mem_cons] at known
    obtain ⟨_, knownColumns, knownHead, knownBody, _⟩ := known
    refine (rows_yields knownBody).bind fun body inBody => (rows_yields knownHead).bind fun head inHead => ?_
    refine (whole_yields knownColumns).bind fun headColumns short => Yields.skip fun a => ?_
    refine List.forall_mem_append.mpr ⟨List.forall_mem_append.mpr ⟨attr_printable a, ?_⟩, ?_⟩
    · exact List.forall_mem_cons.mpr ⟨short, List.forall_mem_flatMap.mpr inHead⟩
    · exact List.forall_mem_flatMap.mpr inBody
  · trivial

theorem column_printable (c : Column) : ∀ i ∈ c.held, i.Printable := by
  have real (x : Binary64) : (Json.float x).Printable := rfl
  simp [Column.held, printable_str, real]

theorem table_yields (printable : j.Printable) :
    Yields (fun e : Shape Node => ∀ i ∈ e.held, i.Printable) (table child j) := by
  refine (unpack_yields 6 printable).bind fun parts known => ?_
  split
  · next a legend columns head sections foot =>
    simp only [List.forall_mem_cons] at known
    obtain ⟨_, _, _, knownHead, knownSections, knownFoot, _⟩ := known
    refine (pair_yields knownHead).bind fun (headAttr, headRows) ⟨_, inHead⟩ => ?_
    refine (pair_yields knownFoot).bind fun (footAttr, footRows) ⟨_, inFoot⟩ => ?_
    refine (rowGroup_yields inHead).bind fun head shortHead => ?_
    rw [← bind_assoc]
    refine (Yields.items knownSections fun _ => tableSection_yields).bind fun sections shortSections => ?_
    refine (rowGroup_yields inFoot).bind fun foot shortFoot => ?_
    refine Yields.skip fun legend => Yields.skip fun columns => Yields.skip fun a => ?_
    have inSections := List.forall_mem_flatMap.mpr shortSections
    have inColumns : ∀ i ∈ columns.flatMap (·.held), i.Printable :=
      List.forall_mem_flatMap.mpr fun c _ => column_printable c
    have held : ∀ i ∈ Table.held ⟨a, legend, columns, head, sections, foot⟩, i.Printable := by
      simp only [Table.held, List.forall_mem_append]
      exact ⟨⟨⟨⟨attr_printable a, inColumns⟩, shortHead⟩, inSections⟩, shortFoot⟩
    exact held
  · trivial

theorem orderedList_yields (printable : j.Printable) :
    Yields (fun e : Shape Node => ∀ i ∈ e.held, i.Printable) (orderedList child j) := by
  refine (pair_yields printable).bind fun (numbering, parts) ⟨known, _⟩ => ?_
  refine (triple_yields known).bind fun (start, style, delimiter) ⟨knownStart, _⟩ => Yields.skip fun parts => ?_
  refine (whole_yields knownStart).bind fun start short => Yields.skip fun style => Yields.skip fun delimiter => ?_
  have held : ∀ i ∈ [Json.int start, .str style, .str delimiter], i.Printable := by simp [printable_str, short]
  exact held

theorem header_yields (printable : j.Printable) :
    Yields (fun e : Shape Node => ∀ i ∈ e.held, i.Printable) (header child j) := by
  refine (triple_yields printable).bind fun (level, a, content) ⟨known, _⟩ => ?_
  refine (whole_yields known).bind fun level short => Yields.skip fun content => Yields.skip fun a => ?_
  exact List.forall_mem_cons.mpr ⟨short, attr_printable a⟩

theorem cite_yields (printable : j.Printable) :
    Yields (fun e : Shape Node => ∀ i ∈ e.held, i.Printable) (cite child j) := by
  refine (pair_yields printable).bind fun (citations, content) ⟨known, _⟩ => ?_
  dsimp only
  rw [← bind_assoc]
  refine (Yields.items known fun _ => citation_yields).bind fun citations short => Yields.skip fun content => ?_
  exact List.forall_mem_flatMap.mpr short

theorem version_yields (printable : j.Printable) :
    Yields (fun v => ∀ n ∈ v, (Json.int n).Printable) (version j) := by
  cases isVersion : version j with
  | error f => trivial
  | ok v =>
    obtain ⟨items, rfl, read⟩ := version_ok isVersion
    have parts := Ends.mapM fun i member => whole_yields (Json.printable_arr.mp printable i member)
    rwa [read] at parts

theorem Overlong.not_printable (overlong : Overlong j) : ¬ j.Printable := by
  rintro printable
  obtain ⟨found, part, long⟩ := overlong
  have items := Json.printable_obj.mp printable _ (Mapping.get?_mem found)
  have short : Number.isShort _ = true := Json.printable_arr.mp items _ part
  rw [long] at short
  cases short

/-- What an element that is decoded holds itself can be printed if its value can. -/
theorem shape_printable {G : Node → Prop} (each : ∀ j, Ends G (Explained .element j) (child j))
    (printable : j.Printable) {e : Shape Node} (read : shape child j = .ok e) : ∀ i ∈ e.held, i.Printable := by
  obtain ⟨ms, rfl, inner, -, read⟩ := shape_read each read
  have known : (memberOr "c" .null (.obj ms)).Printable := memberOr_printable printable rfl
  have result {x : Decoded (Shape Node)} (yields : Yields (fun e => ∀ i ∈ e.held, i.Printable) x)
      (read : x = .ok e) : ∀ i ∈ e.held, i.Printable := by
    rwa [read] at yields
  cases e with
  | document => exact absurd rfl inner
  | orderedList => exact result (orderedList_yields known) read
  | header => exact result (header_yields known) read
  | table => exact result (table_yields known) read
  | cite => exact result (cite_yields known) read
  | figure a | box _ a => exact attr_printable a
  | verbatim _ a => exact List.forall_mem_cons.mpr ⟨rfl, attr_printable a⟩
  | target _ a => exact List.forall_mem_cons.mpr ⟨rfl, List.forall_mem_cons.mpr ⟨rfl, attr_printable a⟩⟩
  | _ => simp [Element.held, printable_str]

/-- Whatever a tree is decoded from, what is in it can be printed if that can. -/
theorem decode_printable [Versioning] {options : Options} {t : Tree} (printable : j.Printable)
    (read : decode options j = .ok t) : (treeJson t).Printable := by
  have step (child : Json → Decoded Node)
      (each : ∀ j, Ends (Node.All (Hereditary.Carries Printable fun _ => True)) (Explained .element j) (child j))
      {j : Json} (printable : j.Printable) {e : Shape Node} (read : shape child j = .ok e) :
      Node.All (Hereditary.Carries Printable fun _ => True) (.mk e) := by
    obtain ⟨ms, -, -, below, -⟩ := shape_read each read
    exact .mk ⟨shape_printable each printable read, fun _ _ => trivial⟩ below
  have origin := decode_readFrom read
  refine printable_hereditary.treeJson ?_
  rcases origin.inherits Json.Printable.inside step printable with
    ⟨n, rfl, known⟩ | ⟨ns, rfl, known⟩ | ⟨entries, v, metadata, blocks, rfl, -, -, below⟩
  · exact known
  · exact known
  · refine .mk ⟨?_, fun _ _ => trivial⟩ below
    cases origin with
    | @element j _ read =>
      have proper := element_ends j
      rw [read] at proper
      cases proper with
      | mk inner => exact absurd rfl inner
    | document found isVersion =>
      have inVersion := Json.printable_obj.mp printable _ (Mapping.get?_mem found)
      have parts := version_yields inVersion
      rw [isVersion] at parts
      exact List.forall_mem_map.mpr parts

end

end Codec

end DocTree
