import DocTree.Proofs.Filter.Encodable
import DocTree.Proofs.Json.Compact
import DocTree.Proofs.Json.Scalars
import DocTree.Proofs.Pipe.Writing
import DocTree.Proofs.Text.Utf8
/-!
A tree is written as one line, whatever its strings are. The line has one line feed, at its end. Where bytes of
UTF-8 are needed nothing is written of a line with a surrogate; it has one only if a string has, and never with
escapes.
-/

namespace DocTree

/-- There is one line feed, at the end, and no other control character. -/
def Chunk.IsLine : Chunk → Prop
  | .text t => ∃ body : Text, t = body ++ "\n" ∧ ∀ c ∈ body, 0x20 ≤ c.val
  | .bytes bs => ∃ body : Bytes, bs = body ++ [0x0A] ∧ ∀ b ∈ body, 0x20 ≤ b.toNat

namespace Encoding

theorem encodeUtf8_line {t : Text} {bs : Bytes} (noControl : ∀ c ∈ t, 0x20 ≤ c.val)
    (encoded : encodeUtf8 (t ++ "\n") = .ok bs) : (Chunk.bytes bs).IsLine := by
  have scalar := encodeUtf8_ok_iff.mp ⟨bs, encoded⟩
  rw [encodeUtf8_scalar scalar] at encoded
  refine ⟨t.flatMap utf8Bytes, ?_, fun b member => ?_⟩
  · rw [← Except.ok.inj encoded, List.flatMap_append]
    rfl
  · obtain ⟨c, inside, own⟩ := List.mem_flatMap.mp member
    exact utf8Bytes_low (by decide) (noControl c inside) b own

end Encoding

theorem Output.Takes.isLine {output : Output} {t : Text} {chunk : Chunk} (noControl : ∀ c ∈ t, 0x20 ≤ c.val)
    (takes : output.Takes (t ++ "\n") chunk) : chunk.IsLine := by
  cases output with
  | text =>
    cases takes
    exact ⟨t, rfl, noControl⟩
  | utf8 =>
    obtain ⟨rfl, -⟩ := takes
    exact ⟨t, rfl, noControl⟩
  | bytes =>
    obtain ⟨bs, encoded, rfl⟩ := takes
    exact Encoding.encodeUtf8_line noControl encoded

theorem Filter.insertsInner_single {ε σ : Type} {fuel : Nat} {handler : Handler (Action ε σ)} {root : Root}
    {format : Json} {metadata : Option MappingId} {w : World σ}
    (inner : Walk.InsertsInner (handler.perform (occasionOf root format metadata w)) root
      (prepared root metadata w).2) :
    InsertsInner fuel ⟨[handler]⟩ root format metadata w := by
  intro before other after w' eq applied
  cases before with
  | nil =>
    obtain rfl : (prepared root metadata w).2 = w' := by
      rw [apply_eq] at applied
      exact congrArg Prod.snd applied
    obtain ⟨rfl, -⟩ := List.cons.inj eq
    exact inner
  | cons _ before => exact absurd (List.cons.inj eq).2.symm (by simp)

namespace Pipe

variable {ε σ : Type}

theorem takes_iff {output : Output} {t : Text} :
    (∃ chunk, output.Takes t chunk) ↔ output = .text ∨ t.Scalar := by
  cases output with
  | text => exact ⟨fun _ => .inl rfl, fun _ => ⟨.text t, rfl⟩⟩
  | utf8 =>
    rw [← Encoding.encodeUtf8_ok_iff]
    exact ⟨fun ⟨_, _, encoded⟩ => .inr encoded, fun h => ⟨.text t, rfl, h.resolve_left nofun⟩⟩
  | bytes =>
    rw [← Encoding.encodeUtf8_ok_iff]
    constructor
    · rintro ⟨_, bs, encoded, -⟩
      exact .inr ⟨bs, encoded⟩
    · intro h
      obtain ⟨bs, encoded⟩ := h.resolve_left nofun
      exact ⟨.bytes bs, bs, encoded, rfl⟩

theorem scalar_line {t : Text} : Text.Scalar (t ++ "\n") ↔ t.Scalar := by
  rw [Text.scalar_append]
  exact and_iff_left (Text.scalar_ofString "\n")

section

variable [Versioning]

/-- How a tree is written, for all options and outputs: its JSON text is on one line, which is delivered in one
go. If an output needs bytes and the line has none, the failure leaves all as it is. -/
structure WritesLine (ε : Type) (root : Root) (before : Progress σ) (j : Json) : Prop where
  encodes : Codec.encode (before.world.store.tree root) = .ok j
  compact : ∀ ascii, Json.Compact ascii (j.write ascii)
  delivers : ∀ (options : Options) (output : Output), output = .text ∨ (j.write options.writesAscii).Scalar →
    ∃ chunk, output.Takes (j.write options.writesAscii ++ "\n") chunk ∧ chunk.IsLine ∧
      (write options output root : Running ε σ Text).run before =
        (.ok (j.write options.writesAscii ++ "\n"), { before with written := before.written ++ [chunk] })
  refuses : ∀ (options : Options) (output : Output), output ≠ .text → ¬ (j.write options.writesAscii).Scalar →
    ∃ fault, (write options output root : Running ε σ Text).run before = (.error (.encoding fault), before)
  scalar : ∀ ascii, ascii = true ∨ (∀ t, j.HasText t → t.Scalar) → (j.write ascii).Scalar

theorem writesLine {root : Root} {before : Progress σ} {j : Json}
    (encodes : Codec.encode (before.world.store.tree root) = .ok j) : WritesLine ε root before j := by
  refine ⟨encodes, fun ascii => Json.compact_write ascii j, fun options output known => ?_,
    fun options output needed surrogate => ?_, fun ascii known => ?_⟩
  · obtain ⟨chunk, takes⟩ := takes_iff.mpr (known.imp_right scalar_line.mpr)
    refine ⟨chunk, takes, takes.isLine (Json.compact_write options.writesAscii j).noControl, ?_⟩
    exact write_ok_iff.mpr ⟨j, chunk, encodes, rfl, takes, rfl⟩
  · cases given : deliver output (j.write options.writesAscii ++ "\n") with
    | ok chunk =>
      rcases takes_iff.mp ⟨chunk, deliver_eq_ok_iff.mp given⟩ with isText | scalar
      · exact absurd isText needed
      · exact absurd (scalar_line.mp scalar) surrogate
    | error fault =>
      refine ⟨fault, ?_⟩
      rw [write_run, delivery_of_line (line_eq_ok_iff.mpr ⟨j, encodes, rfl⟩), given]
      rfl
  · rcases known with rfl | texts
    · exact Json.scalar_of_ascii (Json.compact_write true j)
    · exact Json.scalar_of_texts ascii texts

/-- A tree that is decoded, and one that a walk or a filter leaves of it whose actions insert and return nodes
without documents and leave the tree without a cycle, is written on one line. -/
theorem tree_on_one_line :
    (∀ (options : Options) (j : Json) (t : Tree), Codec.decode options j = .ok t → ∀ s : Store,
      (Store.loadTree t s).2.Proper (Store.loadTree t s).1 ∧
      (∀ n, t = .node n → n.element.kind ≠ .document →
        (Store.load n s).2.AllBelow (Store.load n s).2.Inner (Store.load n s).1) ∧
      ∀ (ε σ : Type) (before : Progress σ), before.world.store = (Store.loadTree t s).2 →
        ∃ j, WritesLine ε (Store.loadTree t s).1 before j) ∧
    (∀ {ε σ : Type} (action : NodeId → Effect ε σ Reply) (root : Root) (w : World σ),
      w.store.Proper root → Walk.InsertsInner action root w →
      ∀ fuel result w', Walk.transform fuel action root w = (result, w') → w'.store.Proper root ∧
        ∀ before : Progress σ, before.world = w' → ∃ j, WritesLine ε root before j) ∧
    ∀ {ε σ : Type} (f : Filter (Action ε σ)) (root : Root) (format : Json)
      (metadata : Option MappingId) (w : World σ) (fuel : Nat),
      w.store.Proper root → Filter.InsertsInner fuel f root format metadata w →
      ∀ result w', f.apply fuel root format metadata w = (result, w') → w'.store.Proper root ∧
        ∀ before : Progress σ, before.world = w' → ∃ j, WritesLine ε root before j := by
  have written (ε : Type) {σ : Type} {root : Root} (before : Progress σ)
      (proper : before.world.store.Proper root) : ∃ j, WritesLine ε root before j := by
    obtain ⟨j, encodes⟩ := proper.encodes
    exact ⟨j, writesLine encodes⟩
  refine ⟨?_, ?_, ?_⟩
  · intro options j t isRead s
    have proper := Store.loadTree_proper (Codec.decode_proper isRead) s
    refine ⟨proper, ?_, fun ε σ before same => written ε before (same ▸ proper)⟩
    rintro n rfl isInner
    exact Store.load_inner (Codec.decode_proper isRead) isInner s
  · intro ε σ action root w proper inner fuel result w' walked
    have kept := inner.transform proper fuel
    rw [walked] at kept
    refine ⟨kept, ?_⟩
    rintro before rfl
    exact written ε before kept
  · intro ε σ f root format metadata w fuel proper inner result w' applied
    have kept := inner.apply proper
    rw [applied] at kept
    refine ⟨kept, ?_⟩
    rintro before rfl
    exact written ε before kept

end

/-! A text by itself, about to be written. -/

section

attribute [local instance] Versioning.ofClauses

def textAlone (t : Text) : Progress Nat := ⟨[], true, ⟨.ofElements [.text .str t] [] [], 0⟩, []⟩

/-- A text with a line feed, a quotation mark and a line separator is written on one line, and so are the words
to which a walk and a filter have added marks. -/
theorem separators_on_one_line :
    (Codec.decode .default (.obj [("t", .str "Str"), ("c", .str [0x0A, 0x22, 0x2028])]) =
        .ok (.node (.mk (.text .str [0x0A, 0x22, 0x2028]))) ∧
      ∃ j, WritesLine Empty (.node ⟨0⟩) (textAlone [0x0A, 0x22, 0x2028]) j) ∧
    ((Filter.shouted [⟨0⟩]).Proper (.list ⟨1⟩) ∧
      Walk.InsertsInner Filter.shout (.list ⟨1⟩) ⟨Filter.shouted [⟨0⟩], 0⟩ ∧
      ∃ j, WritesLine Unit (.list ⟨1⟩) ⟨[], true, ⟨Filter.shouted [⟨1⟩, ⟨0⟩, ⟨1⟩], 3⟩, []⟩ j) ∧
    Filter.InsertsInner 20 ⟨[.plain ⟨"shout", "function", fun _ => Filter.shout⟩]⟩ (.list ⟨1⟩) .null (some ⟨0⟩)
      ⟨Filter.shouted [⟨0⟩], 0⟩ ∧
    (Filter.shouted [⟨1⟩, ⟨0⟩, ⟨1⟩]).Proper (.list ⟨1⟩) := by
  obtain ⟨onReading, onWalks, onFilters⟩ := tree_on_one_line
  have isRead : Codec.decode .default (.obj [("t", .str "Str"), ("c", .str [0x0A, 0x22, 0x2028])]) =
      .ok (.node (.mk (.text .str [0x0A, 0x22, 0x2028]))) := rfl
  have proper := Filter.shouted_proper [⟨0⟩] (by decide)
  have filtered : Filter.InsertsInner 20 ⟨[.plain ⟨"shout", "function", fun _ => Filter.shout⟩]⟩ (.list ⟨1⟩)
      .null (some ⟨0⟩) ⟨Filter.shouted [⟨0⟩], 0⟩ := Filter.insertsInner_single Filter.shout_inserts
  have alone := (onReading .default _ _ isRead .empty).2.2 Empty Nat (textAlone [0x0A, 0x22, 0x2028]) rfl
  have walked := (onWalks Filter.shout (.list ⟨1⟩) _ proper Filter.shout_inserts 20 _ _ rfl).2
    ⟨[], true, ⟨Filter.shouted [⟨1⟩, ⟨0⟩, ⟨1⟩], 3⟩, []⟩ rfl
  exact ⟨⟨isRead, alone⟩, ⟨proper, Filter.shout_inserts, walked⟩, filtered,
    (onFilters _ _ .null (some ⟨0⟩) _ 20 proper filtered _ _ rfl).1⟩

/-- Of a text that is a surrogate, nothing is written where bytes are needed. -/
theorem surrogate_not_written :
    Codec.decode .default (.obj [("t", .str "Str"), ("c", .str [0xD800])]) =
      .ok (.node (.mk (.text .str [0xD800]))) ∧
    Store.loadTree (.node (.mk (.text .str [0xD800]))) .empty = (.node ⟨0⟩, (textAlone [0xD800]).world.store) ∧
    (textAlone [0xD800]).written = [] ∧
    ∃ fault, (write .default .bytes (.node ⟨0⟩) : Running Empty Nat Text).run (textAlone [0xD800]) =
      (.error (.encoding fault), textAlone [0xD800]) :=
  ⟨rfl, rfl, rfl, _, rfl⟩

end

end Pipe

end DocTree
