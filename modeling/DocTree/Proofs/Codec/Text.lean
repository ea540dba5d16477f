import DocTree.Pipe
import DocTree.Proofs.Codec.Held
import DocTree.Proofs.Codec.RoundTrip
import DocTree.Proofs.Json.Scalars
import DocTree.Proofs.Text.Utf8
import DocTree.Version.Range
/-!
Documents as text: what a tree is written as is read back as that tree, from text or from bytes. JSON
text has no form for a lone surrogate or for a number of too many digits, so the tree may not hold any.
-/

namespace DocTree

/-- A mapping without a key twice, and with keys that have a text. -/
def Mapping.Writable {α : Type} (m : Mapping α) : Prop := m.keys.Nodup ∧ ∀ key ∈ m.keys, key.Scalar

/-- A tree in which everything can be carried by JSON text. -/
inductive Node.Portable : Node → Prop
  | mk {e : Element (List Node) (Mapping Node)} (held : ∀ j ∈ e.held, j.Portable)
    (writable : ∀ m, .mapping m ∈ e.slots → m.Writable) (below : ∀ n ∈ e.children, Portable n) :
    Portable (.mk e)

def Tree.Portable : Tree → Prop
  | .node n => n.Portable
  | .list ns => ∀ n ∈ ns, n.Portable

namespace Codec

open Json

theorem portable_hereditary :
    Hereditary Json.Portable fun keys => keys.Nodup ∧ ∀ key ∈ keys, key.Scalar where
  null := .null
  bool := .bool
  word s := .str (Text.scalar_ofString s)
  arr := by
    intro items
    constructor
    · rintro ⟨⟩
      assumption
    · exact .arr
  obj := by
    rintro members ⟨distinct, scalar⟩
    constructor
    · rintro ⟨⟩
      assumption
    · exact .obj distinct fun entry member => scalar _ (List.mem_map_of_mem member)
  words ss distinct := by
    refine ⟨distinct, List.forall_mem_map.mpr fun s _ => ?_⟩
    exact Text.scalar_ofString s

theorem portable_treeJson {t : Tree} (portable : t.Portable) : (treeJson t).Portable := by
  have each {n : Node} (portable : n.Portable) :
      n.All (Hereditary.Carries Json.Portable fun keys => keys.Nodup ∧ ∀ key ∈ keys, key.Scalar) := by
    induction portable with
    | mk held writable _ ih => exact .mk ⟨held, writable⟩ ih
  refine portable_hereditary.treeJson ?_
  cases t with
  | node n => exact each portable
  | list ns => exact fun n member => each (portable n member)

theorem treeJson_start (ascii : Bool) (t : Tree) : ∃ c d more,
    write ascii (treeJson t) = c :: d :: more ∧ 0 < c.val ∧ c.val < 0x80 ∧ 0 < d.val := by
  have object (key : Text) (j : Json) (members : Mapping Json) : ∃ c d more,
      write ascii (obj ((key, j) :: members)) = c :: d :: more ∧ 0 < c.val ∧ c.val < 0x80 ∧ 0 < d.val := by
    obtain ⟨others, start⟩ := Reader.writeMembers_start ascii key j members
    rw [write, start]
    exact ⟨CodePoint.ofChar '\x7b', CodePoint.ofChar '"', _, rfl, by decide, by decide, by decide⟩
  have shape (e : Element (List Json) (Mapping Json)) : ∃ c d more,
      write ascii (shapeJson e) = c :: d :: more ∧ 0 < c.val ∧ c.val < 0x80 ∧ 0 < d.val := object _ _ _
  cases t with
  | list ns =>
    rw [treeJson]
    cases ns with
    | nil =>
      refine ⟨CodePoint.ofChar '[', CodePoint.ofChar ']', [], ?_, by decide, by decide, by decide⟩
      rw [write]
      rfl
    | cons n ns =>
      obtain ⟨d, others, start, -, -, nonzero⟩ :=
        Reader.writeItems_start ascii (elementJson n) (ns.map elementJson)
      rw [List.map_cons, write, start]
      exact ⟨CodePoint.ofChar '[', d, _, rfl, by decide, by decide, nonzero⟩
  | node n =>
    obtain ⟨e⟩ := n
    by_cases root : e.kind = .document
    · obtain ⟨version, metadata, blocks, rfl⟩ := Element.eq_document root
      exact object _ _ _
    · rw [treeJson_element root, elementJson_mk]
      exact shape _

/-- What a tree is written as is read as that tree: from text or from its bytes, with or without the
end of the line, and whether or not characters outside ASCII are escaped. -/
theorem read_written [Versioning] {t : Tree} (proper : t.Proper) (portable : t.Portable) {options : Options}
    (accepted : options.validates = true → ∀ v, t.version? = some v → checkVersion options v = .ok ()) :
    ∃ j, encode t = .ok j ∧ line options t = .ok (j.write options.writesAscii ++ "\n") ∧
      ∀ ending ∈ [([] : Text), "\n"],
        Input.read options (.text (j.write options.writesAscii ++ ending)) = .ok t ∧
        ∃ bs, Encoding.encodeUtf8 (j.write options.writesAscii ++ ending) = .ok bs ∧
          Input.read options (.bytes bs) = .ok t := by
  have written := encode_eq proper
  have decoded := decode_treeJson proper accepted
  have portable := portable_treeJson portable
  -- The first two characters tell the encoding of the bytes.
  obtain ⟨c, d, more, start, nonzero, ascii, next⟩ := treeJson_start options.writesAscii t
  refine ⟨treeJson t, written, by rw [line, written]; rfl, fun ending isEnding => ?_⟩
  have blank : ∀ c ∈ ending, c.isJsonBlank = true := by
    intro c member
    simp only [List.mem_cons, List.not_mem_nil, or_false] at isEnding
    rcases isEnding with rfl | rfl
    · exact absurd member List.not_mem_nil
    · cases List.mem_singleton.mp member
      rfl
  have scalar : Text.Scalar (write options.writesAscii (treeJson t) ++ ending) := by
    refine Text.scalar_append.mpr ⟨scalar_write options.writesAscii portable, ?_⟩
    simp only [List.mem_cons, List.not_mem_nil, or_false] at isEnding
    rcases isEnding with rfl | rfl
    · exact Text.scalar_nil
    · exact Text.scalar_ofString "\n"
  have whole : write options.writesAscii (treeJson t) ++ ending = c :: d :: (more ++ ending) := by
    rw [start]
    rfl
  constructor
  · rw [Input.read, Input.json?, readText_write options.writesAscii portable blank]
    change (decode options (treeJson t)).mapError Input.Fault.tree = _
    rw [decoded]
    rfl
  · obtain ⟨bs, bytes, text⟩ :=
      Encoding.decode_encodeUtf8 scalar whole ascii (Nat.ne_of_gt nonzero) (Nat.ne_of_gt next)
    refine ⟨bs, bytes, ?_⟩
    have json : (Input.bytes bs).json? = .ok (treeJson t) := by
      rw [Input.json?, Input.source, text]
      change (read (write options.writesAscii (treeJson t) ++ ending)).mapError _ = _
      rw [read_write options.writesAscii portable blank]
      rfl
    rw [Input.read, json]
    change (decode options (treeJson t)).mapError Input.Fault.tree = _
    rw [decoded]
    rfl

/-- A document whose title has an accent and whose heading is a character above the last unit. -/
def accented : Tree :=
  .node (.mk (.document [1, 23, 1] [("title", .mk (.text .metaString [CodePoint.ofNat 0xE9]))]
    [.mk (.header 2 .none [.mk (.text .str [CodePoint.ofNat 0x1F600])])]))

attribute [local instance] Versioning.ofClauses in
theorem accented_read : accented.Proper ∧ accented.Portable ∧ checkVersion .default [1, 23, 1] = .ok () ∧
    ∃ j, encode accented = .ok j ∧
      line .default accented = .ok (j.write Options.default.writesAscii ++ "\n") ∧
      ∀ ending ∈ [([] : Text), "\n"],
        Input.read .default (.text (j.write Options.default.writesAscii ++ ending)) = .ok accented ∧
        ∃ bs, Encoding.encodeUtf8 (j.write Options.default.writesAscii ++ ending) = .ok bs ∧
          Input.read .default (.bytes bs) = .ok accented := by
  have proper : accented.Proper := by decide
  have supported : checkVersion .default [1, 23, 1] = .ok () := by cbv
  have accepted : ∀ v, accented.version? = some v → checkVersion .default v = .ok () := by
    rintro v version
    obtain rfl := Option.some.inj version
    exact supported
  have leaf (c : CodePoint) (scalar : c.isSurrogate = false) (kind : TextKind) :
      Node.Portable (.mk (.text kind [c])) := by
    refine .mk ?_ (by rintro _ ⟨⟩) (by rintro _ ⟨⟩)
    exact List.forall_mem_singleton.mpr (.str (List.forall_mem_singleton.mpr scalar))
  have heading : Node.Portable (.mk (.header 2 .none [.mk (.text .str [CodePoint.ofNat 0x1F600])])) := by
    refine .mk ?_ ?_ ?_
    · exact List.forall_mem_cons.mpr ⟨.int (by decide), List.forall_mem_singleton.mpr (.str Text.scalar_nil)⟩
    · intro m slot
      cases List.mem_singleton.mp slot
    · exact List.forall_mem_singleton.mpr (leaf _ (by decide) .str)
  have portable : accented.Portable := by
    refine .mk ?_ ?_ ?_
    · have number (n : Int) (small : (Text.ofNat n.natAbs).length ≤ 4300) : (int n).Portable := .int small
      exact List.forall_mem_cons.mpr ⟨number 1 (by decide), List.forall_mem_cons.mpr ⟨number 23 (by decide),
        List.forall_mem_singleton.mpr (number 1 (by decide))⟩⟩
    · intro m slot
      cases List.mem_cons.mp slot with
      | inl first =>
        cases first
        exact ⟨by decide, List.forall_mem_singleton.mpr (Text.scalar_ofString "title")⟩
      | inr later => cases List.mem_singleton.mp later
    · exact List.forall_mem_cons.mpr ⟨leaf _ (by decide) .metaString, List.forall_mem_singleton.mpr heading⟩
  exact ⟨proper, portable, supported, read_written proper portable fun _ => accepted⟩

end Codec

end DocTree
