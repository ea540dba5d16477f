import DocTree.Proofs.Codec.Refusals
import DocTree.Proofs.Codec.RoundTrip
import DocTree.Proofs.Version.Printed
/-!
Which versions of documents are let through. The default range is decided by the first two parts, and a
document whose version is turned away is refused for it, whatever else is in the document.
-/

namespace DocTree.Codec

open Version (Precedes Released)

theorem body_unversioned (v : List Int) (members : Mapping Json) : Unversioned (body v members) := by
  unfold body
  split
  · exact .of_refuse rfl
  · next content _ =>
    exact (children_unversioned element_unversioned _ content).bind fun _ =>
      (mapping_unversioned element_unversioned _).bind fun _ => .ok _

def Supported (v : List Int) : Prop := Released v ∧ ¬ Precedes v [1, 21] ∧ Precedes v [1, 24]

theorem supported_iff {v : List Int} :
    Supported v ↔ (∀ n ∈ v, 0 ≤ n) ∧ v.getD 0 0 = 1 ∧ 21 ≤ v.getD 1 0 ∧ v.getD 1 0 < 24 := by
  constructor
  · rintro ⟨⟨_, positive⟩, inside⟩
    exact ⟨positive, (Version.in_series_iff positive 1 21 24).mp inside⟩
  · rintro ⟨positive, first, second⟩
    refine ⟨⟨?_, positive⟩, (Version.in_series_iff positive 1 21 24).mpr ⟨first, second⟩⟩
    rintro rfl
    cases first

inductive Verdict (v : List Int) : Decoded Unit → Prop
  | supported (known : Supported v) : Verdict v (.ok ())
  | unreleased (known : ¬ Released v) : Verdict v (refuse (.invalidVersion (versionText v)))
  | unsupported (released : Released v) (known : ¬ Supported v) :
    Verdict v (refuse (.unsupportedVersion (versionText v) Options.defaultSupported))

theorem checkVersion_verdict [Versioning] (pep : Versioning.FollowsPep440) {v : List Int}
    (short : v.all Number.isShort) : Verdict v (checkVersion .default v) := by
  rw [checkVersion, if_pos short]
  by_cases released : Released v
  · obtain ⟨w, isRead⟩ := pep.released v released short
    obtain ⟨inside, contains, known⟩ := pep.usual_decides released isRead
    have usual : Versioning.contains Options.default.range w = .ok inside := contains
    rw [isRead]
    dsimp only
    rw [usual]
    cases inside with
    | true => exact .supported ⟨released, known.mp rfl⟩
    | false => exact .unsupported released fun supported => by cases known.mpr supported.2
  · rw [pep.unreleased v released]
    exact .unreleased released

section

variable {v : List Int} {ms : Mapping Json}

theorem refused_ne_body {r : Refusal} (ofVersion : r.isOfVersion = true) :
    refuse r ≠ Tree.node <$> body v ms := by
  intro same
  have other := (body_unversioned v ms).map Tree.node r same.symm
  rw [ofVersion] at other
  cases other

/-- Under the default options a document gets past the check of its version, so that decoding it is decoding
its body, just if the version has parts, none of them negative, and is from 1.21 on and before 1.24, where
missing parts count as zero; only the first two parts decide. A version without parts or with a negative one
is refused as no version, and any other as not supported, whatever else is in the document. No body is
refused for its version, and without the check every version is let through. -/
theorem version_gate [Versioning] (pep : Versioning.FollowsPep440) (short : ∀ n ∈ v, Number.isShort n)
    (found : ms.get? versionKey = some (.arr (v.map .int))) :
    (decode .default (.obj ms) = Tree.node <$> body v ms ↔ Supported v) ∧
    (Supported v ↔ (∀ n ∈ v, 0 ≤ n) ∧ v.getD 0 0 = 1 ∧ 21 ≤ v.getD 1 0 ∧ v.getD 1 0 < 24) ∧
    (decode .default (.obj ms) = refuse (.invalidVersion (versionText v)) ↔ ¬ Released v) ∧
    (decode .default (.obj ms) = refuse (.unsupportedVersion (versionText v) Options.defaultSupported) ↔
      Released v ∧ ¬ Supported v) ∧
    Unversioned (body v ms) ∧
    ∀ options : Options, options.validates = false →
      decode options (.obj ms) = Tree.node <$> body v ms := by
  have unchecked : ∀ options : Options, options.validates = false →
      decode options (.obj ms) = Tree.node <$> body v ms := by
    intro options off
    rw [decode_document options found, version_read, ok_bind, off]
    rfl
  have decoded : decode .default (.obj ms) = Tree.node <$> (checkVersion .default v >>= fun _ => body v ms) := by
    rw [decode_document .default found, version_read]
    rfl
  have others := And.intro (body_unversioned v ms) unchecked
  have verdict := checkVersion_verdict pep (List.all_eq_true.mpr short)
  rw [decoded]
  -- Whatever the check comes to, no body is refused for its version: so the cases of the verdict exclude each
  -- other.
  generalize checkVersion .default v = checked at verdict ⊢
  cases verdict with
  | supported known =>
    refine ⟨iff_of_true rfl known, supported_iff, iff_of_false ?_ (not_not_intro known.1),
      iff_of_false ?_ fun turned => turned.2 known, others⟩
    · exact (refused_ne_body rfl).symm
    · exact (refused_ne_body rfl).symm
  | unreleased known =>
    refine ⟨iff_of_false (refused_ne_body rfl) fun supported => known supported.1, supported_iff,
      iff_of_true rfl known, iff_of_false nofun fun turned => known turned.1, others⟩
  | unsupported released known =>
    refine ⟨iff_of_false (refused_ne_body rfl) known, supported_iff, iff_of_false nofun (not_not_intro released),
      iff_of_true rfl ⟨released, known⟩, others⟩

def versioned (v : List Int) (content : Json) : Mapping Json :=
  [("pandoc-api-version", .arr (v.map .int)), ("blocks", content)]

end

section

attribute [local instance] Versioning.ofClauses

/-- The version that ends the range is turned away with a zero after it, before the blocks are found to be
none; one within the range is let through with whatever is after it. -/
theorem boundary_versions : Versioning.FollowsPep440 ∧
    (∀ n ∈ [1, 24, 0], Number.isShort n) ∧ (∀ n ∈ [1, 23, 0, 9], Number.isShort n) ∧
    (versioned [1, 24, 0] (.int 7)).get? versionKey = some (.arr ([1, 24, 0].map .int)) ∧
    (versioned [1, 23, 0, 9] (.int 7)).get? versionKey = some (.arr ([1, 23, 0, 9].map .int)) ∧
    decode .default (.obj (versioned [1, 24, 0] (.int 7))) =
      refuse (.unsupportedVersion "1.24.0" ">=1.21,<1.24") ∧
    decode .default (.obj (versioned [1, 23, 0, 9] (.int 7))) =
      refuse (.expectedList "block list" "int") := by
  have pep := Versioning.ofClauses_follows
  have shortLate : ∀ n ∈ ([1, 24, 0] : List Int), Number.isShort n := by decide
  have shortEarly : ∀ n ∈ ([1, 23, 0, 9] : List Int), Number.isShort n := by decide
  have late : (versioned [1, 24, 0] (.int 7)).get? versionKey = some (.arr ([1, 24, 0].map .int)) := rfl
  have early : (versioned [1, 23, 0, 9] (.int 7)).get? versionKey = some (.arr ([1, 23, 0, 9].map .int)) := rfl
  obtain ⟨_, bounds, _, unsupported, _⟩ := version_gate pep shortLate late
  obtain ⟨passed, inside, _⟩ := version_gate pep shortEarly early
  refine ⟨pep, shortLate, shortEarly, late, early, unsupported.mpr ⟨⟨nofun, by decide⟩, fun known => ?_⟩, ?_⟩
  · exact absurd (bounds.mp known).2.2.2 (by decide)
  · rw [passed.mpr (inside.mpr (by decide))]
    rfl

end

end DocTree.Codec
