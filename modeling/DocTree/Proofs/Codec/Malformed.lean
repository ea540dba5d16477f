import DocTree.Codec.Input
import DocTree.Proofs.Codec.Printable
/-!
Which inputs are reported as malformed. All that cannot be read are, but for what leaks: a number that is
too long for the reader of JSON, what the decoder lets through, and what there is no room for on the stack.
-/

namespace DocTree.Input

theorem of_mapError_error {ε ε' α : Type} {f : ε → ε'} {x : Except ε α} {e : ε'} (failed : x.mapError f = .error e) :
    ∃ cause, x = .error cause ∧ e = f cause := by
  cases x with
  | error cause => exact ⟨cause, rfl, (Except.error.inj failed).symm⟩
  | ok a => cases failed

section

variable [Versioning] [Stack]

inductive Unreported (options : Options) (input : Input) : Fault → Prop
  | tooLong {source : Text} {digits : Nat} (number : input.content = .error (.json source (.tooLong digits))) :
    Unreported options input (.json source (.tooLong digits))
  | tooDeep {source : Text} (isText : input.source = .ok source) (full : Stack.parses source = false) :
    Unreported options input .recursion
  | leaks {j : Json} {f : Codec.Fault} (isJson : input.content = .ok j) (leaks : Codec.Leaks j f) :
    Unreported options input (.tree f)
  | library {j : Json} {c : Foreign} (isJson : input.content = .ok j) (unchecked : Codec.Unchecked options j c) :
    Unreported options input (.tree (.library c))
  | nested {j : Json} (isJson : input.content = .ok j) (full : Stack.decodes j = false) :
    Unreported options input (.tree .recursion)

end

variable {input : Input} {fault : Fault}

theorem source_error (failed : input.source = .error fault) : ∃ f, fault = .encoding f := by
  cases input with
  | text t => cases failed
  | bytes bs =>
    obtain ⟨f, _, rfl⟩ := of_mapError_error failed
    exact ⟨f, rfl⟩

theorem json?_error {source : Text} (isText : input.source = .ok source) (failed : input.json? = .error fault) :
    ∃ f, fault = .json source f := by
  cases input with
  | text t =>
    cases isText
    obtain ⟨f, _, rfl⟩ := of_mapError_error failed
    exact ⟨f, rfl⟩
  | bytes bs =>
    rw [json?, isText] at failed
    obtain ⟨f, _, rfl⟩ := of_mapError_error failed
    exact ⟨f, rfl⟩

section

variable [Stack] {j : Json}

theorem content_ok (isJson : input.content = .ok j) : input.json? = .ok j := by
  obtain ⟨source, _, isJson⟩ := of_bind_ok isJson
  split at isJson
  · exact isJson
  · cases isJson

theorem content_error (failed : input.content = .error fault) :
    (∃ f, fault = .encoding f) ∨ (∃ source f, fault = .json source f) ∨
      ∃ source, input.source = .ok source ∧ Stack.parses source = false ∧ fault = .recursion := by
  cases isText : input.source with
  | error f =>
    rw [content, isText] at failed
    cases failed
    exact .inl (source_error isText)
  | ok source =>
    rw [content, isText] at failed
    change (if Stack.parses source = true then input.json? else .error .recursion) = _ at failed
    split at failed
    · exact .inr (.inl ⟨source, json?_error isText failed⟩)
    · next full => exact .inr (.inr ⟨source, rfl, Bool.eq_false_iff.mpr full, (Except.error.inj failed).symm⟩)

theorem content_printable (isJson : input.content = .ok j) : j.Printable :=
  Json.printable_readable.input (content_ok isJson)

variable [Versioning] {options : Options} {s s' : Store} {root : Root}

/-- What is loaded is the tree that is read. -/
theorem load_ok (loaded : input.load options s = .ok (root, s')) :
    ∃ j t, input.content = .ok j ∧ Codec.decode options j = .ok t ∧ Store.loadTree t s = (root, s') := by
  obtain ⟨j, isJson, loaded⟩ := of_bind_ok loaded
  obtain ⟨t, decoded, same⟩ := Codec.load_ok (of_mapError_ok loaded)
  exact ⟨j, t, isJson, decoded, same⟩

/-- What cannot be read is reported as malformed, or it leaks. -/
theorem load_error (failed : input.load options s = .error fault) :
    fault.isMalformed = true ∨ Unreported options input fault := by
  cases isJson : input.content with
  | error fault' =>
    rw [load, isJson] at failed
    obtain rfl := Except.error.inj failed
    rcases content_error isJson with ⟨f, rfl⟩ | ⟨source, f, rfl⟩ | ⟨source, isText, full, rfl⟩
    · exact .inl rfl
    · cases f with
      | syntaxAt complaint position => exact .inl rfl
      | tooLong digits => exact .inr (.tooLong isJson)
    · exact .inr (.tooDeep isText full)
  | ok j =>
    rw [load, isJson] at failed
    obtain ⟨f, ended, rfl⟩ := of_mapError_error failed
    rcases Codec.load_error ended with failed | ⟨rfl, full⟩
    · have known := Codec.decode_ends options j
      rw [failed] at known
      cases known with
      | refused r => exact .inl rfl
      | leaks leaks => exact .inr (.leaks isJson leaks)
      | library unchecked => exact .inr (.library isJson unchecked)
      | unprintable overlong => exact absurd (content_printable isJson) overlong.not_printable
    · exact .inr (.nested isJson full)

end

end DocTree.Input
