import DocTree.Proofs.Codec.Reading
/-!
Encoding undoes decoding: every value that is laid out as documents are is read, and the tree that it is
read as is written as that value.
-/

namespace DocTree.Codec

open Json (Alike)

theorem Fits.imp {P Q : Json → Prop} {l : Layout} {j : Json} {fuel : Nat} (h : Fits P l j)
    (low : j.height ≤ fuel) (each : ∀ j, P j → j.height ≤ fuel → Q j) : Fits Q l j := by
  induction h with
  | text t => exact .text t
  | whole n => exact .whole n
  | flag b => exact .flag b
  | enumeration name => exact .enumeration name
  | defaultWidth => exact .defaultWidth
  | width number order => exact .width number order
  | absent => exact .absent
  | present _ ih => exact .present (ih low)
  | list _ ih =>
    refine .list fun j member => ih j member ?_
    exact Nat.le_trans (Nat.le_of_lt (height_lt_arr member)) low
  | noPart => exact .noPart
  | part _ _ ih ih' =>
    rw [Json.height, Json.heightItems] at low
    refine .part (ih ?_) (ih' ?_)
    · omega
    · rw [Json.height]
      omega
  | noField => exact .noField
  | @field key _ _ j ms ms' _ _ order ih ih' =>
    have first := height_lt_obj (order.mem_iff.mpr List.mem_cons_self)
    have others : Json.heightMembers ms ≤ Json.heightMembers ms' :=
      heightMembers_le_iff.mpr fun e member => heightMembers_le_iff.mp (Nat.le_refl _) e
        (order.mem_iff.mpr (List.mem_cons_of_mem _ member))
    rw [Json.height] at low first
    refine .field (ih ?_) (ih' ?_) order
    · omega
    · rw [Json.height]
      omega
  | entries _ ih =>
    refine .entries fun e member => ih e member ?_
    exact Nat.le_trans (Nat.le_of_lt (height_lt_obj member)) low
  | element known => exact .element (each _ known low)

theorem tag_and_contents {ms : Mapping Json} {tag : Text} {c : Json} (order : ms.Perm [("t", .str tag), ("c", c)]) :
    ms.get? "t" = some (.str tag) ∧ memberOr "c" .null (.obj ms) = c := by
  have distinct : List.Nodup [("t" : Text), "c"] := by decide
  refine ⟨Mapping.get?_of_perm order distinct, ?_⟩
  rw [memberOr, Mapping.get?_of_perm order distinct]
  rfl

theorem elementWithin_reads {j : Json} (h : IsElement j) {fuel : Nat} (enough : j.height ≤ fuel) :
    ReadsElement (elementWithin fuel) j := by
  induction fuel generalizing j with
  | zero => cases h <;> exact absurd enough (by simp [Json.height])
  | succ fuel ih =>
    cases h with
    | mark kind => exact ⟨.mk (.mark kind), by cases kind <;> rfl, by cases kind <;> exact .refl _,
        .mk (by cases kind <;> rintro ⟨⟩) (by cases kind <;> rintro ⟨⟩) (by rintro _ ⟨⟩)⟩
    | @contents kind l c ms layout fits order =>
      have lower := height_lt_obj (order.mem_iff.mpr (.tail _ (.head _)))
      have known : Fits (ReadsElement (elementWithin fuel)) l c :=
        fits.imp (Nat.le_of_lt_succ (Nat.lt_of_lt_of_le lower enough)) fun j element low => ih element low
      obtain ⟨e, written, isRead, isKind, contents, alike, proper⟩ := contents_reads layout known
      obtain ⟨inner, named⟩ := inner_of_layout layout
      obtain ⟨tag, place⟩ := tag_and_contents order
      refine ⟨.mk e, ?_, ?_, .mk (isKind ▸ inner) (isKind ▸ named) proper⟩
      · rw [elementWithin_succ, shape_obj inner named tag (place.symm ▸ isRead)]
        rfl
      · rw [elementJson_mk, shapeJson, contents, Element.name, Element.kind_mapChildren, isKind]
        exact .trans (.member (.refl _) (.member alike (.refl _))) (.order order.symm)

theorem element_reads {j : Json} (h : IsElement j) : ReadsElement element j :=
  elementWithin_reads h (Nat.le_refl _)

theorem Fits.elements_read {l : Layout} {j : Json} (h : Fits IsElement l j) :
    Fits (ReadsElement Codec.element) l j :=
  h.imp (Nat.le_refl _) fun _ known _ => element_reads known

theorem IsElement.keys {j : Json} (h : IsElement j) :
    ∃ ms : Mapping Json, j = .obj ms ∧ ∀ key : Text, key ≠ "t" → key ≠ "c" → ms.get? key = none := by
  cases h with
  | mark kind => exact ⟨_, rfl, fun key other _ => by simp [Mapping.get?, other.symm]⟩
  | contents layout fits order =>
    refine ⟨_, rfl, fun key tag place => ?_⟩
    have distinct : List.Nodup [("t" : Text), "c"] := by decide
    rw [Mapping.get?_of_perm order distinct]
    simp [Mapping.get?, tag.symm, place.symm]

theorem isOldLayout_eq_false {js : List Json}
    (absent : ∀ ms y, js = [.obj ms, y] → Mapping.get? "unMeta" ms = none) : isOldLayout js = false := by
  unfold isOldLayout
  split
  · next ms y =>
    rw [Mapping.contains, absent ms y rfl]
    rfl
  · rfl

section

variable [Versioning]

/-- A tree that a value is read as, and that is written as that value. -/
abbrev ReadsTree (options : Options) : Json → Prop := Reads (decode options) treeJson Tree.Proper

theorem document_reads {options : Options} {v : List Int} {metadata content : Json}
    {ms : Mapping Json} (accepted : options.validates = true → checkVersion options v = .ok ())
    (entries : Fits IsElement (.entries .element) metadata)
    (elements : Fits IsElement .elements content)
    (order : ms.Perm [("pandoc-api-version", .arr (v.map .int)), ("meta", metadata),
      ("blocks", content)]) : ReadsTree options (.obj ms) := by
  obtain ⟨m, metadataRead, metadataAlike, metadataProper⟩ := entries_reads entries.elements_read
  obtain ⟨ns, contentRead, contentAlike, contentProper⟩ :=
    elements_reads "block list" elements.elements_read
  have distinct : List.Nodup [("pandoc-api-version" : Text), "meta", "blocks"] := by decide
  have found (key : Text) : Mapping.get? key ms = _ := Mapping.get?_of_perm order distinct
  refine ⟨.node (.mk (.document v m ns)), ?_, ?_, nofun, ?_⟩
  · exact document_read (found _) (version_read v) accepted (found _) metadataRead (found _)
      contentRead
  · exact .trans (.member (.refl _) (.member metadataAlike (.member contentAlike (.refl _))))
      (.order order.symm)
  · intro n inside
    obtain ⟨slot, own, member⟩ := List.mem_flatMap.mp inside
    simp only [Element.slots, List.mem_cons, List.not_mem_nil, or_false] at own
    rcases own with rfl | rfl
    · obtain ⟨entry, inEntries, rfl⟩ := List.mem_map.mp member
      exact metadataProper entry inEntries
    · exact contentProper ns List.mem_cons_self n member

theorem rootElement_reads {options : Options} {j : Json} (h : IsElement j) : ReadsTree options j := by
  obtain ⟨n, isRead, alike, proper⟩ := element_reads h
  obtain ⟨ms, rfl, absent⟩ := h.keys
  have other : Mapping.get? versionKey ms = none := absent versionKey (by decide) (by decide)
  refine ⟨.node n, ?_, ?_, ?_⟩
  · rw [decode_element options other, isRead]
    rfl
  · cases proper with
    | @mk e inner =>
      cases e with
      | document => exact absurd rfl inner
      | _ => exact alike
  · cases proper with
    | mk inner named below => exact ⟨named, below⟩

theorem elementList_reads {options : Options} {js : List Json} (h : ∀ j ∈ js, IsElement j) :
    ReadsTree options (.arr js) := by
  obtain ⟨ns, areRead, alike, proper⟩ := mapM_reads (f := id) fun j member => element_reads (h j member)
  rw [List.map_id] at alike
  have current : isOldLayout js = false := by
    refine isOldLayout_eq_false fun ms y eq => ?_
    obtain ⟨_, ⟨⟩, absent⟩ := (h (.obj ms) (eq ▸ List.mem_cons_self)).keys
    exact absent "unMeta" (by decide) (by decide)
  refine ⟨.list ns, ?_, alike, proper⟩
  rw [decode_arr, current, areRead]
  rfl

/-- Every value that is laid out as documents are is read, and is written again as it was. -/
theorem canonical_reads {options : Options} {j : Json} (h : Canonical options j) :
    ReadsTree options j := by
  cases h with
  | document accepted entries elements order => exact document_reads accepted entries elements order
  | element known => exact rootElement_reads known
  | list known => exact elementList_reads known

end

end DocTree.Codec
