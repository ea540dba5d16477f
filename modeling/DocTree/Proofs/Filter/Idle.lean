import DocTree.Proofs.Codec.Canonical
import DocTree.Proofs.Filter.Passes
import DocTree.Proofs.Store.Loading
/-!
Filters that keep every node and edit nothing. They come to their end on every tree that is read, and
what is written after them is what was read.
-/

namespace DocTree

variable {ε σ : Type}

/-- A handler whose actions keep every node and edit nothing. They may still change their state. -/
inductive Handler.Idle : Handler (Action ε σ) → Prop
  | plain {c : Callable (Action ε σ)} (keeps : ∀ occasion n w, ∃ st,
      (c.act occasion n).run w = (.ok .keep, ⟨w.store, st⟩)) : Idle (.plain c)
  | bound {key : Text} {c : Callable (Action ε σ)} (keeps : ∀ n w, ∃ st,
      (c.act .byKind n).run w = (.ok .keep, ⟨w.store, st⟩)) : Idle (.bound key (.plain c))

theorem Handler.run_bound (key : Text) (function : Handler (Action ε σ)) (occasion : Occasion)
    {n : NodeId} {w : World σ} (named : (w.store.element n).kind ≠ .list) :
    ((Handler.bound key function).perform occasion n).run w =
      if (kindsOf key).contains (w.store.element n).name then (function.performAlone n).run w
      else (.ok .keep, w) := by
  have known : ((Handler.bound key function).perform occasion n).run w =
      (if (w.store.element n).kind = .list then return .nameless
        else if (kindsOf key).contains (w.store.element n).name then function.performAlone n
        else return .keep : Effect ε σ Reply).run w := rfl
  rw [known, if_neg named]
  split <;> rfl

theorem Handler.Idle.keeps {handler : Handler (Action ε σ)} (idle : handler.Idle) (occasion : Occasion)
    {n : NodeId} {w : World σ} (named : (w.store.element n).kind ≠ .list) :
    ∃ st, (handler.perform occasion n).run w = (.ok .keep, ⟨w.store, st⟩) := by
  cases idle with
  | plain keeps => exact keeps occasion n w
  | bound keeps =>
    rw [Handler.run_bound _ _ _ named]
    split
    · exact keeps n w
    · exact ⟨w.state, rfl⟩

def Handler.Keeps (h : Handler (Action ε σ)) (occasion : Occasion) (s : Store) (good : NodeId → Prop) : Prop :=
  ∀ n (w : World σ), good n → w.store = s → ∃ st, (h.perform occasion n).run w = (.ok .keep, ⟨s, st⟩)

def Store.Named (s : Store) (root : Root) : Prop :=
  ∀ m ∈ s.top root, s.AllBelow (fun m => (s.element m).kind ≠ .list) m

theorem Handler.Idle.keepsNamed {handler : Handler (Action ε σ)} (idle : handler.Idle) (occasion : Occasion)
    (s : Store) : handler.Keeps occasion s fun m => (s.element m).kind ≠ .list := by
  rintro n w named rfl
  exact idle.keeps occasion named

theorem Handler.Keeps.transform {handler : Handler (Action ε σ)} {occasion : Occasion} {s : Store}
    {good : NodeId → Prop} (keeps : handler.Keeps occasion s good) {root : Root}
    (below : ∀ m ∈ s.top root, s.AllBelow good m) {w : World σ} (same : w.store = s) :
    ∃ bound w', w'.store = s ∧
      ∀ fuel, bound ≤ fuel → Walk.transform fuel (handler.perform occasion) root w = (.ok (), w') := by
  have rests : Walk.Rests ⟨handler.perform occasion, Walk.ignore⟩ s good fun w : World σ => w.store = s :=
    { store := fun _ calm => calm
      offers := fun n w fine calm => by
        obtain ⟨st, kept⟩ := keeps n w fine calm
        exact ⟨_, kept, rfl⟩
      visits := fun _ _ w _ calm => ⟨w, rfl, calm⟩ }
  exact Walk.rests_to_end rests below same

namespace Filter

theorem passes_keep {handlers : List (Handler (Action ε σ))} {occasion : Occasion} {s : Store}
    {good : NodeId → Prop} (keeps : ∀ h ∈ handlers, h.Keeps occasion s good) {root : Root}
    (below : ∀ m ∈ s.top root, s.AllBelow good m) {w : World σ} (same : w.store = s) (number : Nat) :
    ∃ bound w', w'.store = s ∧
      ∀ fuel, bound ≤ fuel → passes fuel occasion root number handlers w = (.ok (), w') := by
  induction handlers generalizing number w with
  | nil => exact ⟨0, w, same, fun _ _ => rfl⟩
  | cons handler rest ih =>
    obtain ⟨first, w₁, same₁, pass⟩ := (keeps handler List.mem_cons_self).transform below same
    obtain ⟨later, w', same', passed⟩ :=
      ih (fun h member => keeps h (List.mem_cons_of_mem _ member)) same₁ (number + 1)
    refine ⟨max first later, w', same', fun fuel enough => ?_⟩
    rw [passes, pass fuel (by omega)]
    exact passed fuel (by omega)

theorem passes_idle {handlers : List (Handler (Action ε σ))} (idle : ∀ h ∈ handlers, h.Idle)
    (occasion : Occasion) {root : Root} {w : World σ} (named : w.store.Named root) (number : Nat) :
    ∃ bound w', w'.store = w.store ∧
      ∀ fuel, bound ≤ fuel → passes fuel occasion root number handlers w = (.ok (), w') :=
  passes_keep (fun h member => (idle h member).keepsNamed occasion w.store) named rfl number

theorem prepared_extends (root : Root) (metadata : Option MappingId) (w : World σ) :
    w.store.Extends (prepared root metadata w).2.store := by
  cases metadata with
  | some id => exact .refl _
  | none =>
    simp only [prepared, metadataOf]
    cases root with
    | list id => exact w.store.newMapping_extends []
    | node id =>
      dsimp only
      split
      · exact .refl _
      · exact w.store.newMapping_extends []

end Filter

/-- Encoding undoes decoding on every value that is laid out as documents are, with the keys of its
objects in whatever order. A filter that keeps every node and edits nothing comes to its end on the
tree that is read, and leaves what is written as it was. -/
theorem Codec.encode_decode [Versioning] {options : Options} {j : Json} (canonical : Canonical options j) :
    ∃ t j', decode options j = .ok t ∧ encode t = .ok j' ∧ j'.Alike j ∧
      ∀ {ε σ : Type} (f : Filter (Action ε σ)), (∀ h ∈ f.handlers, h.Idle) →
        ∀ (format : Json) (metadata : Option MappingId) (w : World σ),
          ∃ bound w', (∀ fuel, bound ≤ fuel →
            f.apply fuel (Store.loadTree t w.store).1 format metadata
              ⟨(Store.loadTree t w.store).2, w.state⟩ = (.ok (), w')) ∧
            encode (w'.store.tree (Store.loadTree t w.store).1) = .ok j' := by
  obtain ⟨t, isRead, alike, proper⟩ := canonical_reads canonical
  refine ⟨t, treeJson t, isRead, encode_eq proper, alike, ?_⟩
  intro ε σ f idle format metadata w
  have later := Filter.prepared_extends (Store.loadTree t w.store).1 metadata
    (⟨(Store.loadTree t w.store).2, w.state⟩ : World σ)
  obtain ⟨same, named⟩ := Store.loadTree_read proper w.store later
  obtain ⟨bound, w', kept, passed⟩ := Filter.passes_idle idle
    (Filter.occasionOf _ format metadata ⟨(Store.loadTree t w.store).2, w.state⟩) named 1
  refine ⟨bound, w', fun fuel enough => ?_, ?_⟩
  · rw [Filter.apply_eq]
    exact passed fuel enough
  · rw [kept, same]
    exact encode_eq proper

namespace Codec

section

attribute [local instance] Versioning.ofClauses

def reversed : Json :=
  .obj [("blocks", .arr [.obj [("c", .arr [.obj [("c", .str "a"), ("t", .str "Str")]]),
      ("t", .str "Para")]]), ("meta", .obj []), ("pandoc-api-version", .arr [.int 1, .int 23])]

theorem reversed_kept : Canonical .default reversed ∧
    ∃ t j', decode .default reversed = .ok t ∧ encode t = .ok j' ∧ j'.Alike reversed ∧
      ∃ bound w', (∀ fuel, bound ≤ fuel →
        Filter.apply fuel ⟨[.plain ⟨"keep", "function", fun _ => Walk.keepAll⟩]⟩
          (Store.loadTree t .empty).1 .null none
          (⟨(Store.loadTree t .empty).2, ()⟩ : World Unit) =
            ((.ok () : Except (Filter.Stop Empty) Unit), w')) ∧
        encode (w'.store.tree (Store.loadTree t .empty).1) = .ok j' := by
  have word : IsElement (.obj [("c", .str "a"), ("t", .str "Str")]) :=
    .contents (show Layout.ofKind? .str = some .text from rfl) (.text _) (.swap _ _ _)
  have paragraph : IsElement (.obj [("c", .arr [.obj [("c", .str "a"), ("t", .str "Str")]]),
      ("t", .str "Para")]) :=
    .contents (show Layout.ofKind? .para = some .elements from rfl)
      (.list fun j member => List.mem_singleton.mp member ▸ .element word) (.swap _ _ _)
  have supported : checkVersion .default [1, 23] = .ok () := by cbv
  have metadata : Fits IsElement (.entries .element) (.obj []) := .entries (by simp)
  have content : Fits IsElement .elements (.arr [.obj [("c", .arr [.obj [("c", .str "a"),
      ("t", .str "Str")]]), ("t", .str "Para")]]) :=
    .list fun j member => List.mem_singleton.mp member ▸ .element paragraph
  have canonical : Canonical .default reversed :=
    .document (fun _ => supported) metadata content (List.reverse_perm [_, _, _])
  have idle : ∀ h ∈ [Handler.plain ⟨"keep", "function", fun _ => Walk.keepAll⟩],
      (h : Handler (Action Empty Unit)).Idle := by
    intro h member
    obtain rfl := List.mem_singleton.mp member
    exact .plain fun _ _ w => ⟨w.state, rfl⟩
  obtain ⟨t, j', isRead, written, alike, kept⟩ := encode_decode canonical
  exact ⟨canonical, t, j', isRead, written, alike, kept ⟨_⟩ idle .null none ⟨.empty, ()⟩⟩

end

end Codec

end DocTree
