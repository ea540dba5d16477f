import DocTree.Node.Equality
import DocTree.Proofs.Codec.Keyed
/-!
Equality of JSON values. Numbers are compared by where they stand on one line, whatever their type, and objects
by their keys. Where no key stands twice and there is no not-a-number, it is an equivalence.
-/

namespace DocTree

section

variable {α β γ : Type}

theorem sameLists_map {γ' : Type} (same : α → β → Bool) (f : γ → α) (g : γ' → β) (xs : List γ) (ys : List γ') :
    sameLists same (xs.map f) (ys.map g) = sameLists (fun x y => same (f x) (g y)) xs ys := by
  induction xs generalizing ys with
  | nil => cases ys <;> rfl
  | cons x xs ih =>
    cases ys with
    | nil => rfl
    | cons y ys => rw [List.map_cons, List.map_cons, sameLists, sameLists, ih]

theorem sameLists_iff {same : α → β → Bool} {xs : List α} {ys : List β} :
    sameLists same xs ys = true ↔ List.Forall₂ (fun x y => same x y = true) xs ys := by
  induction xs generalizing ys with
  | nil => cases ys <;> simp [sameLists]
  | cons x xs ih => cases ys <;> simp [sameLists, ih]

namespace Mapping

variable {key : Text} {m : Mapping α} {a : α}

theorem get?_map (f : α → β) (m : Mapping α) :
    Mapping.get? key (m.map fun (key, a) => (key, f a)) = (m.get? key).map f := by
  induction m with
  | nil => rfl
  | cons entry rest ih =>
    obtain ⟨k, a⟩ := entry
    simp only [List.map_cons, get?, ih]
    split <;> rfl

theorem get?_of_mem (distinct : m.keys.Nodup) (member : (key, a) ∈ m) : m.get? key = some a := by
  obtain ⟨settled, later, rfl⟩ := List.append_of_mem member
  exact get?_middle (fresh_of_nodup distinct)

theorem mem_keys (member : (key, a) ∈ m) : key ∈ m.keys := List.mem_map_of_mem (f := (·.1)) member

end Mapping

theorem sameMappings_iff {same : α → β → Bool} {m : Mapping α} {n : Mapping β} :
    sameMappings same m n = true ↔
      m.length = n.length ∧ ∀ key a, (key, a) ∈ m → ∃ b, n.get? key = some b ∧ same a b = true := by
  simp [sameMappings, Option.any_eq_true]

theorem keys_subset {m : Mapping α} {n : Mapping β} (distinct : m.keys.Nodup) (length : m.length = n.length)
    (found : m.keys ⊆ n.keys) : n.keys ⊆ m.keys := by
  have order := (List.subperm_of_subset distinct found).perm_of_length_le (by simp [Mapping.keys, length])
  exact order.symm.subset

end

namespace Binary64

/-- Where a number stands among all others: an infinite one by its sign, any other by its units. The
not-a-number of a literal stands for itself, and any other stands nowhere. -/
def place? : Int ⊕ Binary64 → Option (Option Bool ⊕ Int)
  | .inl n => some (.inr (n * unity))
  | .inr (.infinite negative) => some (.inl (some negative))
  | .inr (.nan literal) => if literal then some (.inl none) else none
  | .inr x => x.units?.map .inr

theorem place?_finite (negative : Bool) (exponent : Fin 2047) (fraction : Fin 0x10000000000000) :
    ∃ n, (finite negative exponent fraction).units? = some n ∧
      place? (.inr (finite negative exponent fraction)) = some (.inr n) := by
  cases negative <;> exact ⟨_, rfl, rfl⟩

theorem place?_isSome {x : Binary64} (isNumber : ∀ literal, x ≠ .nan literal) : (place? (.inr x)).isSome := by
  cases x with
  | finite negative exponent fraction =>
    obtain ⟨n, -, place⟩ := place?_finite negative exponent fraction
    rw [place]
    rfl
  | infinite => rfl
  | nan literal => exact absurd rfl (isNumber literal)

theorem place?_whole (n : Int) : place? (.inl n) = some (.inr (n * unity)) := rfl

theorem place?_infinite (negative : Bool) : place? (.inr (.infinite negative)) = some (.inl (some negative)) := rfl

theorem place?_nan (literal : Bool) : place? (.inr (.nan literal)) = if literal then some (.inl none) else none := rfl

theorem sameInt_iff {x : Binary64} {n : Int} : x.sameInt n = true ↔ place? (.inr x) = place? (.inl n) := by
  rw [sameInt, beq_iff_eq, place?_whole]
  generalize n * (unity : Int) = units
  cases x with
  | finite negative exponent fraction =>
    obtain ⟨m, isUnits, place⟩ := place?_finite negative exponent fraction
    simp [isUnits, place]
  | infinite => exact ⟨nofun, nofun⟩
  | nan literal => cases literal <;> exact ⟨nofun, nofun⟩

theorem same_iff {x y : Binary64} :
    x.same y = true ↔ ∃ p, place? (.inr x) = some p ∧ place? (.inr y) = some p := by
  cases x with
  | finite negative exponent fraction =>
    obtain ⟨n, units, place⟩ := place?_finite negative exponent fraction
    have one : ∀ y, (finite negative exponent fraction).same y = (some n == y.units?) := by
      intro y
      rw [same, units]
      · rfl
      all_goals exact nofun
    rw [one, beq_iff_eq]
    cases y with
    | finite negative' exponent' fraction' =>
      obtain ⟨n', units', place'⟩ := place?_finite negative' exponent' fraction'
      simp [units', place, place', eq_comm]
    | infinite negative' => simp [units?, place, place?_infinite]
    | nan literal => simp [units?, place, place?_nan]
  | infinite negative =>
    cases y with
    | finite negative' exponent' fraction' =>
      obtain ⟨n', -, place'⟩ := place?_finite negative' exponent' fraction'
      simp [same, units?, place', place?_infinite]
    | infinite negative' => simp [same, place?_infinite, eq_comm (a := negative)]
    | nan literal => simp [same, units?, place?_infinite, place?_nan]
  | nan literal =>
    cases y with
    | finite negative' exponent' fraction' =>
      obtain ⟨n', -, place'⟩ := place?_finite negative' exponent' fraction'
      simp [same, units?, place', place?_nan]
    | infinite => simp [same, units?, place?_infinite, place?_nan]
    | nan literal' => cases literal <;> cases literal' <;> simp [same, place?_nan]

theorem place?_inj {m n : Int} : place? (.inl m) = place? (.inl n) ↔ m = n := by
  rw [place?_whole, place?_whole, Option.some_inj, Sum.inr.injEq]
  exact mul_left_inj' (Int.natCast_ne_zero.mpr (by decide +kernel))

end Binary64

namespace Json

open Binary64

theorem sameNumber_iff {x y : Int ⊕ Binary64} :
    sameNumber x y = true ↔ ∃ p, place? x = some p ∧ place? y = some p := by
  have whole (n : Int) (y : Int ⊕ Binary64) :
      (∃ p, place? (.inl n) = some p ∧ place? y = some p) ↔ place? y = place? (.inl n) := by
    rw [place?_whole]
    exact ⟨fun ⟨p, same, place⟩ => place.trans same.symm, fun place => ⟨_, rfl, place⟩⟩
  cases x with
  | inl m =>
    rw [whole]
    cases y with
    | inl n => exact beq_iff_eq.trans (eq_comm.trans place?_inj.symm)
    | inr y => exact sameInt_iff
  | inr x =>
    cases y with
    | inl n => exact sameInt_iff.trans ((whole n _).symm.trans (exists_congr fun p => and_comm))
    | inr y => exact same_iff

/-- What holds of a value if it holds of all that is inside it holds of every value. -/
theorem inside_induction {P : Json → Prop} (step : ∀ j : Json, (∀ i : Json, i.Inside j → P i) → P j) (j : Json) :
    P j := by
  induction height : j.height using Nat.strongRecOn generalizing j with
  | ind h ih => exact step j fun i inside => ih i.height (height ▸ inside.height_lt) i rfl

theorem sameItems_eq (xs ys : List Json) : sameItems xs ys = sameLists same xs ys := by
  induction xs generalizing ys with
  | nil => cases ys <;> rfl
  | cons x xs ih =>
    cases ys with
    | nil => rfl
    | cons y ys => exact congrArg (x.same y && ·) (ih ys)

theorem sameMembers_eq (ms ns : Mapping Json) :
    sameMembers ms ns = ms.all fun (key, j) => (ns.get? key).any j.same := by
  induction ms with
  | nil => rfl
  | cons m ms ih => exact congrArg ((ns.get? m.1).any m.2.same && ·) ih

theorem same_arr (xs ys : List Json) : (arr xs).same (arr ys) = sameLists same xs ys :=
  sameItems_eq xs ys

theorem same_obj (ms ns : Mapping Json) : (obj ms).same (obj ns) = sameMappings same ms ns :=
  congrArg (ms.length == ns.length && ·) (sameMembers_eq ms ns)

theorem same_arr_obj (xs : List Json) (ms : Mapping Json) : (arr xs).same (obj ms) = false := rfl

theorem same_obj_arr (ms : Mapping Json) (xs : List Json) : (obj ms).same (arr xs) = false := rfl

theorem same_number {j : Json} {x : Int ⊕ Binary64} (isNumber : j.number? = some x) (k : Json) :
    j.same k = k.number?.any (sameNumber x) := by
  cases j with
  | bool | int | float =>
    cases isNumber
    rfl
  | _ => cases isNumber

/-- Values that are the same, by what they are. -/
inductive Agrees : Json → Json → Prop
  | null : Agrees null null
  | number {j k : Json} {x y : Int ⊕ Binary64} (isNumber : j.number? = some x) (isNumber' : k.number? = some y)
    (same : sameNumber x y = true) : Agrees j k
  | str (t : Text) : Agrees (str t) (str t)
  | arr {xs ys : List Json} (items : List.Forall₂ (fun x y => x.same y = true) xs ys) : Agrees (arr xs) (arr ys)
  | obj {ms ns : Mapping Json} (length : ms.length = ns.length)
    (members : ∀ key j, (key, j) ∈ ms → ∃ k, ns.get? key = some k ∧ j.same k = true) : Agrees (obj ms) (obj ns)

theorem same_iff_agrees {j k : Json} : j.same k = true ↔ Agrees j k := by
  constructor
  · intro isSame
    have number {x : Int ⊕ Binary64} (isNumber : j.number? = some x) : Agrees j k := by
      rw [same_number isNumber, Option.any_eq_true] at isSame
      obtain ⟨y, isNumber', same⟩ := isSame
      exact .number isNumber isNumber' same
    cases j with
    | bool | int | float => exact number rfl
    | null =>
      cases k with
      | null => exact .null
      | _ => exact absurd isSame Bool.false_ne_true
    | str t =>
      cases k with
      | str u =>
        obtain rfl : t = u := eq_of_beq isSame
        exact .str t
      | _ => exact absurd isSame Bool.false_ne_true
    | arr xs =>
      cases k with
      | arr ys =>
        rw [same_arr] at isSame
        exact .arr (sameLists_iff.mp isSame)
      | _ => exact absurd isSame Bool.false_ne_true
    | obj ms =>
      cases k with
      | obj ns =>
        rw [same_obj] at isSame
        obtain ⟨length, members⟩ := sameMappings_iff.mp isSame
        exact .obj length members
      | _ => exact absurd isSame Bool.false_ne_true
  · rintro (_ | ⟨isNumber, isNumber', same⟩ | t | items | ⟨length, members⟩)
    · rfl
    · rw [same_number isNumber, isNumber']
      exact same
    · exact beq_self_eq_true t
    · rw [same_arr]
      exact sameLists_iff.mpr items
    · rw [same_obj]
      exact sameMappings_iff.mpr ⟨length, members⟩

/-- A value that no not-a-number is in. -/
def NanFree (j : Json) : Prop := ∀ literal, .float (.nan literal) ≠ j ∧ ¬ (float (.nan literal)).Inside j

theorem NanFree.inside {i j : Json} (free : j.NanFree) (within : i.Inside j) : i.NanFree := by
  refine fun literal => ⟨?_, fun inner => (free literal).2 (inner.trans within)⟩
  rintro rfl
  exact (free literal).2 within

@[simp] theorem nanFree_arr {js : List Json} : (arr js).NanFree ↔ ∀ j ∈ js, j.NanFree := by
  refine ⟨fun free j member => free.inside (.item member), fun items literal => ⟨nofun, fun within => ?_⟩⟩
  cases within with
  | item member => exact (items _ member literal).1 rfl
  | inItem member inside => exact (items _ member literal).2 inside

@[simp] theorem nanFree_obj {ms : Mapping Json} : (obj ms).NanFree ↔ ∀ entry ∈ ms, entry.2.NanFree := by
  refine ⟨fun free e member => free.inside (.value member rfl), fun values literal => ⟨nofun, fun within => ?_⟩⟩
  cases within with
  | value member same => exact (values _ member literal).1 same
  | inValue member inside => exact (values _ member literal).2 inside

theorem same_refl {j : Json} (keyed : j.Keyed) (free : j.NanFree) : j.same j = true := by
  induction j using inside_induction with
  | step j ih =>
  have below (i : Json) (within : i.Inside j) : i.same i = true :=
    ih i within (keyed.inside within) (free.inside within)
  have number {x : Int ⊕ Binary64} (isNumber : j.number? = some x) (place : (place? x).isSome) : Agrees j j := by
    obtain ⟨p, place⟩ := Option.isSome_iff_exists.mp place
    exact .number isNumber isNumber (sameNumber_iff.mpr ⟨p, place, place⟩)
  rw [same_iff_agrees]
  cases j with
  | null => exact .null
  | bool | int => exact number rfl rfl
  | float x => exact number rfl (place?_isSome fun literal isNan => (free literal).1 (isNan ▸ rfl))
  | str t => exact .str t
  | arr js => exact .arr (List.forall₂_same.mpr fun j member => below j (.item member))
  | obj ms =>
    have distinct := (keyed_obj.mp keyed).1
    exact .obj rfl fun key j member =>
      ⟨j, Mapping.get?_of_mem distinct member, below j (.value member rfl)⟩

theorem same_symm {j k : Json} (keyed : j.Keyed) (keyed' : k.Keyed) (isSame : j.same k = true) :
    k.same j = true := by
  induction j using inside_induction generalizing k with
  | step j ih =>
  rw [same_iff_agrees] at isSame ⊢
  cases isSame with
  | null => exact .null
  | number isNumber isNumber' same =>
    obtain ⟨p, place, place'⟩ := sameNumber_iff.mp same
    exact .number isNumber' isNumber (sameNumber_iff.mpr ⟨p, place', place⟩)
  | str t => exact .str t
  | @arr xs ys items =>
    obtain ⟨length, each⟩ := List.forall₂_iff_get.mp items
    refine .arr (List.forall₂_iff_get.mpr ⟨length.symm, fun i inY inX => ?_⟩)
    exact ih _ (.item (List.get_mem _ _)) (keyed_arr.mp keyed _ (List.get_mem _ _))
      (keyed_arr.mp keyed' _ (List.get_mem _ _)) (each i inX inY)
  | @obj ms ns length members =>
    obtain ⟨distinct, values⟩ := keyed_obj.mp keyed
    obtain ⟨distinct', values'⟩ := keyed_obj.mp keyed'
    have found : Mapping.keys ms ⊆ Mapping.keys ns := by
      intro key isKey
      obtain ⟨⟨_, x⟩, member, rfl⟩ := List.mem_map.mp isKey
      obtain ⟨y, there, -⟩ := members _ x member
      exact Mapping.mem_keys (Mapping.get?_mem there)
    refine .obj length.symm fun key y member => ?_
    obtain ⟨⟨_, x⟩, member', rfl⟩ := List.mem_map.mp (keys_subset distinct length found (Mapping.mem_keys member))
    obtain ⟨y', there, same⟩ := members _ x member'
    obtain rfl : y' = y := Option.some.inj (there.symm.trans (Mapping.get?_of_mem distinct' member))
    exact ⟨x, Mapping.get?_of_mem distinct member',
      ih x (.value member' rfl) (values _ member') (values' _ member) same⟩

theorem same_trans {i j k : Json} (first : i.same j = true) (second : j.same k = true) : i.same k = true := by
  induction i using inside_induction generalizing j k with
  | step i ih =>
  rw [same_iff_agrees] at first second ⊢
  -- A number agrees with numbers only, whatever their type.
  cases first with
  | null =>
    cases second with
    | null => exact .null
    | number isNumber => cases isNumber
  | number isNumber isNumber' same =>
    cases second with
    | number isY isZ same' =>
      cases isNumber'.symm.trans isY
      obtain ⟨p, place, place'⟩ := sameNumber_iff.mp same
      obtain ⟨q, placeY, placeZ⟩ := sameNumber_iff.mp same'
      cases place'.symm.trans placeY
      exact .number isNumber isZ (sameNumber_iff.mpr ⟨p, place, placeZ⟩)
    | _ => cases isNumber'
  | str t =>
    cases second with
    | str => exact .str t
    | number isNumber => cases isNumber
  | @arr xs ys items =>
    cases second with
    | arr items' =>
      obtain ⟨length, each⟩ := List.forall₂_iff_get.mp items
      obtain ⟨length', each'⟩ := List.forall₂_iff_get.mp items'
      refine .arr (List.forall₂_iff_get.mpr ⟨length.trans length', fun i inX inZ => ?_⟩)
      exact ih _ (.item (List.get_mem _ _)) (each i inX (length ▸ inX)) (each' i (length ▸ inX) inZ)
    | number isNumber => cases isNumber
  | @obj ms ns length members =>
    cases second with
    | obj length' members' =>
      refine .obj (length.trans length') fun key x member => ?_
      obtain ⟨y, there, same⟩ := members key x member
      obtain ⟨z, there', same'⟩ := members' key y (Mapping.get?_mem there)
      exact ⟨z, there', ih x (.value member rfl) same same'⟩
    | number isNumber => cases isNumber

end Json

end DocTree
