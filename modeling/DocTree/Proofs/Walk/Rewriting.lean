import DocTree.Proofs.Walk.Lockstep
import DocTree.Proofs.Walk.Turning
/-!
A walk does what the recursion does. Forth by induction on the recursion, back by induction on the number
of steps that the walk still makes; either way each rule turns the walk to a part of its task.
-/

namespace DocTree.Walk

open Store (Object Same Hole)

variable {ε σ : Type}

/-- Wherever a walk is ready for the task, it makes these calls, comes to its end in this world, and edits
nothing around it. -/
def Walks (action : NodeId → Effect ε σ Reply) (root : Root) (w₀ : World σ) (task : Task) (w : World σ)
    (calls : List (Call σ)) (w' : World σ) : Prop :=
  ∀ around stack stack', Ready action root w₀ around task stack stack' w →
    (∃ n, Reaches ⟨action, ignore⟩ n stack w calls stack' w') ∧
      ∀ o ∈ around, Same w.store w'.store o

section

variable {action : NodeId → Effect ε σ Reply} {root : Root} {w₀ w w₁ w₂ w₃ : World σ}
  {around : List Object} {stack stack' stack₁ stack₂ : List Frame} {calls inner outer : List (Call σ)}
  {part others : Task}

theorem Turns.walks (turns : Turns action root w₀ around stack stack' w calls part w₁ others)
    (inside : Walks action root w₀ part w₁ inner w₂) (after : Walks action root w₀ others w₂ outer w₃) :
    (∃ n, Reaches ⟨action, ignore⟩ n stack w (calls ++ (inner ++ outer)) stack' w₃) ∧
      ∀ o ∈ around, Same w.store w₃.store o := by
  cases turns with
  | @intro wider stack₁ stack₂ contained first same ready later =>
    obtain ⟨⟨n, course⟩, kept⟩ := inside _ _ _ ready
    obtain ⟨wider₂, contained₂, ready₂⟩ := later w₂ (ready.reached.trans course) kept
    obtain ⟨⟨m, course₂⟩, kept₂⟩ := after _ _ _ ready₂
    refine ⟨⟨_, first.trans (course.trans course₂)⟩, fun o member => ?_⟩
    have between := (same o member).trans (kept o (contained member))
    exact between.trans (kept₂ o (contained₂ member))

def Task.Over : Task → Prop
  | below ns => ns = []
  | slots containers => containers = []
  | members _ _ todo => todo = []
  | entries _ _ todo => todo = []

theorem over_reaches {task : Task} (ended : task.Over) (ready : Ready action root w₀ around task stack stack' w) :
    ∃ n ≤ 1, (task = .below [] → n = 0) ∧ Reaches ⟨action, ignore⟩ n stack w [] stack' w := by
  cases ready.position with
  | below cursor ns rest =>
    obtain rfl : ns = [] := ended
    exact ⟨0, Nat.zero_le 1, fun _ => rfl, .refl _ _⟩
  | @slots n errands containers _ left own opened =>
    obtain rfl : containers = [] := ended
    exact ⟨1, Nat.le_refl 1, by simp, .of_go (move_leave (Errand.resume_none left))⟩
  | @members errands id settled todo rest content =>
    obtain rfl : todo = [] := ended
    have beyond : (w.store.sequence id)[settled.length]? = none := by simp [content]
    exact ⟨1, Nat.le_refl 1, by simp, .of_go (move_past beyond)⟩
  | @entries errands id settled todo rest content =>
    obtain rfl : todo = [] := ended
    exact ⟨1, Nat.le_refl 1, by simp, .of_go rfl⟩

theorem over_walks {task : Task} (ended : task.Over) : Walks action root w₀ task w [] w := by
  intro around stack stack' ready
  obtain ⟨n, _, _, course⟩ := over_reaches ended ready
  exact ⟨⟨n, course⟩, fun o _ => .refl _ o⟩

theorem Rewrites.walks {task : Task} (rewrites : Rewrites action task w calls w₁)
    (tame : Tame action root w₀) : Walks action root w₀ task w calls w₁ := by
  induction rewrites with
  | below_nil => exact over_walks rfl
  | slots_nil => exact over_walks rfl
  | members_nil => exact over_walks rfl
  | entries_nil => exact over_walks rfl
  | below_cons _ _ inside others =>
    exact fun _ _ _ ready => (below_turns tame ready).walks inside others
  | slots_cons _ _ inside others =>
    exact fun _ _ _ ready => (slots_turn tame ready).walks inside others
  | members_cons gives _ _ inside others =>
    exact fun _ _ _ ready => (member_turns tame ready gives).walks inside others
  | entries_cons gives room _ _ inside others =>
    exact fun _ _ _ ready => (entry_turns tame ready gives room).walks inside others

theorem Ready.moves {task : Task} {k : Nat} (ready : Ready action root w₀ around task stack stack' w)
    (ends : Reaches ⟨action, ignore⟩ k stack w calls [] w₁) : 0 < k := by
  cases ready.position with
  | below | slots | members | entries =>
    cases ends
    exact Nat.succ_pos _

theorem member_given {id : SequenceId} {settled todo : List NodeId} {n : NodeId} {k : Nat}
    {stack₁ : List Frame} (tame : Tame action root w₀)
    (ready : Ready action root w₀ around (.members id settled (n :: todo)) stack stack' w)
    (course : Reaches ⟨action, ignore⟩ k stack w calls stack₁ w₃) (moves : 0 < k) :
    ∃ ns w₁, Gives action n w ns w₁ := by
  cases ready.position with
  | members rest content =>
    have kept := member_leaves tame ready content _ List.mem_cons_self
    cases course with
    | refl => exact absurd moves (Nat.lt_irrefl 0)
    | step first _ =>
      obtain ⟨ns, w₁, gives, _⟩ := (member_step_iff content kept).mp first
      exact ⟨ns, w₁, gives⟩

theorem entry_given {id : MappingId} {settled todo : Mapping NodeId} {n : NodeId} {key : Text} {k : Nat}
    {stack₁ : List Frame} (tame : Tame action root w₀)
    (ready : Ready action root w₀ around (.entries id settled ((key, n) :: todo)) stack stack' w)
    (course : Reaches ⟨action, ignore⟩ k stack w calls stack₁ w₃) (moves : 0 < k) :
    ∃ ns w₁, Gives action n w ns w₁ ∧ ns.length ≤ 1 := by
  have sound : w.store.Sound (.mapping id) := ready.hole.sound (tame.unshared _ _ ready.reached)
  cases ready.position with
  | entries rest content =>
    have kept := entry_leaves tame ready content sound _ List.mem_cons_self
    cases course with
    | refl => exact absurd moves (Nat.lt_irrefl 0)
    | step first _ =>
      obtain ⟨ns, w₁, gives, room, _⟩ := (entry_step_iff content sound kept).mp first
      exact ⟨ns, w₁, gives, room⟩

theorem Turns.rewrites {n : Nat} {all : List (Call σ)} (tame : Tame action root w₀)
    (turns : Turns action root w₀ around stack stack' w calls part w₁ others)
    (ends : Reaches ⟨action, ignore⟩ n stack w all [] w₃)
    (shorter : ∀ m < n, ∀ around task stack stack' w all,
      Ready action root w₀ around task stack stack' w → Reaches ⟨action, ignore⟩ m stack w all [] w₃ →
      ∃ calls w₁, Rewrites action task w calls w₁) :
    ∃ inner w₂ outer w₃, Rewrites action part w₁ inner w₂ ∧ Rewrites action others w₂ outer w₃ := by
  cases turns with
  | intro contained first same ready later =>
    obtain ⟨k, last, rfl, rfl, ends₁⟩ := first.within ends
    obtain ⟨inner, w₂, inside⟩ := shorter k (by omega) _ _ _ _ _ _ ready ends₁
    obtain ⟨⟨m, course⟩, kept⟩ := inside.walks tame _ _ _ ready
    obtain ⟨k', last', rfl, rfl, ends₂⟩ := course.within ends₁
    obtain ⟨_, _, ready₂⟩ := later w₂ (ready.reached.trans course) kept
    obtain ⟨outer, w₄, after⟩ := shorter k' (by omega) _ _ _ _ _ _ ready₂ ends₂
    exact ⟨inner, w₂, outer, w₄, inside, after⟩

/-- Where a walk comes to its end, the recursion does too. -/
theorem rewrites_of_reaches {n : Nat} {task : Task} (tame : Tame action root w₀)
    (ready : Ready action root w₀ around task stack stack' w)
    (ends : Reaches ⟨action, ignore⟩ n stack w calls [] w₃) :
    ∃ calls w₁, Rewrites action task w calls w₁ := by
  induction n using Nat.strongRecOn generalizing around task stack stack' w calls with
  | ind n ih =>
    -- Each part of the task is done on a course that is a step shorter at least.
    have shorter : ∀ m < n, ∀ around task stack stack' w all,
        Ready action root w₀ around task stack stack' w →
        Reaches ⟨action, ignore⟩ m stack w all [] w₃ → ∃ calls w₁, Rewrites action task w calls w₁ :=
      fun m less _ _ _ _ _ _ ready ends => ih m less ready ends
    match task with
    | .below [] => exact ⟨[], w, .below_nil⟩
    | .slots [] => exact ⟨[], w, .slots_nil⟩
    | .members id settled [] => exact ⟨[], w, .members_nil⟩
    | .entries id settled [] => exact ⟨[], w, .entries_nil⟩
    | .below (m :: ns) =>
      obtain ⟨_, _, _, _, inside, others⟩ := (below_turns tame ready).rewrites tame ends shorter
      exact ⟨_, _, .below_cons inside others⟩
    | .slots (container :: containers) =>
      obtain ⟨_, _, _, _, inside, others⟩ := (slots_turn tame ready).rewrites tame ends shorter
      exact ⟨_, _, .slots_cons inside others⟩
    | .members id settled (m :: todo) =>
      obtain ⟨ns, w₁, gives⟩ := member_given tame ready ends (ready.moves ends)
      obtain ⟨_, _, _, _, inside, others⟩ := (member_turns tame ready gives).rewrites tame ends shorter
      exact ⟨_, _, .members_cons gives inside others⟩
    | .entries id settled ((key, m) :: todo) =>
      obtain ⟨ns, w₁, gives, room⟩ := entry_given tame ready ends (ready.moves ends)
      obtain ⟨_, _, _, _, inside, others⟩ := (entry_turns tame ready gives room).rewrites tame ends shorter
      exact ⟨_, _, .entries_cons gives room inside others⟩

end

section

variable {action : NodeId → Effect ε σ Reply} {root : Root} {w w' : World σ} {calls : List (Call σ)}

theorem ready_ofRoot (action : NodeId → Effect ε σ Reply) (root : Root) (w : World σ) :
    ∃ around stack, Ready action root w around (.ofRoot w.store root) [.ofRoot root] stack w ∧
      ∀ w', ∃ n, Reaches ⟨action, ignore⟩ n stack w' [] [] w' := by
  have reached : Reached action root w [.ofRoot root] w := ⟨0, [], .refl _ _⟩
  have whole := Hole.whole root w.store
  cases root with
  | node id =>
    have own : ∀ e ∈ [Errand.node id], e.Of w.store id := List.forall_mem_singleton.mpr rfl
    have around := List.mem_singleton_self (Object.node id)
    exact ⟨[.node id], [], ⟨reached, whole.enter, .slots [] (Errand.left_node w.store id) own around⟩,
      fun w' => ⟨0, .refl _ _⟩⟩
  | list id =>
    exact ⟨[], [⟨[], none⟩], ⟨reached, whole, .members [] rfl⟩, fun w' => ⟨1, .of_go rfl⟩⟩

theorem reaches_iff_rewrites (tame : Tame action root w) :
    (∃ n, Reaches ⟨action, ignore⟩ n [.ofRoot root] w calls [] w') ↔
      Rewrites action (.ofRoot w.store root) w calls w' := by
  obtain ⟨around, stack, ready, leave⟩ := ready_ofRoot action root w
  have ends : ∀ calls w', Rewrites action (.ofRoot w.store root) w calls w' →
      ∃ n, Reaches ⟨action, ignore⟩ n [.ofRoot root] w calls [] w' := by
    intro calls w' rewrites
    obtain ⟨⟨n, course⟩, _⟩ := rewrites.walks tame _ _ _ ready
    obtain ⟨m, last⟩ := leave w'
    have joined := course.trans last
    rw [List.append_nil] at joined
    exact ⟨_, joined⟩
  constructor
  · rintro ⟨n, course⟩
    obtain ⟨calls₁, w₁, rewrites⟩ := rewrites_of_reaches tame ready course
    obtain ⟨m, course₁⟩ := ends calls₁ w₁ rewrites
    obtain ⟨k, last, _, rfl, tail⟩ := course₁.within course
    obtain ⟨_, rfl, _, rfl⟩ := tail.of_empty
    rwa [List.append_nil]
  · exact ends calls w'

/-- On a tree without sharing that stays without sharing, with an action that edits only below what it is
offered, a walk comes to its end where the recursion does, in the same world and with the same calls. -/
theorem transform_iff_rewrites (tame : Tame action root w) :
    (∀ w', (∃ fuel, transform fuel action root w = (.ok (), w')) ↔
      ∃ calls, Rewrites action (.ofRoot w.store root) w calls w') ∧
    ∀ calls w', (∃ fuel, transform fuel (logged action) root (w.logging []) =
        (.ok (), w'.logging calls)) ↔
      Rewrites action (.ofRoot w.store root) w calls w' := by
  constructor
  · intro w'
    constructor
    · rintro ⟨fuel, ended⟩
      obtain ⟨n, _, calls, course⟩ := run_eq_ok_iff.mp ended
      exact ⟨calls, (reaches_iff_rewrites tame).mp ⟨n, course⟩⟩
    · rintro ⟨calls, rewrites⟩
      obtain ⟨n, course⟩ := (reaches_iff_rewrites tame).mpr rewrites
      exact ⟨n, run_eq_ok_iff.mpr ⟨n, Nat.le_refl n, calls, course⟩⟩
  · intro calls w'
    rw [← reaches_iff_rewrites tame]
    constructor
    · rintro ⟨fuel, ended⟩
      obtain ⟨n, _, course⟩ := transform_logged_ok_iff.mp ended
      exact ⟨n, course⟩
    · rintro ⟨n, course⟩
      exact ⟨n, transform_logged_ok_iff.mpr ⟨n, Nat.le_refl n, course⟩⟩

end

def stressed : Store :=
  .ofElements [.text .str "a", .wrap .emph ⟨0⟩, .mark .space] [[⟨0⟩], [⟨1⟩, ⟨2⟩]] []

/-- Capitalizes an emphasized word and puts it in the place of the emphasis; drops everything else. -/
def capitalize (n : NodeId) : Effect Empty Nat Reply :=
  .ofFunction fun w =>
    if n = ⟨1⟩ then
      (.ok (.several [.node ⟨0⟩]), ⟨w.store.setElement ⟨0⟩ (.text .str "A"), w.state + 1⟩)
    else (.ok (.several []), ⟨w.store, w.state + 1⟩)

def capitalized (rest : List NodeId) : Store :=
  .ofElements [.text .str "A", .wrap .emph ⟨0⟩, .mark .space] [[⟨0⟩], ⟨0⟩ :: rest] []

/-- The course of the walk that capitalizes it. -/
def stops : List (List Frame × World Nat) :=
  [([⟨[], some (.sequence ⟨1⟩ 0 [])⟩], ⟨stressed, 0⟩),
    ([⟨[], some (.sequence ⟨1⟩ 1 [⟨0⟩])⟩], ⟨capitalized [⟨2⟩], 1⟩),
    ([.below ⟨0⟩, ⟨[], some (.sequence ⟨1⟩ 1 [])⟩], ⟨capitalized [⟨2⟩], 1⟩),
    ([⟨[], some (.sequence ⟨1⟩ 1 [])⟩], ⟨capitalized [⟨2⟩], 1⟩),
    ([⟨[], some (.sequence ⟨1⟩ 1 [])⟩], ⟨capitalized [], 2⟩),
    ([⟨[], none⟩], ⟨capitalized [], 2⟩),
    ([], ⟨capitalized [], 2⟩)]

theorem capitalize_reached {stack : List Frame} {w : World Nat}
    (h : Reached capitalize (.list ⟨1⟩) ⟨stressed, 0⟩ stack w) : (stack, w) ∈ stops := by
  refine h.invariant (fun stack w => (stack, w) ∈ stops) (by simp [stops, Frame.ofRoot]) ?_
  intro frame rest w stack w' here first
  simp only [stops, List.mem_cons, List.not_mem_nil, or_false, Prod.mk.injEq, List.cons.injEq] at here
  rcases here with ⟨⟨rfl, rfl⟩, rfl⟩ | ⟨⟨rfl, rfl⟩, rfl⟩ | ⟨⟨rfl, rfl⟩, rfl⟩ | ⟨⟨rfl, rfl⟩, rfl⟩ |
    ⟨⟨rfl, rfl⟩, rfl⟩ | ⟨⟨rfl, rfl⟩, rfl⟩ | ⟨eq, _⟩
  · cases first
    exact List.mem_of_getElem? (i := 1) rfl
  · cases first
    exact List.mem_of_getElem? (i := 2) rfl
  · cases first
    exact List.mem_of_getElem? (i := 3) rfl
  · cases first
    exact List.mem_of_getElem? (i := 4) rfl
  · cases first
    exact List.mem_of_getElem? (i := 5) rfl
  · cases first
    exact List.mem_of_getElem? (i := 6) rfl
  · cases eq

theorem stressed_spans : stressed.Spans [.sequence ⟨1⟩]
    [.sequence ⟨1⟩, .node ⟨1⟩, .sequence ⟨0⟩, .node ⟨0⟩, .node ⟨2⟩] :=
  Store.spans_of_spanned? (rfl : stressed.spanned? 6 _ = _)

theorem emphasis_spans : stressed.Spans [.node ⟨1⟩] [.node ⟨1⟩, .sequence ⟨0⟩, .node ⟨0⟩] :=
  Store.spans_of_spanned? (rfl : stressed.spanned? 4 _ = _)

theorem capitalized_spans : (capitalized [⟨2⟩]).Spans [.sequence ⟨1⟩]
    [.sequence ⟨1⟩, .node ⟨0⟩, .node ⟨2⟩] :=
  Store.spans_of_spanned? (rfl : (capitalized [⟨2⟩]).spanned? 4 _ = _)

theorem capitalize_tame : Tame capitalize (.list ⟨1⟩) ⟨stressed, 0⟩ where
  unshared := by
    intro stack w h
    have here := capitalize_reached h
    have first : stressed.Unshared (.list ⟨1⟩) := ⟨_, stressed_spans, by decide⟩
    have second : (capitalized [⟨2⟩]).Unshared (.list ⟨1⟩) := ⟨_, capitalized_spans, by decide⟩
    have last : (capitalized []).Unshared (.list ⟨1⟩) :=
      ⟨[.sequence ⟨1⟩, .node ⟨0⟩], Store.spans_of_spanned? (rfl : (capitalized []).spanned? 4 _ = _),
        by decide⟩
    simp only [stops, List.mem_cons, List.not_mem_nil, or_false, Prod.mk.injEq] at here
    rcases here with ⟨_, rfl⟩ | ⟨_, rfl⟩ | ⟨_, rfl⟩ | ⟨_, rfl⟩ | ⟨_, rfl⟩ | ⟨_, rfl⟩ | ⟨_, rfl⟩
    · exact first
    · exact second
    · exact second
    · exact second
    · exact last
    · exact last
    · exact last
  inside := by
    intro frame rest w n all below h next all_spans below_spans
    have here := capitalize_reached h
    simp only [stops, List.mem_cons, List.not_mem_nil, or_false, Prod.mk.injEq, List.cons.injEq] at here
    rcases here with ⟨⟨rfl, rfl⟩, rfl⟩ | ⟨⟨rfl, rfl⟩, rfl⟩ | ⟨⟨rfl, rfl⟩, rfl⟩ | ⟨⟨rfl, rfl⟩, rfl⟩ |
      ⟨⟨rfl, rfl⟩, rfl⟩ | ⟨⟨rfl, rfl⟩, rfl⟩ | ⟨eq, _⟩
    · cases next
      obtain rfl := all_spans.unique stressed_spans
      obtain rfl := below_spans.unique emphasis_spans
      intro o member apart
      simp only [List.mem_cons, List.not_mem_nil, or_false, not_or] at member apart
      obtain ⟨notEmphasis, notContent, notWord⟩ := apart
      rcases member with rfl | rfl | rfl | rfl | rfl
      · rfl
      · exact absurd rfl notEmphasis
      · exact absurd rfl notContent
      · exact absurd rfl notWord
      · exact ⟨rfl, fun _ _ => rfl⟩
    · cases next
    · cases next
    · cases next
      intro o _ _
      exact .refl _ o
    · cases next
    · cases next
    · cases eq

theorem capitalize_rewrites :
    Tame capitalize (.list ⟨1⟩) ⟨stressed, 0⟩ ∧
      ∃ calls, Rewrites capitalize (.ofRoot stressed (.list ⟨1⟩)) ⟨stressed, 0⟩ calls
        ⟨capitalized [], 2⟩ :=
  ⟨capitalize_tame, ((transform_iff_rewrites capitalize_tame).1 _).mp ⟨20, rfl⟩⟩

end DocTree.Walk
