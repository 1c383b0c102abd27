import Rail.Foundation.Runs
import Mathlib.Data.List.Pairwise
import Mathlib.Tactic.SplitIfs

/-!
# Turns and gates

`Turn` of `include/rail/io/turn.h` and `Gate` of `include/rail/vfs/remotes.h`: one coroutine at a
time, and the others wait in a queue.

Who gives the turn back with others in the queue hands it to the first of them: `Held` stays set and
the loop is to resume that one.  In between the turn belongs to a coroutine that does not run, and
that may be destroyed.  The awaiter of a `Turn` then passes it on; that of a `Gate` only leaves the
queue, where it is no more, and the turn is lost.
-/

namespace Rail.Io

open List Option

/-- A turn or a gate, with its awaiters numbered as they come. -/
structure Turn where
  held : Bool := false
  waiting : List ℕ := []
  /-- Handed the turn, and in `Ready` of the loop. -/
  ready : List ℕ := []
  /-- For the record: who has the turn. -/
  holders : List ℕ := []
  /-- For the record: the awaiters so far, those that got the turn, and those destroyed before. -/
  came : ℕ := 0
  got : List ℕ := []
  gone : List ℕ := []
  deriving DecidableEq

inductive Event where
  | take
  /-- The loop resumes a coroutine. -/
  | resume (i : ℕ)
  | give (i : ℕ)
  /-- A coroutine that waits is destroyed. -/
  | destroy (i : ℕ)
  deriving DecidableEq

namespace Turn

/-- `await_resume`. -/
def enter (s : Turn) (i : ℕ) : Turn :=
  { s with held := true, holders := i :: s.holders, got := s.got ++ [i] }

/-- `take`: `await_ready`, then `await_resume` or `await_suspend`. -/
def take (s : Turn) : Turn :=
  if s.held then { s with waiting := s.waiting ++ [s.came], came := s.came + 1 }
  else { s.enter s.came with came := s.came + 1 }

def give (s : Turn) : Turn :=
  match s.waiting with
  | [] => { s with held := false }
  | i :: rest => { s with waiting := rest, ready := s.ready ++ [i] }

/-- `cancel` of the loop, and the destructor of an awaiter, which passes the turn on or does not. -/
def destroy (passes : Bool) (s : Turn) (i : ℕ) : Option Turn :=
  if i ∈ s.waiting then some { s with waiting := s.waiting.erase i, gone := i :: s.gone }
  else if i ∈ s.ready then
    let t := { s with ready := s.ready.erase i, gone := i :: s.gone }
    some (if passes then t.give else t)
  else none

def stepWith (passes : Bool) (s : Turn) : Event → Option Turn
  | .take => some s.take
  | .resume i => if i ∈ s.ready then some ({ s with ready := s.ready.erase i }.enter i) else none
  | .give i => if i ∈ s.holders then some ({ s with holders := s.holders.erase i }.give) else none
  | .destroy i => s.destroy passes i

/-- `Turn`. -/
def step : Turn → Event → Option Turn := stepWith true

/-- `vfs::Gate`. -/
def gateStep : Turn → Event → Option Turn := stepWith false

/-- In arrival order: who got the turn, who was handed it, who waits. -/
def line (s : Turn) : List ℕ := s.got ++ (s.ready ++ s.waiting)

structure Lined (s : Turn) : Prop where
  order : s.line.Pairwise (· < ·)
  came : ∀ i ∈ s.line, i < s.came
  all : ∀ i < s.came, i ∈ s.line ∨ i ∈ s.gone

/-- The turn is with one coroutine, or free. -/
structure Sound (s : Turn) : Prop extends s.Lined where
  owner : (s.held = true ∧ ∃ i, s.holders ++ s.ready = [i]) ∨
    s.held = false ∧ s.holders = [] ∧ s.ready = [] ∧ s.waiting = []

variable {s t : Turn} {e : Event} {i : ℕ}

theorem Sound.initial : Sound {} := ⟨⟨.nil, by simp [line], by simp⟩, .inr ⟨rfl, rfl, rfl, rfl⟩⟩

/-- Whoever leaves the line is on record. -/
theorem Lined.leave (h : s.Lined) (hsub : t.line <+ s.line) (hcame : t.came = s.came)
    (hleft : ∀ j ∈ s.line, j ∈ t.line ∨ j ∈ t.gone) (hgone : s.gone ⊆ t.gone) : t.Lined where
  order := h.order.sublist hsub
  came := fun j hj => hcame ▸ h.came j (hsub.subset hj)
  all := fun j hj => (h.all j (hcame ▸ hj)).elim (hleft j) fun hj => .inr (hgone hj)

/-- Whoever comes is the last of the line. -/
theorem Lined.arrive (h : s.Lined) (hline : t.line = s.line ++ [s.came])
    (hcame : t.came = s.came + 1) (hgone : t.gone = s.gone) : t.Lined := by
  refine ⟨?_, ?_, ?_⟩
  · rw [hline, pairwise_append]
    exact ⟨h.order, pairwise_singleton _ _, fun a ha b hb => mem_singleton.mp hb ▸ h.came a ha⟩
  · rw [hline, hcame]
    exact forall_mem_append.mpr ⟨fun j hj => Nat.lt_succ_of_lt (h.came j hj),
      forall_mem_singleton.mpr (Nat.lt_succ_self _)⟩
  · rw [hline, hcame, hgone]
    intro j hj
    rcases Nat.lt_succ_iff_lt_or_eq.mp hj with hj | rfl
    · exact (h.all j hj).imp_left fun hj => mem_append_left _ hj
    · exact .inl (mem_append_right _ mem_cons_self)

theorem Sound.take (h : s.Sound) : s.take.Sound := by
  rw [Turn.take]
  rcases h.owner with ⟨hheld, howner⟩ | ⟨hheld, hholders, hready, hwaiting⟩
  · rw [if_pos hheld]
    exact ⟨h.arrive (by simp [line]) rfl rfl, .inl ⟨hheld, howner⟩⟩
  · rw [if_neg (by simp [hheld])]
    refine ⟨h.arrive ?_ rfl rfl, .inl ⟨rfl, s.came, ?_⟩⟩
    · simp [line, enter, hready, hwaiting]
    · simp [enter, hholders, hready]

/-- The turn goes to the first in the queue, or is free. -/
theorem Lined.give (h : s.Lined) (hheld : s.held = true) (hholders : s.holders = [])
    (hready : s.ready = []) : s.give.Sound := by
  rw [Turn.give]
  split
  · next hw => exact ⟨{ h with }, .inr ⟨rfl, hholders, hready, hw⟩⟩
  · next i rest hw =>
    have hline : line { s with waiting := rest, ready := s.ready ++ [i] } = s.line := by
      simp [line, hw]
    refine ⟨h.leave (hline ▸ .refl _) rfl (fun j hj => .inl (hline ▸ hj)) (.refl _),
      .inl ⟨hheld, i, ?_⟩⟩
    simp [hholders, hready]

theorem Sound.owned (h : s.Sound) (hi : i ∈ s.holders ++ s.ready) :
    s.held = true ∧ s.holders ++ s.ready = [i] := by
  rcases h.owner with ⟨hheld, j, hj⟩ | ⟨-, hholders, hready, -⟩
  · rw [hj, mem_singleton] at hi
    exact ⟨hheld, hi ▸ hj⟩
  · simp [hholders, hready] at hi

theorem Sound.of_ready (h : s.Sound) (hi : i ∈ s.ready) :
    s.held = true ∧ s.holders = [] ∧ s.ready = [i] := by
  obtain ⟨hheld, howner⟩ := h.owned (mem_append_right _ hi)
  rcases append_eq_singleton_iff.mp howner with ⟨h₁, h₂⟩ | ⟨h₁, h₂⟩
  · exact ⟨hheld, h₁, h₂⟩
  · simp [h₂] at hi

theorem Sound.resume (h : s.Sound) (hi : i ∈ s.ready) :
    ({ s with ready := s.ready.erase i }.enter i).Sound := by
  obtain ⟨-, hholders, hready⟩ := h.of_ready hi
  have hline : line ({ s with ready := s.ready.erase i }.enter i) = s.line := by
    simp [line, enter, hready]
  refine ⟨h.leave (hline ▸ .refl _) rfl (fun j hj => .inl (hline ▸ hj)) (.refl _),
    .inl ⟨rfl, i, ?_⟩⟩
  simp [enter, hholders, hready]

theorem Sound.giveBack (h : s.Sound) (hi : i ∈ s.holders) :
    ({ s with holders := s.holders.erase i }.give).Sound := by
  obtain ⟨hheld, howner⟩ := h.owned (mem_append_left _ hi)
  rcases append_eq_singleton_iff.mp howner with ⟨h₁, h₂⟩ | ⟨h₁, h₂⟩
  · simp [h₁] at hi
  · exact Lined.give { h with } hheld (by simp [h₁]) h₂

/-- **Destroying** a coroutine, unless it is one that was handed the turn and does not pass it
on. -/
theorem Sound.destroy {passes : Bool} (h : s.Sound) (hok : passes = true ∨ i ∉ s.ready)
    (hstep : s.destroy passes i = some t) : t.Sound := by
  rw [Turn.destroy] at hstep
  split at hstep
  · cases hstep
    refine ⟨h.leave (((erase_sublist).append_left _).append_left _) rfl (fun j hj => ?_)
      (subset_cons_self _ _), ?_⟩
    · by_cases hj' : j = i
      · exact .inr (hj' ▸ mem_cons_self)
      · left
        simpa [line, mem_erase_of_ne hj'] using hj
    · refine h.owner.imp_right fun ⟨h₁, h₂, h₃, h₄⟩ => ⟨h₁, h₂, h₃, ?_⟩
      simp [h₄]
  · obtain ⟨hr, hstep⟩ := ite_none_right_eq_some.mp hstep
    obtain rfl := hok.resolve_right fun hnot => hnot hr
    cases hstep
    obtain ⟨hheld, hholders, hready⟩ := h.of_ready hr
    refine Lined.give (h.leave ?_ rfl (fun j hj => ?_) (subset_cons_self _ _)) hheld hholders
      (by simp [hready])
    · exact ((erase_sublist).append_right _).append_left _
    · simp only [line, hready, mem_append, erase_cons_head, mem_cons] at hj ⊢
      grind

/-- Nobody is destroyed who was handed the turn. -/
def keepsReady (s : Turn) : Event → Prop
  | .destroy i => i ∉ s.ready
  | _ => True

instance (s : Turn) (e : Event) : Decidable (s.keepsReady e) := by
  cases e <;> unfold keepsReady <;> infer_instance

theorem Sound.step {passes : Bool} (h : s.Sound) (hok : passes = true ∨ s.keepsReady e)
    (hstep : s.stepWith passes e = some t) : t.Sound := by
  cases e with
  | take =>
    cases hstep
    exact h.take
  | resume i =>
    obtain ⟨hi, hstep⟩ := ite_none_right_eq_some.mp hstep
    cases hstep
    exact h.resume hi
  | give i =>
    obtain ⟨hi, hstep⟩ := ite_none_right_eq_some.mp hstep
    cases hstep
    exact h.giveBack hi
  | destroy i => exact h.destroy hok hstep

theorem Sound.length_holders (h : s.Sound) : s.holders.length ≤ 1 := by
  rcases h.owner with ⟨-, i, hi⟩ | ⟨-, hholders, -⟩
  · have := congrArg length hi
    rw [length_append, length_singleton] at this
    omega
  · simp [hholders]

theorem Sound.free (h : s.Sound) (hholders : s.holders = []) (hready : s.ready = []) :
    s.held = false ∧ s.waiting = [] := by
  rcases h.owner with ⟨-, i, hi⟩ | ⟨hheld, -, -, hwaiting⟩
  · simp [hholders, hready] at hi
  · exact ⟨hheld, hwaiting⟩

/-- **A turnstile is a fair mutex**, whoever is destroyed: one holder at most; those who got it, the
one it is handed to and those who wait are in the order they came, with nobody missing who was not
destroyed; and with nobody who has it or was handed it, it is free and nobody waits. -/
theorem turn_fair {es : List Event} {s : Turn} (hrun : Runs.exec step {} es = some s) :
    s.holders.length ≤ 1 ∧
    ((s.got ++ (s.ready ++ s.waiting)).Pairwise (· < ·) ∧
      ∀ i < s.came, i ∈ s.got ++ (s.ready ++ s.waiting) ∨ i ∈ s.gone) ∧
    (s.holders = [] → s.ready = [] → s.held = false ∧ s.waiting = []) := by
  have h : s.Sound := Runs.exec_invariant (fun h _ hstep => h.step (.inl rfl) hstep) .initial
    (Runs.meets_true es _) hrun
  exact ⟨h.length_holders, ⟨h.order, h.all⟩, h.free⟩

/-- The first of two in the queue is destroyed once it was handed the turn, and the second has
it. -/
theorem turn_fair_abandoned :
    ∃ s, Runs.exec step {} [.take, .take, .take, .give 0, .destroy 1, .resume 2] = some s ∧
    s.holders = [2] ∧ s.holders.length ≤ 1 :=
  Runs.exists_exec rfl fun hs => ⟨rfl, (turn_fair hs).1⟩

/-! ## Gates -/

/-- **A gate** has one holder at most, and with nobody who has it or is to resume with it the next
`take` has it. -/
theorem gate_taken_at_once {es : List Event} {s : Turn}
    (hmeets : Runs.Meets gateStep keepsReady {} es) (hrun : Runs.exec gateStep {} es = some s) :
    s.holders.length ≤ 1 ∧ (s.holders = [] → s.ready = [] → s.take.holders = [s.came]) := by
  have h : s.Sound :=
    Runs.exec_invariant (fun h hok hstep => h.step (.inr hok) hstep) .initial hmeets hrun
  refine ⟨h.length_holders, fun hholders hready => ?_⟩
  rw [take, if_neg (by simp [(h.free hholders hready).1]), enter, hholders]

theorem gate_taken_at_once_handed :
    ∃ s, Runs.exec gateStep {} [.take, .take, .give 0, .resume 1, .give 1] = some s ∧
    s.take.holders = [2] :=
  Runs.exists_exec rfl fun hs => (gate_taken_at_once (by decide) hs).2 rfl rfl

/-- Who was handed the gate is destroyed, and nobody can take it any more. -/
theorem gate_lost : ∃ s, Runs.exec gateStep {} [.take, .take, .give 0, .destroy 1] = some s ∧
    s.holders = [] ∧ s.ready = [] ∧ s.take.holders = [] :=
  ⟨_, rfl, rfl, rfl, rfl⟩

end Turn
end Rail.Io
