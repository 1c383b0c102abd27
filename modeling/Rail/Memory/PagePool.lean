import Rail.Foundation.Runs
import Mathlib.Data.List.Perm.Basic
import Mathlib.Data.List.Nodup

/-!
# The page pool

`PagePool` of `src/page-pool.cc`.  Who finds no free page waits in a queue; a page that comes back
wakes the first of them, which looks again when it runs.  The page is not kept for it, and whoever
comes in between may take it; then the one that was woken waits again, at the end of the queue.

As long as somebody waits, at least as many are woken as there are free pages.  One that was woken
and is destroyed before it runs takes the wakeup along, and a page may stay free with others in the
queue.
-/

namespace Rail.Memory

open List Option

/-- A backed pool, with its acquirers numbered as they come. -/
structure PagePool where
  /-- `FreeList`, with its back at the head. -/
  free : List ℕ
  waiters : List ℕ := []
  /-- Woken, and in `Ready` of the loop. -/
  ready : List ℕ := []
  /-- The pages that are out, and who has each. -/
  out : List (ℕ × ℕ) := []
  came : ℕ := 0
  deriving DecidableEq

namespace PagePool

inductive Event where
  | acquire
  /-- The loop resumes an acquirer. -/
  | resume (i : ℕ)
  /-- The owner of a page lets it go. -/
  | release (page : ℕ × ℕ)
  /-- An acquirer that waits is destroyed. -/
  | destroy (i : ℕ)
  deriving DecidableEq

def start (pageCount : ℕ) : PagePool := { free := range pageCount }

variable (s : PagePool)

/-- Once round the loop of `acquire`. -/
def pass (i : ℕ) : PagePool :=
  match s.free with
  | [] => { s with waiters := s.waiters ++ [i] }
  | page :: rest => { s with free := rest, out := (page, i) :: s.out }

def releaseIndex (index : ℕ) : PagePool :=
  match s.waiters with
  | [] => { s with free := index :: s.free }
  | i :: rest => { s with free := index :: s.free, waiters := rest, ready := s.ready ++ [i] }

def step : Event → Option PagePool
  | .acquire => some { s.pass s.came with came := s.came + 1 }
  | .resume i => if i ∈ s.ready then some ({ s with ready := s.ready.erase i }.pass i) else none
  | .release page =>
      if page ∈ s.out then some ({ s with out := s.out.erase page }.releaseIndex page.1) else none
  | .destroy i =>
    if i ∈ s.waiters then some { s with waiters := s.waiters.erase i }
    else if i ∈ s.ready then some { s with ready := s.ready.erase i }
    else none

/-- Nobody is destroyed who was woken. -/
def keepsReady : Event → Prop
  | .destroy i => i ∈ s.waiters
  | _ => True

instance (s : PagePool) (e : Event) : Decidable (s.keepsReady e) := by
  cases e <;> unfold keepsReady <;> infer_instance

variable {n i : ℕ} {s t : PagePool} {e : Event}

/-- The pages of the pool, free and out. -/
def pages (s : PagePool) : List ℕ := s.free ++ s.out.map Prod.fst

structure Sound (n : ℕ) (s : PagePool) : Prop where
  pages : s.pages ~ range n
  woken : s.waiters ≠ [] → s.free.length ≤ s.ready.length

theorem Sound.start (n : ℕ) : Sound n (start n) :=
  ⟨by simp [PagePool.pages, PagePool.start], fun h => absurd rfl h⟩

/-- Whoever looks for a page uses up one free page, or none was free. -/
theorem pass_sound (hpages : s.pages ~ range n)
    (hwoken : s.waiters ≠ [] → s.free.length ≤ s.ready.length + 1) (i : ℕ) :
    Sound n (s.pass i) := by
  rw [pass]
  split
  · next hfree => exact ⟨hpages, fun _ => by simp [hfree]⟩
  · next page rest hfree =>
    refine ⟨?_, fun hw => ?_⟩
    · refine .trans ?_ hpages
      rw [PagePool.pages, PagePool.pages, hfree]
      exact perm_middle
    · have := hwoken hw
      rw [hfree, length_cons] at this
      exact Nat.le_of_succ_le_succ this

theorem releaseIndex_sound {index : ℕ} (hpages : index :: s.pages ~ range n)
    (hwoken : s.waiters ≠ [] → s.free.length ≤ s.ready.length) :
    Sound n (s.releaseIndex index) := by
  rw [releaseIndex]
  split
  · next hw => exact ⟨hpages, fun h => absurd hw h⟩
  · next i rest hw =>
    refine ⟨hpages, fun _ => ?_⟩
    rw [length_cons, length_append]
    exact Nat.succ_le_succ (hwoken (hw ▸ cons_ne_nil i rest))

/-- **Every step** but the end of an acquirer that was woken keeps pages and wakeups. -/
theorem Sound.step (h : Sound n s) (hok : s.keepsReady e) (hstep : s.step e = some t) :
    Sound n t := by
  cases e with
  | acquire =>
    cases hstep
    have hpass := pass_sound h.pages (fun hw => Nat.le_succ_of_le (h.woken hw)) s.came
    exact { hpass with }
  | resume i =>
    obtain ⟨hi, hstep⟩ := ite_none_right_eq_some.mp hstep
    cases hstep
    refine pass_sound (s := { s with ready := s.ready.erase i }) h.pages (fun hw => ?_) i
    have hlen := length_erase_add_one hi
    have := h.woken hw
    show s.free.length ≤ (s.ready.erase i).length + 1
    omega
  | release page =>
    obtain ⟨hpage, hstep⟩ := ite_none_right_eq_some.mp hstep
    cases hstep
    refine releaseIndex_sound (.trans ?_ h.pages) h.woken
    exact perm_middle.symm.trans (((perm_cons_erase hpage).symm.map Prod.fst).append_left s.free)
  | destroy i =>
    rw [PagePool.step, if_pos (show i ∈ s.waiters from hok)] at hstep
    cases hstep
    exact ⟨h.pages, fun hw => h.woken fun hnil => hw (by simp [hnil])⟩

/-- **Pages and wakeups.**  Every page is free or with one owner, and there is no free page with
somebody waiting and nobody about to look. -/
theorem pool_keeps_pages_and_wakeups (pageCount : ℕ) {es : List Event} {s : PagePool}
    (hmeets : Runs.Meets step keepsReady (start pageCount) es)
    (hrun : Runs.exec step (start pageCount) es = some s) :
    (s.free ++ s.out.map Prod.fst) ~ range pageCount ∧
    ¬ (s.free ≠ [] ∧ s.waiters ≠ [] ∧ s.ready = []) := by
  have h : Sound pageCount s :=
    Runs.exec_invariant (fun h hok hstep => h.step hok hstep) (.start _) hmeets hrun
  refine ⟨h.pages, fun ⟨hfree, hwaiters, hready⟩ => ?_⟩
  have := h.woken hwaiters
  rw [hready, length_nil, Nat.le_zero, length_eq_zero_iff] at this
  exact hfree this

/-- A page comes back with two in the queue, and is taken by another. -/
theorem pool_keeps_pages_and_wakeups_stolen :
    ∃ s, Runs.exec step (start 1) [.acquire, .acquire, .acquire, .release (0, 0), .acquire,
      .resume 1] = some s ∧ s.waiters = [2, 1] ∧ (s.free ++ s.out.map Prod.fst) ~ range 1 :=
  Runs.exists_exec rfl fun hs => ⟨rfl, (pool_keeps_pages_and_wakeups _ (by decide) hs).1⟩

/-- The one that was woken is destroyed, and the page stays free with another in the queue. -/
theorem pool_loses_wakeup :
    ∃ s, Runs.exec step (start 1) [.acquire, .acquire, .acquire, .release (0, 0), .destroy 1] =
    some s ∧ s.free ≠ [] ∧ s.waiters ≠ [] ∧ s.ready = [] :=
  ⟨_, rfl, by decide, by decide, rfl⟩

end PagePool
end Rail.Memory
