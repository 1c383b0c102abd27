import Mathlib.Order.Basic
import Mathlib.Algebra.Group.Nat.Defs

/-!
# What a direct request leaves cached

`src/linux/railfs-direct.c`.  A request on a file that is open with `O_DIRECT` is served through the
page cache, and what it left there is evicted later: ranges that meet are put together into a run,
and the run goes when it is wide enough, when a request is made elsewhere, or when the file is
released.

Completions take the lock of the run one after another, so that a list of them is every order of
concurrent ones.  What `generic_file_write_iter` does with a position is Linux': a request with
`IOCB_APPEND` is moved to the end of the file by `generic_write_checks`, after `railfs_write_iter`
has taken `ki_pos` down.
-/

namespace Rail.Kernel.Direct

open List

/-- A range of the file, to be written back before it is dropped if it is dirty. -/
structure Run where
  start : ℕ
  stop : ℕ
  dirty : Bool
  le : start ≤ stop
  deriving DecidableEq

/-- The range from `start` to `stop` is in it, and if it was written, the run is dirty. -/
def Run.Holds (r : Run) (start stop : ℕ) (writing : Bool) : Prop :=
  r.start ≤ start ∧ stop ≤ r.stop ∧ (writing = true → r.dirty = true)

/-- The run that a range from `start` on displaces. -/
def Run.displaced (run : Run) (start : ℕ) (writing : Bool) : Run :=
  if run.stop ≠ start then run else ⟨0, 0, writing, Nat.le_refl _⟩

/-- The run with the range in it. -/
def Run.extended (run : Run) (start done : ℕ) (writing : Bool) : Run :=
  if h : run.stop ≠ start then ⟨start, start + done, writing, Nat.le_add_right ..⟩
  else ⟨run.start, start + done, run.dirty || writing, by have := run.le; omega⟩

/-- What goes and what stays hold what the run held and the new range. -/
theorem Run.holds_parts (run : Run) {start done a b : ℕ} {writing w : Bool}
    (h : run.Holds a b w ∨ start ≤ a ∧ b ≤ start + done ∧ (w = true → writing = true)) :
    (run.displaced start writing).Holds a b w ∨ (run.extended start done writing).Holds a b w := by
  have hle := run.le
  rw [displaced, extended]
  split_ifs with hjoin
  · exact h
  · refine .inr ?_
    obtain ⟨h₁, h₂, h₃⟩ | ⟨h₁, h₂, h₃⟩ := h
    · exact ⟨h₁, by dsimp only; omega, fun hw => by simp [h₃ hw]⟩
    · exact ⟨by dsimp only; omega, h₂, fun hw => by simp [h₃ hw]⟩

/-- An open file: the run, if it was opened for direct requests, and what was passed to
`filemap_write_and_wait_range` and `invalidate_mapping_pages`. -/
structure File where
  run : Option Run
  evicted : List Run

/-- A request that has been served: `ki_pos` at its begin, the size of the file when it was checked,
and how much was done. -/
structure Request where
  writing : Bool
  append : Bool
  pos : ℕ
  isize : ℕ
  done : ℕ
  deriving DecidableEq

/-- Where the request was served. -/
def Request.served (r : Request) : ℕ :=
  if r.writing && r.append then r.isize else r.pos

/-- `RAILFS_DIRECT_RUN`. -/
def directRun : ℕ := 32 * 2 ^ 20

/-- `railfs_direct_open`. -/
def File.opened (direct : Bool) : File :=
  ⟨if direct then some ⟨0, 0, false, Nat.le_refl _⟩ else none, []⟩

namespace File

variable {s : File} {start done a b : ℕ} {writing w : Bool}

/-- `railfs_evict_range`. -/
def evictRange (s : File) (r : Run) : File :=
  if r.stop ≤ r.start then s else { s with evicted := r :: s.evicted }

/-- `railfs_evict_later`: a run that the range does not join goes, and so does one that has grown
wide. -/
def evictLater (s : File) (start done : ℕ) (writing : Bool) : File :=
  match s.run with
  | none => s.evictRange ⟨start, start + done, writing, Nat.le_add_right ..⟩
  | some run =>
    let gone := run.displaced start writing
    let run := run.extended start done writing
    if gone.stop = 0 ∧ directRun ≤ run.stop - run.start then
      evictRange ⟨some ⟨run.stop, run.stop, false, Nat.le_refl _⟩, s.evicted⟩ run
    else evictRange ⟨some run, s.evicted⟩ gone

/-- The end of `railfs_read_iter` and `railfs_write_iter`. -/
def complete (s : File) (r : Request) : File :=
  if 0 < r.done then s.evictLater r.pos r.done r.writing else s

/-- `railfs_direct_release`. -/
def release (s : File) : File :=
  match s.run with
  | none => s
  | some run => evictRange ⟨none, s.evicted⟩ run

/-- The range is in one that was evicted, or in the run. -/
def Covers (s : File) (start stop : ℕ) (writing : Bool) : Prop :=
  (∃ r ∈ s.evicted, r.Holds start stop writing) ∨ ∃ r, s.run = some r ∧ r.Holds start stop writing

/-- An eviction leaves covered what was, and the range it evicts. -/
theorem covers_evictRange {gone : Run} (hab : a < b) (h : s.Covers a b w ∨ gone.Holds a b w) :
    (s.evictRange gone).Covers a b w := by
  rw [evictRange]
  split_ifs with hempty
  · exact h.resolve_right fun ⟨h₁, h₂, _⟩ => by omega
  · obtain (⟨r, hr, h⟩ | h) | h := h
    · exact .inl ⟨r, mem_cons_of_mem gone hr, h⟩
    · exact .inr h
    · exact .inl ⟨gone, mem_cons_self, h⟩

/-- What a completion leaves covered: what was, and its own range. -/
theorem covers_evictLater (hab : a < b)
    (h : s.Covers a b w ∨ start ≤ a ∧ b ≤ start + done ∧ (w = true → writing = true)) :
    (s.evictLater start done writing).Covers a b w := by
  rw [evictLater]
  split
  · exact covers_evictRange hab h
  next run hrun =>
    have hheld : (∃ r ∈ s.evicted, r.Holds a b w) ∨ _ ∨ _ := or_assoc.mp h |>.imp_right fun h =>
      run.holds_parts (h.imp_left fun ⟨r, hr, h⟩ => Option.some.inj (hrun.symm.trans hr) ▸ h)
    dsimp only
    split_ifs with hcut
    · refine covers_evictRange hab (hheld.imp .inl fun h => ?_)
      exact h.resolve_left fun ⟨_, h₂, _⟩ => by omega
    · obtain h | h | h := hheld
      · exact covers_evictRange hab (.inl (.inl h))
      · exact covers_evictRange hab (.inr h)
      · exact covers_evictRange hab (.inl (.inr ⟨_, rfl, h⟩))

end File

/-- An appending write is begun at the end of the file. -/
def Request.inPlace (r : Request) : Bool :=
  !(r.writing && r.append) || r.pos == r.isize

theorem Request.served_eq {r : Request} (h : r.inPlace = true) : r.served = r.pos := by
  rw [served]
  split_ifs with hap
  · simp only [inPlace, hap, Bool.not_true, Bool.false_or, beq_iff_eq] at h
    exact h.symm
  · rfl

/-- The file after the requests and its release. -/
def File.used (direct : Bool) (rs : List Request) : File :=
  (rs.foldl File.complete (.opened direct)).release

theorem File.covers_foldl (rs : List Request) (s : File) {r : Request} (hd : 0 < r.done)
    (h : r ∈ rs ∨ s.Covers r.pos (r.pos + r.done) r.writing) :
    (rs.foldl complete s).Covers r.pos (r.pos + r.done) r.writing := by
  induction rs generalizing s with
  | nil => exact h.resolve_left not_mem_nil
  | cons q rs ih =>
    rw [mem_cons, or_assoc, or_left_comm] at h
    refine ih _ (h.imp_right fun h => ?_)
    rw [complete]
    split_ifs with hq
    · refine covers_evictLater (by omega) (h.symm.imp_right ?_)
      rintro rfl
      exact ⟨Nat.le_refl _, Nat.le_refl _, id⟩
    · exact h.resolve_left fun h => hq (h ▸ hd)

/-- **Nothing that was served directly is left in the cache** when the file has been released, if
appending writes are begun at the end of the file: it is in a range that was evicted, and that was
written back first if it was written. -/
theorem served_evicted (direct : Bool) (rs : List Request) (hplace : ∀ r ∈ rs, r.inPlace = true) :
    ∀ r ∈ rs, 0 < r.done → ∃ e ∈ (File.used direct rs).evicted,
    e.Holds r.served (r.served + r.done) r.writing := by
  intro r hr hd
  rw [Request.served_eq (hplace r hr)]
  have h := File.covers_foldl rs (.opened direct) hd (.inl hr)
  rw [File.used, File.release]
  split
  next hrun => exact h.resolve_right fun ⟨_, hsome, _⟩ => by simp [hrun] at hsome
  next run hrun =>
    -- the run is gone, so that what is covered now was evicted
    have hcov : File.Covers (.evictRange ⟨none, _⟩ run) _ _ _ :=
      File.covers_evictRange (Nat.lt_add_of_pos_right hd)
      (h.imp .inl fun ⟨e, hsome, h⟩ => Option.some.inj (hrun.symm.trans hsome) ▸ h)
    refine hcov.resolve_right fun ⟨e, hsome, _⟩ => ?_
    rw [File.evictRange] at hsome
    split_ifs at hsome

/-- Two reads that meet, a write elsewhere and an appending write behind it. -/
theorem served_evicted_four :
    ∃ e ∈ (File.used true [⟨false, false, 0, 9, 4⟩, ⟨false, false, 4, 9, 2⟩, ⟨true, false, 8, 9, 1⟩,
      ⟨true, true, 9, 9, 5⟩]).evicted, e.Holds 9 14 true :=
  served_evicted true _ (by decide) ⟨true, true, 9, 9, 5⟩ (by decide) (by decide)

/-- **An appending write stays in the cache.**  A file of two pages is opened, and three bytes are
appended with the position still at its begin: what is evicted is the first three bytes, in the
first page. -/
theorem append_stays_cached :
    ¬ ∀ (direct : Bool) (rs : List Request), ∀ r ∈ rs, 0 < r.done →
      ∃ e ∈ (File.used direct rs).evicted, e.Holds r.served (r.served + r.done) r.writing := by
  intro hall
  obtain ⟨e, he, h⟩ := hall true [⟨true, true, 0, 8192, 3⟩] _ mem_cons_self (by decide)
  have he : e ∈ [Run.mk 0 3 true (by decide)] := he
  cases mem_singleton.mp he
  exact absurd h.2.1 (by decide)

end Rail.Kernel.Direct
