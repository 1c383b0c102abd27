import Rail.Foundation.Bitmap
import Rail.Foundation.Modify
import Rail.Foundation.Runs
import Mathlib.Order.Basic

/-!
# The registered-memory allocator

`Memory` hands out runs of frames from regions of one size.  A region keeps a bitmap of its taken
frames and a count of them; `takeLocked` looks through the regions in order, skips those whose
count says that they cannot serve the request, and takes the first range of clear frames that is
long enough.  Where no region has one, `alloc` adds a region, up to a ceiling, and looks again.

The invariant is `Sound`: the bitmap is exactly the union of the runs that are out, these are
pairwise disjoint and inside their regions, and the count of a region is the number of its taken
frames.  The count decides which regions are skipped, so without it the search would not be
complete; with it a request that comes back empty-handed says something about the bitmaps.

Whether a new region can be built (memory, registration with the devices) is outside the allocator
and a parameter of every allocation.
-/

namespace Rail.Memory

open List Option Bitmap

/-! ## Regions -/

/-- The constants a memory is built with. A frame has at least one byte: the constructor divides
by its size. -/
structure Layout where
  regionBytes : ℕ
  frameSize : ℕ
  regionCeiling : ℕ
  frame_pos : 0 < frameSize

namespace Layout

/-- The number of frames a request needs, in `size_t` arithmetic. -/
def framesFor (lay : Layout) (bytes : ℕ) : ℕ := (bytes + lay.frameSize - 1) % 2 ^ 64 / lay.frameSize

/-- The number of frames of one region. -/
def regionFrames (lay : Layout) : ℕ := lay.regionBytes / lay.frameSize

theorem framesFor_zero (lay : Layout) : lay.framesFor 0 = 0 := by
  have hle : (0 + lay.frameSize - 1) % 2 ^ 64 ≤ 0 + lay.frameSize - 1 := Nat.mod_le _ _
  have := lay.frame_pos
  exact Nat.div_eq_of_lt (by omega)

end Layout

structure Region where
  taken : List Bool
  used : ℕ
  deriving DecidableEq

/-- A run of frames: its region, by its place in the list of regions, its first frame and the
number of its frames. -/
structure Run where
  home : ℕ
  first : ℕ
  frames : ℕ
  deriving DecidableEq

namespace Run

/-- Frame `j` of region `i` belongs to the run. -/
def Covers (r : Run) (i j : ℕ) : Prop := r.home = i ∧ r.first ≤ j ∧ j < r.first + r.frames

/-- The two runs share no frame. -/
def Apart (a b : Run) : Prop := ∀ i j, a.Covers i j → ¬ b.Covers i j

theorem Apart.symm {a b : Run} (h : a.Apart b) : b.Apart a := fun i j hb ha => h i j ha hb

end Run

namespace Region

/-- The place in this region a request is served from, if the region is not skipped. -/
def place (r : Region) (frames : ℕ) : Option ℕ :=
  if frames > r.taken.length - r.used then none else firstFit r.taken frames

def take (r : Region) (first frames : ℕ) : Region :=
  { taken := fill true r.taken first frames, used := r.used + frames }

def release (r : Region) (first frames : ℕ) : Region :=
  { taken := fill false r.taken first frames, used := r.used - frames }

end Region

/-- The first region that can serve the request, and the place in it. -/
def place (frames : ℕ) : List Region → Option (ℕ × ℕ)
  | [] => none
  | r :: rest =>
    match r.place frames with
    | some first => some (0, first)
    | none => (place frames rest).map fun p => (p.1 + 1, p.2)

/-! ## The allocator -/

/-- The state of the allocator. The runs that are out are recorded beside it: in the source they
are in the hands of their owners. -/
structure Arena where
  layout : Layout
  regions : List Region
  live : List Run

namespace Arena

variable (m : Arena)

/-- Frame `j` of region `i` is taken. -/
def Taken (i j : ℕ) : Prop := ∃ r, m.regions[i]? = some r ∧ r.taken[j]? = some true

def takeLocked (frames : ℕ) : Option (Run × Arena) :=
  match place frames m.regions with
  | none => none
  | some (i, first) =>
    let run : Run := { home := i, first, frames }
    some (run, { m with
      regions := m.regions.modify i (·.take first frames), live := m.live ++ [run] })

/-- Add a region below the ceiling, if one can be built. -/
def growLocked (built : Bool) : Option Arena :=
  if m.regions.length ≥ m.layout.regionCeiling then none
  else if built then
    some { m with regions :=
      m.regions ++ [{ taken := List.replicate m.layout.regionFrames false, used := 0 }] }
  else none

/-- The constructor: a memory without its first region is not built. -/
def create (lay : Layout) (built : Bool) : Option Arena :=
  growLocked { layout := lay, regions := [], live := [] } built

/-- An allocation, with whether a region could be built if it comes to that. -/
def alloc (bytes : ℕ) (built : Bool) : Option Run × Arena :=
  if bytes = 0 then (none, m)
  else
    let frames := m.layout.framesFor bytes
    if frames > m.layout.regionFrames then (none, m)
    else
      match m.takeLocked frames with
      | some (run, m') => (some run, m')
      | none =>
        -- the second look, once this caller is the one grower
        match m.takeLocked frames with
        | some (run, m') => (some run, m')
        | none =>
          match m.growLocked built with
          | none => (none, m)
          | some m' =>
            match m'.takeLocked frames with
            | some (run, m'') => (some run, m'')
            | none => (none, m')

def release (m : Arena) (run : Run) : Arena :=
  { m with regions := m.regions.modify run.home (·.release run.first run.frames) }

/-- What owners do: allocate, or let go of the run at a place of the list of live ones. -/
inductive Event where
  | alloc (bytes : ℕ) (built : Bool)
  | release (k : ℕ)
  deriving DecidableEq

def step : Event → Option Arena
  | .alloc bytes built => some (m.alloc bytes built).2
  | .release k => m.live[k]?.map fun run => { m.release run with live := m.live.eraseIdx k }

end Arena

/-! ## The search -/

variable {first frames : ℕ} {r : Region}

namespace Region

theorem clear_of_place (h : r.place frames = some first) : Clear r.taken first frames := by
  rw [place] at h
  split_ifs at h with hskip
  exact clear_of_firstFit h

/-- A region that is skipped has too few clear frames, as long as its count is right. -/
theorem not_clear_of_place (hpos : 0 < frames) (hused : r.used = r.taken.count true)
    (h : r.place frames = none) : ¬ Clear r.taken first frames := by
  rw [place] at h
  by_cases hskip : frames > r.taken.length - r.used
  · intro hc
    have := hc.le_count
    omega
  · rw [if_neg hskip] at h
    exact not_clear_of_firstFit hpos h

end Region

theorem place_eq_some {i : ℕ} {regions : List Region} (h : place frames regions = some (i, first)) :
    ∃ r, regions[i]? = some r ∧ r.place frames = some first := by
  induction regions generalizing i with
  | nil => cases h
  | cons r rest ih =>
    rw [place] at h
    cases hr : r.place frames with
    | some f =>
      rw [hr] at h
      cases h
      exact ⟨r, rfl, hr⟩
    | none =>
      rw [hr] at h
      obtain ⟨⟨i', f⟩, hp, heq⟩ := map_eq_some_iff.mp h
      cases heq
      exact ih hp

theorem place_eq_none {regions : List Region} (h : place frames regions = none) :
    ∀ r ∈ regions, r.place frames = none := by
  induction regions with
  | nil =>
    intro r hr
    cases hr
  | cons r rest ih =>
    rw [place] at h
    cases hr : r.place frames with
    | some f =>
      rw [hr] at h
      cases h
    | none =>
      rw [hr] at h
      intro r' hr'
      rcases mem_cons.mp hr' with rfl | hr'
      · exact hr
      · exact ih (map_eq_none_iff.mp h) r' hr'

/-! ## The invariant -/

/-- The bitmaps are the runs that are out, and the counts are those of the bitmaps. -/
structure Sound (m : Arena) : Prop where
  shape : ∀ r ∈ m.regions, r.taken.length = m.layout.regionFrames
  counted : ∀ r ∈ m.regions, r.used = r.taken.count true
  covered : ∀ i j, m.Taken i j ↔ ∃ run ∈ m.live, run.Covers i j
  inside : ∀ run ∈ m.live, run.home < m.regions.length ∧
    run.first + run.frames ≤ m.layout.regionFrames
  apart : m.live.Pairwise Run.Apart

namespace Arena

variable {m m' : Arena} {run : Run} {frames bytes : ℕ} {built : Bool}

/-- A range of one region gets one value, seen frame by frame. -/
theorem taken_fill {i n : ℕ} {r' : Region} {v : Bool} {live : List Run}
    (hr : m.regions[i]? = some r) (hin : first + n ≤ r.taken.length)
    (hr' : r'.taken = fill v r.taken first n) (i' j : ℕ) :
    Taken { m with regions := m.regions.set i r', live } i' j ↔
      if i = i' ∧ first ≤ j ∧ j < first + n then v = true else m.Taken i' j := by
  have hi := (List.getElem?_eq_some_iff.mp hr).1
  by_cases h : i = i'
  · subst h
    simp only [Taken, getElem?_set_self hi, hr, Option.some.injEq, exists_eq_left', true_and]
    rw [hr', getElem?_fill hin]
    by_cases hj : first ≤ j ∧ j < first + n
    · rw [if_pos hj, if_pos hj, Option.some.injEq]
    · rw [if_neg hj, if_neg hj]
  · rw [if_neg fun hc => h hc.1]
    simp only [Taken, getElem?_set_ne h]

theorem takeLocked_eq_some (h : m.takeLocked frames = some (run, m')) :
    ∃ i r first, m.regions[i]? = some r ∧ Clear r.taken first frames ∧
      run = { home := i, first, frames } ∧
      m' = { m with
        regions := m.regions.set i (r.take first frames), live := m.live ++ [run] } := by
  rw [takeLocked] at h
  cases hp : place frames m.regions with
  | none =>
    rw [hp] at h
    cases h
  | some p =>
    obtain ⟨i, first⟩ := p
    obtain ⟨r, hr, hplace⟩ := place_eq_some hp
    rw [hp] at h
    cases h
    refine ⟨i, r, first, hr, Region.clear_of_place hplace, rfl, ?_⟩
    rw [modify_eq_set_getElem?, hr]
    rfl

/-- A request the search does not serve has no place anywhere. -/
theorem not_clear_of_takeLocked (hs : Sound m) (hpos : 0 < frames) (h : m.takeLocked frames = none)
    (hr : r ∈ m.regions) (first : ℕ) : ¬ Clear r.taken first frames := by
  cases hp : place frames m.regions with
  | none => exact Region.not_clear_of_place hpos (hs.counted r hr) (place_eq_none hp r hr)
  | some p =>
    rw [takeLocked, hp] at h
    cases h

theorem growLocked_eq_some (h : m.growLocked built = some m') :
    m.regions.length < m.layout.regionCeiling ∧
    m' = { m with regions :=
      m.regions ++ [{ taken := List.replicate m.layout.regionFrames false, used := 0 }] } := by
  rw [growLocked] at h
  by_cases hfull : m.regions.length ≥ m.layout.regionCeiling
  · rw [if_pos hfull] at h
    cases h
  · rw [if_neg hfull] at h
    cases built with
    | false => cases h
    | true =>
      cases h
      exact ⟨Nat.lt_of_not_le hfull, rfl⟩

end Arena

/-! ## What every section under the lock keeps -/

namespace Sound

open Arena

variable {m m' : Arena} {run : Run} {frames bytes : ℕ} {built : Bool}

section

variable (hs : Sound m)
include hs

theorem region_of_home (hrun : run ∈ m.live) :
    ∃ r ∈ m.regions, m.regions[run.home]? = some r ∧ run.first + run.frames ≤ r.taken.length := by
  obtain ⟨hhome, hin⟩ := hs.inside run hrun
  refine ⟨m.regions[run.home], getElem_mem hhome, getElem?_eq_getElem hhome, ?_⟩
  rw [hs.shape _ (getElem_mem hhome)]
  exact hin

/-- A region's frames all belong to the run: they are taken. -/
theorem taken_of_covers (hrun : run ∈ m.live) (hr : m.regions[run.home]? = some r) {j : ℕ}
    (h₁ : run.first ≤ j) (h₂ : j < run.first + run.frames) : r.taken[j]? = some true := by
  obtain ⟨r', hr', hj⟩ := (hs.covered run.home j).mpr ⟨run, hrun, rfl, h₁, h₂⟩
  rw [hr] at hr'
  cases hr'
  exact hj

theorem takeLocked (h : m.takeLocked frames = some (run, m')) : Sound m' := by
  obtain ⟨i, r, first, hr, hclear, rfl, rfl⟩ := takeLocked_eq_some h
  have hmem : r ∈ m.regions := mem_of_getElem? hr
  have hshape := hs.shape r hmem
  -- no run that is out has a frame in the range that is taken now
  have hfree : ∀ run' ∈ m.live, run'.Apart { home := i, first, frames } := by
    rintro run' hrun' i' j hc ⟨rfl, h₁, h₂⟩
    obtain ⟨r', hr', hj⟩ := (hs.covered i j).mpr ⟨run', hrun', hc⟩
    rw [hr] at hr'
    cases hr'
    rw [hclear.2 j h₁ h₂] at hj
    cases hj
  constructor
  · intro r' hr'
    rcases mem_or_eq_of_mem_set hr' with hr' | rfl
    · exact hs.shape r' hr'
    · rw [Region.take, length_fill]
      exact hshape
  · intro r' hr'
    rcases mem_or_eq_of_mem_set hr' with hr' | rfl
    · exact hs.counted r' hr'
    · rw [Region.take, count_fill (v := true) hclear.1 hclear.2, hs.counted r hmem]
  · intro i' j
    rw [taken_fill hr hclear.1 rfl]
    simp only [mem_append, mem_singleton, or_and_right, exists_or, exists_eq_left]
    rw [← hs.covered i' j]
    split_ifs with hj
    · exact iff_of_true trivial (.inr hj)
    · exact (or_iff_left hj).symm
  · intro run' hrun'
    rw [length_set]
    rcases mem_append.mp hrun' with hrun' | hrun'
    · exact hs.inside run' hrun'
    · obtain rfl := mem_singleton.mp hrun'
      exact ⟨(List.getElem?_eq_some_iff.mp hr).1, hshape ▸ hclear.1⟩
  · refine pairwise_append.mpr ⟨hs.apart, pairwise_singleton _ _, ?_⟩
    intro a ha b hb
    obtain rfl := mem_singleton.mp hb
    exact hfree a ha

theorem growLocked (h : m.growLocked built = some m') : Sound m' := by
  obtain ⟨-, rfl⟩ := growLocked_eq_some h
  constructor
  · exact forall_mem_append.mpr ⟨hs.shape, forall_mem_singleton.mpr length_replicate⟩
  · refine forall_mem_append.mpr ⟨hs.counted, forall_mem_singleton.mpr ?_⟩
    rw [count_replicate]
    rfl
  · intro i j
    rw [← hs.covered i j]
    constructor
    · rintro ⟨r, hr, hj⟩
      rcases Modify.of_getElem?_concat hr with hr | ⟨-, rfl⟩
      · exact ⟨r, hr, hj⟩
      · -- the new region has nothing taken
        have := eq_of_mem_replicate (mem_of_getElem? hj)
        cases this
    · rintro ⟨r, hr, hj⟩
      exact ⟨r, Modify.getElem?_concat hr _, hj⟩
  · intro run hrun
    obtain ⟨hhome, hin⟩ := hs.inside run hrun
    refine ⟨?_, hin⟩
    rw [length_append]
    exact Nat.lt_add_right _ hhome
  · exact hs.apart

/-- Of the runs left after one is let go, none shares a frame with it. -/
theorem apart_of_eraseIdx {k : ℕ} (hk : m.live[k]? = some run) {other : Run}
    (h : other ∈ m.live.eraseIdx k) : other ∈ m.live ∧ run.Apart other := by
  obtain ⟨k', hne, hk'⟩ := mem_eraseIdx_iff_getElem?.mp h
  refine ⟨mem_of_getElem? hk', ?_⟩
  obtain ⟨hlt, rfl⟩ := List.getElem?_eq_some_iff.mp hk
  obtain ⟨hlt', rfl⟩ := List.getElem?_eq_some_iff.mp hk'
  have hpair := pairwise_iff_getElem.mp hs.apart
  rcases Nat.lt_or_gt_of_ne hne with h | h
  · exact (hpair k' k hlt' hlt h).symm
  · exact hpair k k' hlt hlt' h

theorem release_eq (hrun : run ∈ m.live) : ∃ r ∈ m.regions, m.regions[run.home]? = some r ∧
    run.first + run.frames ≤ r.taken.length ∧
    m.release run = { m with
      regions := m.regions.set run.home (r.release run.first run.frames) } := by
  obtain ⟨r, hmem, hr, hin⟩ := hs.region_of_home hrun
  refine ⟨r, hmem, hr, hin, ?_⟩
  rw [Arena.release, modify_eq_set_getElem?, hr]
  rfl

/-- Letting go of a run clears its frames and no others. -/
theorem taken_release (hrun : run ∈ m.live) (live : List Run) (i j : ℕ) :
    Taken { m.release run with live } i j ↔ m.Taken i j ∧ ¬ run.Covers i j := by
  obtain ⟨r, -, hr, hin, heq⟩ := hs.release_eq hrun
  rw [heq, taken_fill hr hin rfl]
  by_cases hj : run.home = i ∧ run.first ≤ j ∧ j < run.first + run.frames
  · rw [if_pos hj]
    exact iff_of_false Bool.false_ne_true fun h => h.2 hj
  · rw [if_neg hj]
    exact (and_iff_left hj).symm

theorem release {k : ℕ} (hk : m.live[k]? = some run) :
    Sound { m.release run with live := m.live.eraseIdx k } := by
  have hrun := mem_of_getElem? hk
  have htaken := hs.taken_release hrun (m.live.eraseIdx k)
  obtain ⟨r, hmem, hr, hin, heq⟩ := hs.release_eq hrun
  constructor
  · intro r' hr'
    rw [heq] at hr'
    rcases mem_or_eq_of_mem_set hr' with hr' | rfl
    · rw [heq]
      exact hs.shape r' hr'
    · rw [heq, Region.release, length_fill]
      exact hs.shape r hmem
  · intro r' hr'
    rw [heq] at hr'
    rcases mem_or_eq_of_mem_set hr' with hr' | rfl
    · exact hs.counted r' hr'
    · rw [Region.release, count_true_fill_false hin fun j h₁ h₂ => hs.taken_of_covers hrun hr h₁ h₂,
        hs.counted r hmem]
  · intro i j
    rw [htaken, hs.covered i j]
    constructor
    · rintro ⟨⟨other, hother, hcov⟩, hnot⟩
      obtain ⟨k', hk'⟩ := mem_iff_getElem?.mp hother
      have hne : k' ≠ k := by
        rintro rfl
        rw [hk] at hk'
        cases hk'
        exact hnot hcov
      exact ⟨other, mem_eraseIdx_iff_getElem?.mpr ⟨k', hne, hk'⟩, hcov⟩
    · rintro ⟨other, hother, hcov⟩
      obtain ⟨hmem', hapart⟩ := hs.apart_of_eraseIdx hk hother
      exact ⟨⟨other, hmem', hcov⟩, fun h => hapart i j h hcov⟩
  · intro other hother
    rw [heq, length_set]
    exact hs.inside other (mem_of_mem_eraseIdx hother)
  · exact hs.apart.sublist (eraseIdx_sublist _ _)

end

end Sound

/-! ## Whole runs -/

namespace Arena

variable {m m' : Arena} {run : Run} {frames bytes : ℕ} {built : Bool}

/-- The ways an allocation ends: with a run the search found, in the regions there were or with one
more, or without one. -/
theorem alloc_cases (m : Arena) (bytes : ℕ) (built : Bool) :
    (∃ run m', m.takeLocked (m.layout.framesFor bytes) = some (run, m') ∧
      m.alloc bytes built = (some run, m')) ∨
      (∃ run m' m'', m.growLocked built = some m' ∧ m'.takeLocked (m.layout.framesFor bytes) =
      some (run, m'') ∧ m.alloc bytes built = (some run, m'')) ∨
    (bytes = 0 ∨ m.layout.framesFor bytes > m.layout.regionFrames) ∧
    m.alloc bytes built = (none, m) ∨ m.takeLocked (m.layout.framesFor bytes) = none ∧
    m.growLocked built = none ∧ m.alloc bytes built = (none, m) ∨
    (∃ m', m.takeLocked (m.layout.framesFor bytes) = none ∧ m.growLocked built = some m' ∧
      m'.takeLocked (m.layout.framesFor bytes) = none ∧ m.alloc bytes built = (none, m')) := by
  by_cases hzero : bytes = 0
  · exact .inr (.inr (.inl ⟨.inl hzero, by rw [alloc, if_pos hzero]⟩))
  by_cases hbig : m.layout.framesFor bytes > m.layout.regionFrames
  · exact .inr (.inr (.inl ⟨.inr hbig, by rw [alloc, if_neg hzero, if_pos hbig]⟩))
  rw [alloc, if_neg hzero, if_neg hbig]
  cases htake : m.takeLocked (m.layout.framesFor bytes) with
  | some p => exact .inl ⟨p.1, p.2, rfl, rfl⟩
  | none =>
    cases hgrow : m.growLocked built with
    | none => exact .inr (.inr (.inr (.inl ⟨rfl, rfl, rfl⟩)))
    | some m' =>
      cases hagain : m'.takeLocked (m.layout.framesFor bytes) with
      | some p => exact .inr (.inl ⟨p.1, m', p.2, rfl, hagain, by simp only [hagain]⟩)
      | none => exact .inr (.inr (.inr (.inr ⟨m', rfl, rfl, hagain, by simp only [hagain]⟩)))

theorem create_sound {lay : Layout} (h : create lay built = some m) : Sound m := by
  have hempty : Sound { layout := lay, regions := [], live := [] } :=
    { shape := nofun
      counted := nofun
      covered := fun i j => by simp [Taken]
      inside := nofun
      apart := .nil }
  exact hempty.growLocked h

end Arena

namespace Sound

open Arena

variable {m m' : Arena} {bytes : ℕ} {built : Bool}

theorem alloc (hs : Sound m) (bytes : ℕ) (built : Bool) : Sound (m.alloc bytes built).2 := by
  rcases m.alloc_cases bytes built with ⟨run, m', ht, h⟩ | ⟨run, m', m'', hg, ht, h⟩ | ⟨-, h⟩ | ⟨-,
    -, h⟩ | ⟨m', -, hg, -, h⟩
  · rw [h]
    exact hs.takeLocked ht
  · rw [h]
    exact (hs.growLocked hg).takeLocked ht
  · rw [h]
    exact hs
  · rw [h]
    exact hs
  · rw [h]
    exact hs.growLocked hg

theorem step (hs : Sound m) {e : Event} (h : m.step e = some m') : Sound m' := by
  cases e with
  | alloc bytes built =>
    cases h
    exact hs.alloc bytes built
  | release k =>
    obtain ⟨run, hk, rfl⟩ := map_eq_some_iff.mp h
    exact hs.release hk

/-- A new region serves every request of at most its size. -/
theorem takeLocked_of_growLocked (hs : Sound m) (hg : m.growLocked built = some m')
    (hpos : 0 < frames) (hfits : frames ≤ m.layout.regionFrames) : m'.takeLocked frames ≠ none := by
  have hs' := hs.growLocked hg
  obtain ⟨-, rfl⟩ := growLocked_eq_some hg
  intro hnone
  apply not_clear_of_takeLocked hs' hpos hnone (mem_append_right _ (mem_singleton.mpr rfl)) 0
  constructor
  · rw [length_replicate, Nat.zero_add]
    exact hfits
  · intro j _ hj
    rw [getElem?_replicate, if_pos (by omega)]

theorem fails_only (hs : Sound m) (hpos : 0 < m.layout.framesFor bytes)
    (hfits : m.layout.framesFor bytes ≤ m.layout.regionFrames)
    (hfail : (m.alloc bytes built).1 = none) :
    (∀ r ∈ m.regions, ∀ first, ¬ Clear r.taken first (m.layout.framesFor bytes)) ∧
      (m.layout.regionCeiling ≤ m.regions.length ∨ built = false) := by
  rcases m.alloc_cases bytes built with ⟨run, m', -, h⟩ | ⟨run, m', m'', -, -, h⟩ | ⟨h | h,
    -⟩ | ⟨ht, hg, -⟩ | ⟨m', -, hg, ht, -⟩
  · rw [h] at hfail
    cases hfail
  · rw [h] at hfail
    cases hfail
  · rw [h, Layout.framesFor_zero] at hpos
    exact absurd hpos (Nat.lt_irrefl 0)
  · omega
  · constructor
    · exact fun r hr first => not_clear_of_takeLocked hs hpos ht hr first
    · rw [Arena.growLocked] at hg
      by_cases hfull : m.regions.length ≥ m.layout.regionCeiling
      · exact .inl hfull
      · cases built with
        | false => exact .inr rfl
        | true =>
          rw [if_neg hfull] at hg
          cases hg
  · exact absurd ht (hs.takeLocked_of_growLocked hg hpos hfits)

end Sound

namespace Arena

variable {m : Arena}

/-- Regions of ten bytes in frames of four: two frames, and two bytes that belong to none. -/
def raggedLayout : Layout :=
  { regionBytes := 10, frameSize := 4, regionCeiling := 2, frame_pos := by decide }

/-- **The allocator over whole runs.** From the constructor on, whatever is allocated and let go of:
the runs that are out are inside their regions and share no frame, each count is the number of taken
frames, letting go of a run clears its frames and no others, and a request for at least one frame
and at most a region's frames fails only where no region has the room and none can be added. -/
theorem allocator_sound (lay : Layout) (built₀ : Bool) (m₀ : Arena)
    (h₀ : create lay built₀ = some m₀) (es : List Event) (h : Runs.exec step m₀ es = some m) :
    (∀ run ∈ m.live, ∃ r, m.regions[run.home]? = some r ∧ run.first + run.frames ≤ r.taken.length) ∧
    m.live.Pairwise Run.Apart ∧
    (∀ r ∈ m.regions, r.used = r.taken.count true) ∧
    (∀ k run, m.live[k]? = some run → ∃ m', m.step (.release k) = some m' ∧
      m'.live = m.live.eraseIdx k ∧ (∀ i j, run.Covers i j → m.Taken i j) ∧ ∀ i j, m'.Taken i j ↔
      m.Taken i j ∧ ¬ run.Covers i j) ∧
    ∀ bytes built, 0 < m.layout.framesFor bytes → m.layout.framesFor bytes ≤ m.layout.regionFrames →
      (m.alloc bytes built).1 = none →
      (∀ r ∈ m.regions, ∀ first, ¬ Clear r.taken first (m.layout.framesFor bytes)) ∧
        (m.layout.regionCeiling ≤ m.regions.length ∨ built = false) := by
  have hs : Sound m :=
    Runs.exec_invariant (fun hi _ hstep => hi.step hstep) (create_sound h₀)
      (Runs.meets_true es m₀) h
  refine ⟨?_, hs.apart, hs.counted, ?_, fun bytes built => hs.fails_only⟩
  · intro run hrun
    obtain ⟨r, -, hr, hin⟩ := hs.region_of_home hrun
    exact ⟨r, hr, hin⟩
  · intro k run hk
    have hrun := mem_of_getElem? hk
    refine ⟨{ m.release run with live := m.live.eraseIdx k }, ?_, rfl, ?_, hs.taken_release hrun _⟩
    · rw [step, hk]
      rfl
    · exact fun i j hc => (hs.covered i j).mpr ⟨run, hrun, hc⟩

/-- Two allocations and a release: the second run is out, and a third request of a whole region
goes to a new region. -/
theorem allocator_sound_three :
    ∃ m₀ m, create raggedLayout true = some m₀ ∧
      Runs.exec step m₀ [.alloc 3 true, .alloc 4 true, .release 0, .alloc 8 true] = some m ∧
      m.live = [⟨0, 1, 1⟩, ⟨1, 0, 2⟩] ∧ m.live.Pairwise Run.Apart := by
  have h := allocator_sound raggedLayout true _ rfl
    [.alloc 3 true, .alloc 4 true, .release 0, .alloc 8 true] rfl
  exact ⟨_, _, rfl, rfl, rfl, h.2.1⟩

/-- A region whose bytes are not a whole number of frames: a request of the region's size needs one
frame more than the region has, and is refused although a region could be added. -/
theorem ragged_region_refused :
    ∃ m₀, create raggedLayout true = some m₀ ∧ 10 ≤ raggedLayout.regionBytes ∧
    (m₀.alloc 10 true).1 = none ∧ m₀.live = [] ∧ m₀.regions.length < m₀.layout.regionCeiling := by
  exact ⟨_, rfl, by decide, by decide, rfl, by decide⟩

end Arena

/-! ## How large a run is -/

/-- The run gives that many bytes, and they are all in its region. -/
def Run.Spans (lay : Layout) (bytes : ℕ) (run : Run) : Prop :=
  bytes ≤ run.frames * lay.frameSize ∧ (run.first + run.frames) * lay.frameSize ≤ lay.regionBytes

namespace Arena

variable {m m' : Arena} {run : Run} {bytes : ℕ} {built : Bool}

/-- The slots of a new `PagePool`, with whether a region could be built at each page.  `none` is a
pool that is not backed: the runs it has got go back. -/
def pagePool (m : Arena) (pageSize : ℕ) : List Bool → Option (List Run × Arena)
  | [] => some ([], m)
  | built :: rest =>
    match m.alloc pageSize built with
    | (none, _) => none
    | (some run, m') => (m'.pagePool pageSize rest).map fun p => (run :: p.1, p.2)

/-- Whenever a request of so many bytes is granted, and whenever a pool of such pages is built, the
runs are that large. -/
def AsLarge (lay : Layout) (bytes : ℕ) : Prop :=
  ∀ built₀ m₀ es m, create lay built₀ = some m₀ → Runs.exec step m₀ es = some m →
    (∀ built run, (m.alloc bytes built).1 = some run → run.Spans lay bytes) ∧
      ∀ builts slots m', m.pagePool bytes builts = some (slots, m') →
        slots.length = builts.length ∧ ∀ run ∈ slots, run.Spans lay bytes

theorem layout_alloc (m : Arena) (bytes : ℕ) (built : Bool) :
    (m.alloc bytes built).2.layout = m.layout := by
  have htake : ∀ {m m' : Arena} {frames run}, m.takeLocked frames = some (run, m') →
      m'.layout = m.layout := by
    intro m m' frames run h
    obtain ⟨i, r, first, -, -, -, rfl⟩ := takeLocked_eq_some h
    rfl
  have hgrow : ∀ {m'}, m.growLocked built = some m' → m'.layout = m.layout := by
    intro m' h
    rw [(growLocked_eq_some h).2]
  rcases m.alloc_cases bytes built with ⟨run, m', ht, h⟩ | ⟨run, m', m'', hg, ht, h⟩ | ⟨-, h⟩ | ⟨-,
    -, h⟩ | ⟨m', -, hg, -, h⟩
  · rw [h, htake ht]
  · rw [h, htake ht, hgrow hg]
  · rw [h]
  · rw [h]
  · rw [h, hgrow hg]

theorem layout_step {e : Event} (h : m.step e = some m') : m'.layout = m.layout := by
  cases e with
  | alloc bytes built =>
    cases h
    exact m.layout_alloc bytes built
  | release k =>
    obtain ⟨run, -, rfl⟩ := map_eq_some_iff.mp h
    rfl

/-- A run that is granted has the frames that were counted for it, and lies in a region that has
frames. -/
theorem granted (hs : Sound m) (h : (m.alloc bytes built).1 = some run) :
    run.frames = m.layout.framesFor bytes ∧ run.first + run.frames ≤ m.layout.regionFrames ∧
    0 < m.layout.regionFrames := by
  have hfound : ∀ {m₁ m₂}, Sound m₁ → m₁.layout = m.layout →
      m₁.takeLocked (m.layout.framesFor bytes) = some (run, m₂) →
      run.frames = m.layout.framesFor bytes ∧
        run.first + run.frames ≤ m.layout.regionFrames ∧ 0 < m.layout.regionFrames := by
    intro m₁ m₂ hs₁ hlay ht
    rw [takeLocked] at ht
    cases hp : place (m.layout.framesFor bytes) m₁.regions with
    | none =>
      rw [hp] at ht
      cases ht
    | some p =>
      obtain ⟨r, hr, hplace⟩ := place_eq_some hp
      have hlen := hs₁.shape r (mem_of_getElem? hr)
      rw [hp] at ht
      cases ht
      rw [hlay] at hlen
      refine ⟨rfl, hlen ▸ (Region.clear_of_place hplace).1, hlen ▸ length_pos_of_ne_nil fun hnil =>
        ?_⟩
      rw [Region.place, hnil] at hplace
      split_ifs at hplace
      cases hplace
  rcases m.alloc_cases bytes built with ⟨run', m', ht, heq⟩ | ⟨run', m', m'', hg, ht, heq⟩ | ⟨-,
    heq⟩ | ⟨-, -, heq⟩ | ⟨m', -, -, -, heq⟩
  all_goals rw [heq] at h
  · cases h
    exact hfound hs rfl ht
  · cases h
    exact hfound (hs.growLocked hg) (by rw [(growLocked_eq_some hg).2]) ht
  all_goals cases h

/-- Where the rounding stays in 64 bits, or no region has a frame to give, runs are as large as
asked. -/
theorem granted_spans (hs : Sound m) (hfit : bytes + m.layout.frameSize ≤ 2 ^ 64 ∨
      m.layout.regionFrames = 0) (h : (m.alloc bytes built).1 = some run) :
      run.Spans m.layout bytes := by
  obtain ⟨hframes, hin, hpos⟩ := granted hs h
  have hsize := m.layout.frame_pos
  constructor
  · rw [hframes, Layout.framesFor, Nat.mod_eq_of_lt (by omega)]
    have := Nat.lt_div_mul_add hsize (a := bytes + m.layout.frameSize - 1)
    omega
  · exact (Nat.mul_le_mul_right _ hin).trans (Nat.div_mul_le_self _ _)

theorem pagePool_spans {pageSize : ℕ} {builts : List Bool} {slots : List Run} (hs : Sound m)
    (hfit : pageSize + m.layout.frameSize ≤ 2 ^ 64 ∨ m.layout.regionFrames = 0)
    (h : m.pagePool pageSize builts = some (slots, m')) :
    slots.length = builts.length ∧ ∀ run ∈ slots, run.Spans m.layout pageSize := by
  induction builts generalizing m slots with
  | nil =>
    cases h
    exact ⟨rfl, nofun⟩
  | cons built rest ih =>
    rw [pagePool] at h
    have hlay := m.layout_alloc pageSize built
    have hs' := hs.alloc pageSize built
    cases ha : m.alloc pageSize built with
    | mk granted m₁ =>
      rw [ha] at h hlay hs'
      cases granted with
      | none => cases h
      | some run =>
        obtain ⟨⟨slots', m₂⟩, hp, heq⟩ := map_eq_some_iff.mp h
        cases heq
        obtain ⟨hlen, hrest⟩ := ih hs' (by rwa [show m₁.layout = m.layout from hlay]) hp
        refine ⟨congrArg (· + 1) hlen, fun run' hrun' => ?_⟩
        rcases mem_cons.mp hrun' with rfl | hrun'
        · exact granted_spans hs hfit (by rw [ha])
        · rw [← show m₁.layout = m.layout from hlay]
          exact hrest run' hrun'

/-- When the rounding wraps, no frame is counted, and the first cell of the first region already
ends the search. -/
theorem alloc_of_wraps {lay : Layout} (hbytes : bytes < 2 ^ 64) (hframe : lay.frameSize < 2 ^ 64)
    (hwraps : 2 ^ 64 < bytes + lay.frameSize) (hframes : lay.regionFrames ≠ 0)
    (hceiling : lay.regionCeiling ≠ 0) :
    ∃ m₀, create lay true = some m₀ ∧ (m₀.alloc bytes true).1 = some ⟨0, 1, 0⟩ := by
  obtain ⟨n, hn⟩ := Nat.exists_eq_succ_of_ne_zero hframes
  have hcreate : create lay true = some ⟨lay, [⟨false :: List.replicate n false, 0⟩], []⟩ := by
    simp only [create, growLocked, length_nil, ge_iff_le, Nat.le_zero, hceiling, if_false,
      if_true, hn, replicate_succ, nil_append]
  refine ⟨_, hcreate, ?_⟩
  have hcount : lay.framesFor bytes = 0 := by
    rw [Layout.framesFor, Nat.mod_eq_sub_mod (by omega), Nat.mod_eq_of_lt (by omega)]
    exact Nat.div_eq_of_lt (by omega)
  rw [alloc, if_neg (by omega)]
  dsimp only
  rw [hcount, if_neg (Nat.not_lt_zero _)]
  rfl

/-- **A run is as large as asked exactly where the rounding up to frames does not wrap**, or the
memory has no frame to give. -/
theorem alloc_as_large_iff (lay : Layout) (bytes : ℕ) (hframe : lay.frameSize < 2 ^ 64)
    (hbytes : bytes < 2 ^ 64) :
    AsLarge lay bytes ↔ bytes + lay.frameSize ≤ 2 ^ 64 ∨ lay.regionFrames = 0 ∨
    lay.regionCeiling = 0 := by
  constructor
  · intro h
    by_contra hnot
    simp only [not_or, Nat.not_le] at hnot
    obtain ⟨hwraps, hframes, hceiling⟩ := hnot
    obtain ⟨m₀, hcreate, halloc⟩ := alloc_of_wraps hbytes hframe hwraps hframes hceiling
    have hlarge : bytes ≤ 0 * lay.frameSize := ((h true m₀ [] m₀ hcreate rfl).1 true _ halloc).1
    omega
  · intro hfit built₀ m₀ es m h₀ h
    have hinv : Sound m ∧ m.layout = lay := by
      refine Runs.exec_invariant (I := fun m : Arena => Sound m ∧ m.layout = lay)
        (fun hi _ hstep => ⟨hi.1.step hstep, (layout_step hstep).trans hi.2⟩) ⟨create_sound h₀, ?_⟩
        (Runs.meets_true es m₀) h
      rw [create] at h₀
      rw [(growLocked_eq_some h₀).2]
    obtain ⟨hs, rfl⟩ := hinv
    have hfit' : bytes + m.layout.frameSize ≤ 2 ^ 64 ∨ m.layout.regionFrames = 0 := by
      refine (or_assoc.mpr hfit).resolve_right fun hzero => ?_
      have := (growLocked_eq_some h₀).1
      rw [hzero] at this
      exact Nat.not_lt_zero _ this
    exact ⟨fun built run => granted_spans hs hfit', fun builts slots m' => pagePool_spans hs hfit'⟩

/-- Regions of a gigabyte in frames of a megabyte. -/
def defaultLayout : Layout :=
  { regionBytes := 2 ^ 30, frameSize := 2 ^ 20, regionCeiling := 64, frame_pos := by decide }

theorem alloc_as_large_page : AsLarge defaultLayout (2 ^ 24) :=
  (alloc_as_large_iff defaultLayout (2 ^ 24) (by decide) (by decide)).mpr (.inl (by decide))

/-- The largest byte count gets a run without a frame, and a pool of such pages is backed by
nothing. -/
theorem largest_request_gets_nothing :
    (¬ ∀ lay bytes, lay.frameSize < 2 ^ 64 → bytes < 2 ^ 64 → AsLarge lay bytes) ∧
      ∃ m₀, create defaultLayout true = some m₀ ∧ (m₀.alloc (2 ^ 64 - 1) true).1 = some ⟨0, 1, 0⟩ ∧
        (m₀.pagePool (2 ^ 64 - 1) [true, true]).map Prod.fst = some [⟨0, 1, 0⟩, ⟨0, 1, 0⟩] := by
  refine ⟨fun h => ?_, _, rfl, by decide +kernel, by decide +kernel⟩
  have hlarge := ((h defaultLayout (2 ^ 64 - 1) (by decide) (by decide) true _ [] _ rfl rfl).1 true
    ⟨0, 1, 0⟩ (by decide +kernel)).1
  exact absurd hlarge (by decide)

end Arena
end Rail.Memory
