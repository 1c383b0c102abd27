import Mathlib.Data.List.Sort
import Mathlib.Data.Prod.Lex
import Mathlib.Order.Interval.Finset.Nat

/-!
# Which ports a mount builds its rails on

`railfs_active_lines` of `src/linux/railfs-rdma.c`.  The known devices are walked in the order in
which they were announced, and only the best `room` ports are kept, in order, in the caller's array:
each new one is put at its place, what is behind it moves up by one, and what was last in a full
array is lost.
-/

namespace Rail.Kernel.Lines

open List OrderDual

/-- A port of a device: whether its attributes can be queried, whether its state is
`IB_PORT_ACTIVE`, and its rate.  Names are compared by `strcmp`, of which only that it is an order
is used. -/
structure Port (ν : Type) where
  name : ν
  port : ℕ
  queried : Bool
  active : Bool
  rate : ℕ
  deriving DecidableEq

variable {ν : Type} {a b c : Port ν} {l : List (Port ν)} {room : ℕ}

/-- `railfs_line_precedes`. -/
def precedes [LinearOrder ν] (a b : Port ν) : Bool :=
  if a.rate ≠ b.rate then a.rate > b.rate
  else if a.name ≠ b.name then a.name < b.name else a.port < b.port

/-- The array of the caller and how much of it is found. -/
structure Found (ν : Type) where
  out : ℕ → Port ν
  found : ℕ

/-- What the array holds. -/
def Found.lines (s : Found ν) : List (Port ν) :=
  (range s.found).map s.out

/-- The loop that moves the ports of `position` and behind up, down from `shift`. -/
def moveUp (position : ℕ) : (shift : ℕ) → (ℕ → Port ν) → ℕ → Port ν
  | 0, out => out
  | shift + 1, out =>
    if position < shift + 1 then moveUp position shift
      (Function.update out (shift + 1) (out shift)) else out

/-- One port of the walk. -/
def Found.take [LinearOrder ν] (room : ℕ) (s : Found ν) (candidate : Port ν) : Found ν :=
  if !candidate.queried || !candidate.active then s
  else
    let position := s.lines.findIdx (precedes candidate)
    if position = room then s
    else
      { out := Function.update (moveUp position (min s.found (room - 1)) s.out) position candidate
        found := min (s.found + 1) room }

/-- `railfs_active_lines`: the ports in the array at the end.  What the array holds at first is
never read. -/
def activeLines [LinearOrder ν] (out : ℕ → Port ν) (room : ℕ) (ports : List (Port ν)) :
    List (Port ν) :=
  (ports.foldl (Found.take room) ⟨out, 0⟩).lines

/-- The order of the rails: the faster first, then by name and port. -/
def key (a : Port ν) : ℕᵒᵈ ×ₗ ν ×ₗ ℕ :=
  toLex (toDual a.rate, toLex (a.name, a.port))

theorem moveUp_apply (position : ℕ) (shift : ℕ) (out : ℕ → Port ν) (i : ℕ) :
    moveUp position shift out i = if position < i ∧ i ≤ shift then out (i - 1) else out i := by
  induction shift generalizing out with
  | zero => rw [moveUp, if_neg (by omega)]
  | succ shift ih =>
    rw [moveUp]
    split_ifs with h h' h' <;> grind

theorem getElem?_lines (s : Found ν) (i : ℕ) :
    s.lines[i]? = if i < s.found then some (s.out i) else none := by
  simp only [Found.lines, getElem?_map]
  split_ifs with h <;> simp [h]

theorem orderedInsert_eq_insertIdx (r : Port ν → Port ν → Bool) (c : Port ν) :
    l.orderedInsert (r · ·) c = l.insertIdx (l.findIdx (r c)) c := by
  induction l with
  | nil => rfl
  | cons b l ih =>
    rw [orderedInsert_cons, findIdx_cons]
    by_cases h : r c b
    · simp [h]
    · simp [h, ih]

/-- What does not come into the first `room` does not matter to what comes in later. -/
theorem take_orderedInsert_take (r : Port ν → Port ν → Prop) [DecidableRel r] (c : Port ν) :
    ((l.take room).orderedInsert r c).take room = (l.orderedInsert r c).take room := by
  induction l generalizing room with
  | nil => simp
  | cons b l ih =>
    cases room with
    | zero => simp
    | succ room =>
      rw [take_succ_cons, orderedInsert_cons, orderedInsert_cons]
      split_ifs
      · cases room <;> simp [take_take]
      · simp [ih]

section Chosen

variable [LinearOrder ν]

theorem precedes_iff : precedes a b = true ↔ key a < key b := by
  simp only [precedes, key, Prod.Lex.toLex_lt_toLex, toDual_lt_toDual,
    EmbeddingLike.apply_eq_iff_eq]
  split_ifs with h h' <;> simp_all

/-- What the array holds after a port that is to be kept: the best of what it held and the port. -/
theorem lines_take (s : Found ν) (hs : s.found ≤ room) (hq : c.queried) (ha : c.active) :
    (s.take room c).lines = (s.lines.orderedInsert (precedes · ·) c).take room ∧
      (s.take room c).found ≤ room := by
  have hp : s.lines.findIdx (precedes c) ≤ s.found := by
    simpa [Found.lines] using (findIdx_le_length : s.lines.findIdx (precedes c) ≤ _)
  rw [orderedInsert_eq_insertIdx, Found.take, if_neg (by simp [hq, ha])]
  generalize hq : s.lines.findIdx (precedes c) = p at hp ⊢
  dsimp only
  split_ifs with h
  · subst h
    refine ⟨?_, hs⟩
    rw [take_insertIdx_eq_take_of_le _ _ _ _ le_rfl, take_of_length_le (by simp [Found.lines, hs])]
  · refine ⟨ext_getElem? fun i => ?_, min_le_right ..⟩
    simp only [getElem?_take, getElem?_insertIdx, getElem?_lines, moveUp_apply,
      Function.update_apply]
    grind

/-- A port that can be compared with all of them leaves them in order. -/
theorem pairwise_orderedInsert (hl : l.Pairwise (precedes · ·)) (hc : ∀ b ∈ l, key c ≠ key b) :
    (l.orderedInsert (precedes · ·) c).Pairwise (precedes · ·) := by
  induction l with
  | nil => simp
  | cons b l ih =>
    obtain ⟨hb, hl'⟩ := pairwise_cons.mp hl
    obtain ⟨hcb, hcl⟩ := forall_mem_cons.mp hc
    rw [orderedInsert_cons]
    split_ifs with h
    · refine pairwise_cons.mpr ⟨forall_mem_cons.mpr ⟨h, fun a ha => ?_⟩, hl⟩
      exact precedes_iff.mpr ((precedes_iff.mp h).trans (precedes_iff.mp (hb a ha)))
    · refine pairwise_cons.mpr ⟨fun a ha => ?_, ih hl' hcl⟩
      obtain rfl | ha := mem_orderedInsert _ |>.mp ha
      · exact precedes_iff.mpr (lt_of_le_of_ne (not_lt.mp fun h' => h (precedes_iff.mpr h'))
          hcb.symm)
      · exact hb a ha

/-- The walk keeps the best of what it has seen, and what it has seen in order. -/
theorem lines_foldl (out : ℕ → Port ν) (room : ℕ) (ports : List (Port ν))
    (hd : ports.Pairwise fun a b => (a.name, a.port) ≠ (b.name, b.port)) :
    ∃ all : List (Port ν), all.Perm (ports.filter fun p => p.queried && p.active) ∧
    all.Pairwise (precedes · ·) ∧ (ports.foldl (Found.take room) ⟨out, 0⟩).lines = all.take room ∧
        (ports.foldl (Found.take room) ⟨out, 0⟩).found ≤ room := by
  induction ports using reverseRecOn with
  | nil => exact ⟨[], .nil, .nil, by simp [Found.lines], room.zero_le⟩
  | append_singleton ports c ih =>
    obtain ⟨hd, -, hc⟩ := pairwise_append.mp hd
    obtain ⟨all, hperm, hall, hlines, hfound⟩ := ih hd
    rw [foldl_append, foldl_cons, foldl_nil, filter_append]
    by_cases h : c.queried ∧ c.active
    · refine ⟨all.orderedInsert (precedes · ·) c, ?_, pairwise_orderedInsert hall fun b hb heq =>
        ?_, ?_⟩
      · rw [filter_cons_of_pos (by simpa using h), filter_nil]
        exact (perm_orderedInsert _ c all).trans
          ((hperm.cons c).trans (perm_append_singleton c _).symm)
      · refine hc b (mem_filter.mp (hperm.mem_iff.mp hb)).1 c (mem_singleton_self c) ?_
        simp_all [key]
      · rw [← take_orderedInsert_take, ← hlines]
        exact lines_take _ hfound h.1 h.2
    · have hskip : (c.queried && c.active) = false := by simpa using h
      refine ⟨all, by simpa [hskip] using hperm, hall, ?_⟩
      rw [Found.take, if_pos (by simpa [← Bool.not_and] using hskip)]
      exact ⟨hlines, hfound⟩

/-- **The rails are the best ports, in whatever order the devices are announced**: they are the
first `room` of the active ports ordered by rate, name and port. -/
theorem activeLines_eq_take (out : ℕ → Port ν) (room : ℕ) (ports sorted : List (Port ν))
    (hd : ports.Pairwise fun a b => (a.name, a.port) ≠ (b.name, b.port))
    (hperm : sorted.Perm (ports.filter fun p => p.queried && p.active))
    (hsorted : sorted.Pairwise fun a b => key a < key b) :
    activeLines out room ports = sorted.take room := by
  obtain ⟨all, hall, hpair, hlines, -⟩ := lines_foldl out room ports hd
  have heq : all = sorted := (hall.trans hperm.symm).eq_of_pairwise
    (fun _ _ _ _ h h' => absurd h' (not_lt_of_gt h)) (hpair.imp precedes_iff.mp) hsorted
  rw [activeLines, hlines, heq]

end Chosen

/-- Two devices of three ports, the slower one announced first, in an array for two. -/
theorem activeLines_eq_take_two :
    activeLines (fun _ => ⟨0, 0, false, false, 0⟩) 2
      [⟨5, 1, true, true, 100⟩, ⟨3, 1, true, false, 400⟩, ⟨3, 2, true, true, 400⟩,
      ⟨5, 2, true, true, 400⟩] = [⟨3, 2, true, true, 400⟩, ⟨5, 2, true, true, 400⟩] :=
  activeLines_eq_take _ _ _ [⟨3, 2, true, true, 400⟩, ⟨5, 2, true, true, 400⟩,
    ⟨5, 1, true, true, 100⟩] (by decide) (by decide) (by decide)

end Rail.Kernel.Lines
