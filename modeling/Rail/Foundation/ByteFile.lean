import Mathlib.Algebra.Group.Nat.Defs
import Mathlib.Data.List.GetD
import Mathlib.Order.Lattice

/-!
# Files as lists of cells

A file is the list of its cells.  Three operations change or read it, and they are
the ones a POSIX descriptor offers: `slice` (a positioned read), `pwrite` (a
positioned write, which fills the gap past the end with the default cell) and
`truncate`.

Two files are the same when they have the same length and the same cell at every
position, and that is the form every law below is proved in: `length_pwrite` and
`cellAt_pwrite` describe a write completely, and each law of the algebra of writes
is a case analysis on one position.

* `pwrite_append`: two adjacent writes are one write.
* `pwrite_slice_pwrite`: writing a part of a range ahead of the whole range changes
  nothing.
* `slice_pwrite_self`, `slice_pwrite_append`: what a read sees of a write.
* `pwriteAll`: a list of writes, with the length and the cells it leaves where the writes
  do not overlap.

Nothing here is about a particular program: the cells are of any inhabited type.
-/

namespace ByteFile

open List

variable {α : Type*}

/-! ## Reading a range -/

/-- The cells of `f` in `[off, off + len)`, cut short by the end of the file. -/
def slice (f : List α) (off len : ℕ) : List α := (f.drop off).take len

@[simp] theorem length_slice (f : List α) (off len : ℕ) :
    (slice f off len).length = min len (f.length - off) := by
  rw [slice, length_take, length_drop]

@[simp] theorem slice_zero_length (f : List α) (off : ℕ) : slice f off 0 = [] := by
  rw [slice, take_zero]

variable {d f g : List α} {i off : ℕ}

theorem slice_zero_of_le {len : ℕ} (h : f.length ≤ len) : slice f 0 len = f := by
  rw [slice, drop_zero, take_of_length_le h]

theorem slice_of_le (len : ℕ) (h : f.length ≤ off) : slice f off len = [] := by
  rw [slice, drop_eq_nil_of_le h, take_nil]

/-- Reading inside what was read. -/
theorem slice_slice (f : List α) {off len i n : ℕ} (h : i + n ≤ len) :
    slice (slice f off len) i n = slice f (off + i) n := by
  rw [slice, slice, slice, drop_take, drop_drop, take_take, Nat.min_eq_left (by omega)]

/-- A read of as much as a read returned returns the same. -/
theorem slice_length_slice (f : List α) (off len : ℕ) :
    slice f off (slice f off len).length = slice f off len := by
  rw [length_slice, slice, slice, take_eq_take_iff, length_drop]
  omega

/-- Two adjacent reads are one read. -/
theorem slice_append_slice (f : List α) (off m n : ℕ) :
    slice f off m ++ slice f (off + m) n = slice f off (m + n) := by
  rw [slice, slice, slice, ← drop_drop, take_add]

theorem take_append_slice (f : List α) (m n : ℕ) : f.take m ++ slice f m n = f.take (m + n) := by
  rw [slice, take_add]

theorem getElem?_slice (f : List α) {off len i : ℕ} (h : i < len) :
    (slice f off len)[i]? = f[off + i]? := by
  rw [slice, getElem?_take_of_lt h, getElem?_drop]

theorem slice_cons_of_lt (h : off < f.length) (len : ℕ) :
    slice f off (len + 1) = f[off] :: slice f (off + 1) len := by
  rw [slice, slice, drop_eq_getElem_cons h, take_succ_cons]

/-- A read that starts inside the file is not empty. -/
theorem slice_ne_nil {len : ℕ} (h : off < f.length) (hl : 0 < len) : slice f off len ≠ [] := by
  intro he
  have := congrArg List.length he
  rw [length_slice, length_nil] at this
  omega

/-! ## Writing a range -/

variable [Inhabited α]

/-- The cell at a position; past the end it reads as the default cell. -/
def cellAt (f : List α) (i : ℕ) : α := f.getD i default

/-- Put `d` at `off`.  A gap between the end of the file and `off` is filled with the
default cell, and a write of nothing changes nothing. -/
def pwrite (f : List α) (off : ℕ) (d : List α) : List α :=
  if d.isEmpty then f
  else f.take off ++ List.replicate (off - f.length) default ++ d ++ f.drop (off + d.length)

/-- Set the length of the file: cut it, or extend it with the default cell. -/
def truncate (f : List α) (n : ℕ) : List α :=
  f.take n ++ List.replicate (n - f.length) default

theorem cellAt_of_le (h : f.length ≤ i) : cellAt f i = default := by
  rw [cellAt, getD_eq_default _ _ h]

@[simp] theorem cellAt_nil (i : ℕ) : cellAt ([] : List α) i = default :=
  cellAt_of_le (Nat.zero_le _)

/-- **Extensionality.**  A file is its length and its cells. -/
theorem ext_cellAt (hl : f.length = g.length) (hc : ∀ i < f.length, cellAt f i = cellAt g i) :
    f = g := by
  refine ext_getElem hl fun i h₁ h₂ => ?_
  have h := hc i h₁
  rwa [cellAt, cellAt, getD_eq_getElem _ _ h₁, getD_eq_getElem _ _ h₂] at h

theorem cellAt_append_left (h : i < f.length) : cellAt (f ++ g) i = cellAt f i := by
  rw [cellAt, cellAt, getD_append _ _ _ _ h]

theorem cellAt_append_right (h : f.length ≤ i) : cellAt (f ++ g) i = cellAt g (i - f.length) := by
  rw [cellAt, cellAt, getD_append_right _ _ _ _ h]

theorem cellAt_slice (f : List α) {off len i : ℕ} (h : i < len) :
    cellAt (slice f off len) i = cellAt f (off + i) := by
  rw [cellAt, cellAt, getD_eq_getElem?_getD, getD_eq_getElem?_getD, getElem?_slice f h]

theorem cellAt_take (f : List α) {n : ℕ} (h : i < n) : cellAt (f.take n) i = cellAt f i := by
  have := @cellAt_slice α _ f 0 n i h
  rwa [slice, drop_zero, Nat.zero_add] at this

theorem cellAt_drop (f : List α) (n i : ℕ) : cellAt (f.drop n) i = cellAt f (n + i) := by
  rw [cellAt, cellAt, getD_eq_getElem?_getD, getD_eq_getElem?_getD, getElem?_drop]

theorem cellAt_replicate (n i : ℕ) : cellAt (List.replicate n (default : α)) i = default := by
  rcases lt_or_ge i n with h | h
  · rw [cellAt, getD_eq_getElem _ _ (by simpa using h), getElem_replicate]
  · exact cellAt_of_le (by simpa using h)

theorem length_truncate (f : List α) (n : ℕ) : (truncate f n).length = n := by
  rw [truncate, length_append, length_take, length_replicate]
  omega

theorem cellAt_truncate (f : List α) (n i : ℕ) :
    cellAt (truncate f n) i = if i < n then cellAt f i else default := by
  split_ifs with h
  · by_cases hin : i < f.length
    · rw [truncate, cellAt_append_left (by rw [length_take]; omega), cellAt_take f h]
    · rw [truncate, cellAt_append_right (by rw [length_take]; omega), cellAt_replicate,
        cellAt_of_le (Nat.le_of_not_lt hin)]
  · exact cellAt_of_le (by rw [length_truncate]; omega)

@[simp] theorem pwrite_nil (f : List α) (off : ℕ) : pwrite f off [] = f := rfl

theorem pwrite_of_ne_nil (f : List α) (off : ℕ) (h : d ≠ []) : pwrite f off d =
      f.take off ++ List.replicate (off - f.length) default ++ d ++ f.drop (off + d.length) := by
  rw [pwrite, if_neg]
  rwa [List.isEmpty_iff]

theorem length_pwrite (f : List α) (off : ℕ) (h : d ≠ []) :
    (pwrite f off d).length = max f.length (off + d.length) := by
  rw [pwrite_of_ne_nil f off h]
  simp only [length_append, length_take, length_replicate, length_drop]
  omega

theorem length_le_length_pwrite (f : List α) (off : ℕ) (d : List α) :
    f.length ≤ (pwrite f off d).length := by
  rcases eq_or_ne d [] with rfl | h
  · exact le_refl _
  · rw [length_pwrite f off h]
    exact le_max_left _ _

/-- **What a write does to a position**: the written cell inside the range, the old cell
outside it. -/
theorem cellAt_pwrite (f : List α) (off : ℕ) (d : List α) (i : ℕ) : cellAt (pwrite f off d) i =
      if off ≤ i ∧ i < off + d.length then cellAt d (i - off) else cellAt f i := by
  rcases eq_or_ne d [] with rfl | hd
  · rw [pwrite_nil, if_neg]
    rw [length_nil]
    omega
  · have hlen : (f.take off ++ List.replicate (off - f.length) (default : α)).length = off := by
      rw [length_append, length_take, length_replicate]
      omega
    rw [pwrite_of_ne_nil f off hd]
    by_cases h : off ≤ i ∧ i < off + d.length
    · rw [if_pos h, cellAt_append_left (by rw [length_append, hlen]; exact h.2),
        cellAt_append_right (by rw [hlen]; exact h.1), hlen]
    · rw [if_neg h]
      rcases lt_or_ge i off with hi | hi
      · -- before the range: the old file, or the gap the write filled
        rw [cellAt_append_left (by rw [length_append, hlen]; omega),
          cellAt_append_left (by rw [hlen]; exact hi)]
        rcases lt_or_ge i f.length with hf | hf
        · rw [cellAt_append_left (by rw [length_take]; omega), cellAt_take _ hi]
        · rw [cellAt_append_right (by rw [length_take]; omega), cellAt_replicate, cellAt_of_le hf]
      · -- past the range: the tail of the old file
        have hi' : off + d.length ≤ i := by
          by_contra hc
          exact h ⟨hi, by omega⟩
        rw [cellAt_append_right (by rw [length_append, hlen]; exact hi'), length_append,
          hlen, cellAt_drop, Nat.add_sub_cancel' hi']

/-! ## The algebra of writes -/

/-- Two adjacent writes are one write. -/
theorem pwrite_append (f : List α) (off : ℕ) (a b : List α) :
    pwrite (pwrite f off a) (off + a.length) b = pwrite f off (a ++ b) := by
  rcases eq_or_ne a [] with rfl | ha
  · rw [pwrite_nil, length_nil, Nat.add_zero, nil_append]
  rcases eq_or_ne b [] with rfl | hb
  · rw [pwrite_nil, append_nil]
  have hab : a ++ b ≠ [] := by
    intro h
    exact ha (append_eq_nil_iff.mp h).1
  refine ext_cellAt ?_ fun i _ => ?_
  · rw [length_pwrite _ _ hb, length_pwrite _ _ ha, length_pwrite _ _ hab, length_append]
    omega
  · rw [cellAt_pwrite, cellAt_pwrite, cellAt_pwrite, length_append]
    by_cases h₁ : off + a.length ≤ i ∧ i < off + a.length + b.length
    · rw [if_pos h₁, if_pos (by omega), cellAt_append_right (by omega)]
      congr 1
      omega
    · rw [if_neg h₁]
      by_cases h₂ : off ≤ i ∧ i < off + a.length
      · rw [if_pos h₂, if_pos (by omega), cellAt_append_left (by omega)]
      · rw [if_neg h₂, if_neg (by omega)]

/-- Writing a part of a range ahead of the whole range changes nothing. -/
theorem pwrite_slice_pwrite (f : List α) (off k n : ℕ) (d : List α) :
    pwrite (pwrite f (off + k) (slice d k n)) off d = pwrite f off d := by
  rcases eq_or_ne (slice d k n) [] with hs | hs
  · rw [hs, pwrite_nil]
  have hk : k < d.length := by
    by_contra hk
    exact hs (slice_of_le n (by omega))
  have hd : d ≠ [] := ne_nil_of_length_pos (by omega)
  refine ext_cellAt ?_ fun i _ => ?_
  · rw [length_pwrite _ _ hd, length_pwrite _ _ hs, length_pwrite _ _ hd, length_slice]
    omega
  · rw [cellAt_pwrite, cellAt_pwrite, cellAt_pwrite]
    by_cases h : off ≤ i ∧ i < off + d.length
    · rw [if_pos h, if_pos h]
    · rw [if_neg h, if_neg h, if_neg]
      rw [length_slice]
      omega

/-- A read inside a range just written gives what was written there. -/
theorem slice_pwrite_self (f : List α) (off : ℕ) (d : List α) :
    slice (pwrite f off d) off d.length = d := by
  rcases eq_or_ne d [] with rfl | hd
  · rw [length_nil, slice_zero_length]
  refine ext_cellAt ?_ fun i hi => ?_
  · rw [length_slice, length_pwrite f off hd]
    omega
  · rw [length_slice, length_pwrite f off hd] at hi
    rw [cellAt_slice _ (by omega), cellAt_pwrite, if_pos (by omega), Nat.add_sub_cancel_left]

/-- A write inside a file does not change its length. -/
theorem length_pwrite_of_le (h : off + d.length ≤ f.length) :
    (pwrite f off d).length = f.length := by
  rcases eq_or_ne d [] with rfl | hd
  · rfl
  · rw [length_pwrite f off hd, Nat.max_eq_left h]

theorem cellAt_pwrite_of_lt (d : List α) (h : i < off) :
    cellAt (pwrite f off d) i = cellAt f i := by
  rw [cellAt_pwrite, if_neg (by omega)]

/-- A read of what lies before a write. -/
theorem slice_pwrite_of_le {n : ℕ} (d : List α) (h : i + n ≤ off) (hf : off ≤ f.length) :
    slice (pwrite f off d) i n = slice f i n := by
  have hlen := length_le_length_pwrite f off d
  refine ext_cellAt (by rw [length_slice, length_slice]; omega) fun j hj => ?_
  rw [length_slice] at hj
  rw [cellAt_slice _ (by omega), cellAt_slice _ (by omega), cellAt_pwrite, if_neg (by omega)]

/-- A read of the first part of a range just written. -/
theorem slice_pwrite_append (f : List α) (off : ℕ) (d e : List α) :
    slice (pwrite f off (d ++ e)) off d.length = d := by
  have hle : 0 + d.length ≤ (d ++ e).length := by rw [length_append]; omega
  have hpart : slice (slice (pwrite f off (d ++ e)) off (d ++ e).length) 0 d.length =
      slice (pwrite f off (d ++ e)) off d.length := slice_slice _ hle
  rw [← hpart, slice_pwrite_self, slice, drop_zero, take_left]

/-- Writing the same range again changes nothing. -/
theorem pwrite_pwrite_self (f : List α) (off : ℕ) (d : List α) :
    pwrite (pwrite f off d) off d = pwrite f off d := by
  have := pwrite_slice_pwrite f off 0 d.length d
  rwa [Nat.add_zero, slice_zero_of_le (le_refl _)] at this

/-- Appending at the end of the file is a write there. -/
theorem pwrite_length (f d : List α) : pwrite f f.length d = f ++ d := by
  rcases eq_or_ne d [] with rfl | hd
  · rw [pwrite_nil, append_nil]
  · rw [pwrite_of_ne_nil f _ hd, take_length, Nat.sub_self, replicate_zero,
      append_nil, drop_eq_nil_of_le (by omega), append_nil]

/-- A file that holds `d` at `off` cell by cell is not changed by writing it there. -/
theorem pwrite_of_cells (h : ∀ i < d.length, off + i < f.length ∧ cellAt f (off + i) = cellAt d i) :
    pwrite f off d = f := by
  rcases eq_or_ne d [] with rfl | hd
  · rfl
  have hpos : 0 < d.length := length_pos_iff.mpr hd
  have hlast := (h (d.length - 1) (by omega)).1
  refine ext_cellAt ?_ fun i _ => ?_
  · rw [length_pwrite f off hd]
    omega
  · rw [cellAt_pwrite]
    split_ifs with hi
    · have := (h (i - off) (by omega)).2
      rw [Nat.add_sub_cancel' hi.1] at this
      exact this.symm
    · rfl

/-! ## Lists of writes -/

/-- The writes of a list, first one first. -/
def pwriteAll (f : List α) (ps : List (ℕ × List α)) : List α :=
  ps.foldl (fun g p => pwrite g p.1 p.2) f

@[simp] theorem pwriteAll_nil (f : List α) : pwriteAll f [] = f := rfl

@[simp] theorem pwriteAll_cons (f : List α) (p : ℕ × List α) (ps : List (ℕ × List α)) :
    pwriteAll f (p :: ps) = pwriteAll (pwrite f p.1 p.2) ps := rfl

theorem pwriteAll_append (f : List α) (ps qs : List (ℕ × List α)) :
    pwriteAll f (ps ++ qs) = pwriteAll (pwriteAll f ps) qs :=
  foldl_append

/-- The file reaches exactly as far as it did, or as a write does. -/
theorem lt_length_pwriteAll_iff (i : ℕ) :
    ∀ (ps : List (ℕ × List α)) (f : List α), i < (pwriteAll f ps).length ↔
      i < f.length ∨ ∃ p ∈ ps, p.2 ≠ [] ∧ i < p.1 + p.2.length := by
  intro ps
  induction ps with
  | nil => simp
  | cons p ps ih =>
    intro f
    rw [pwriteAll_cons, ih]
    have hp : i < (pwrite f p.1 p.2).length ↔ i < f.length ∨ (p.2 ≠ [] ∧ i < p.1 + p.2.length) := by
      rcases eq_or_ne p.2 [] with h0 | h0
      · rw [h0, pwrite_nil]
        simp
      · rw [length_pwrite _ _ h0, and_iff_right h0]
        omega
    rw [hp, or_assoc]
    simp only [mem_cons, exists_eq_or_imp]

/-- A position no write covers reads as it did. -/
theorem cellAt_pwriteAll_of_not_covered :
    ∀ {ps : List (ℕ × List α)} {f : List α},
      (∀ p ∈ ps, ¬ (p.1 ≤ i ∧ i < p.1 + p.2.length)) → cellAt (pwriteAll f ps) i = cellAt f i := by
  intro ps
  induction ps with
  | nil => exact fun _ => rfl
  | cons p ps ih =>
    intro f h
    rw [pwriteAll_cons, ih fun q hq => h q (mem_cons_of_mem _ hq), cellAt_pwrite,
      if_neg (h p mem_cons_self)]

/-- A position that one write covers, and no other one, reads as that write put it. -/
theorem cellAt_pwriteAll_of_mem {p : ℕ × List α} (hi : p.1 ≤ i ∧ i < p.1 + p.2.length) :
    ∀ {ps : List (ℕ × List α)} {f : List α}, p ∈ ps →
      (∀ q ∈ ps, q.1 ≤ i ∧ i < q.1 + q.2.length → q = p) →
      cellAt (pwriteAll f ps) i = cellAt p.2 (i - p.1) := by
  intro ps
  induction ps with
  | nil => exact fun hp _ => absurd hp (by simp)
  | cons q ps ih =>
    intro f hp honly
    rw [pwriteAll_cons]
    by_cases hmem : p ∈ ps
    · exact ih hmem fun r hr => honly r (mem_cons_of_mem _ hr)
    · -- the write is the first one of the list and no later one reaches the position
      obtain rfl : p = q := (mem_cons.mp hp).resolve_right hmem
      rw [cellAt_pwriteAll_of_not_covered, cellAt_pwrite, if_pos hi]
      intro r hr hcov
      rw [honly r (mem_cons_of_mem _ hr) hcov] at hr
      exact hmem hr

end ByteFile
