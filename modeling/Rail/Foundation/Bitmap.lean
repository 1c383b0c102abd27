import Mathlib.Data.Bool.Count
import Mathlib.Data.List.Basic
import Mathlib.Algebra.Group.Nat.Defs

/-!
# First fit over a bitmap

A bitmap is a list of Booleans, `true` where a cell is taken.  `firstFit n` walks it once with a
counter of the clear cells seen in a row and stops at the first place where the counter reaches
`n`; `fill` sets a range of cells one after another.

The scan is *sound* (`clear_of_firstFit`: what it returns is a range of `n` clear cells) and
*complete* (`not_clear_of_firstFit`: where it returns nothing there is no such range).  The counter
is what carries both: it never exceeds the number of clear cells that end at the scan position, and
it is at least the part of any clear range that lies before it.
-/

namespace Bitmap

open List

/-- The cells `first, …, first + n - 1` exist, and all of them are clear. -/
def Clear (l : List Bool) (first n : ℕ) : Prop :=
  first + n ≤ l.length ∧ ∀ j, first ≤ j → j < first + n → l[j]? = some false

/-- The walk from position `i` on, with `run` clear cells in a row just before it. -/
def scan (n : ℕ) : List Bool → ℕ → ℕ → Option ℕ
  | [], _, _ => none
  | t :: rest, i, run =>
    let run' := if t then 0 else run + 1
    if run' < n then scan n rest (i + 1) run' else some (i + 1 - n)

/-- The first range of `n` clear cells. -/
def firstFit (l : List Bool) (n : ℕ) : Option ℕ := scan n l 0 0

/-- Set the cells `first, …, first + n - 1`. -/
def fill (v : Bool) (l : List Bool) (first : ℕ) : ℕ → List Bool
  | 0 => l
  | n + 1 => (fill v l first n).set (first + n) v

/-! ## The scan -/

variable {first i n : ℕ} {all l : List Bool}

theorem cell_of_drop {rest : List Bool} {t : Bool} (h : all.drop i = t :: rest) :
    all[i]? = some t ∧ all.drop (i + 1) = rest := by
  constructor
  · rw [← head?_drop, h, head?_cons]
  · rw [← tail_drop, h, tail_cons]

theorem clear_of_scan {run : ℕ} (hdrop : all.drop i = l) (hrun : run ≤ i)
    (hclear : ∀ j, i - run ≤ j → j < i → all[j]? = some false) (h : scan n l i run = some first) :
    Clear all first n := by
  induction l generalizing i run with
  | nil => cases h
  | cons t rest ih =>
    obtain ⟨hcell, hrest⟩ := cell_of_drop hdrop
    have hlt : i < all.length := (List.getElem?_eq_some_iff.mp hcell).1
    -- the counter after this cell still counts clear cells only
    obtain ⟨run', hrun'⟩ : ∃ run', run' = if t then 0 else run + 1 := ⟨_, rfl⟩
    have hle : run' ≤ i + 1 := by
      rw [hrun']
      split <;> omega
    have hclear' : ∀ j, i + 1 - run' ≤ j → j < i + 1 → all[j]? = some false := by
      intro j hj hji
      cases t with
      | true =>
        rw [if_pos rfl] at hrun'
        omega
      | false =>
        rw [if_neg Bool.false_ne_true] at hrun'
        rcases Nat.lt_or_eq_of_le (Nat.lt_succ_iff.mp hji) with hlt | rfl
        · exact hclear j (by omega) hlt
        · exact hcell
    rw [scan, ← hrun'] at h
    split_ifs at h with hn
    · exact ih hrest hle hclear' h
    · cases h
      constructor
      · omega
      · intro j hj hjn
        exact hclear' j (by omega) (by omega)

theorem clear_of_firstFit (h : firstFit l n = some first) : Clear l first n :=
  clear_of_scan rfl Nat.le.refl (fun j _ hj => absurd hj (Nat.not_lt_zero j)) h

theorem scan_of_clear {run : ℕ} (hn : 0 < n) (hc : Clear all first n) (hdrop : all.drop i = l)
    (hi : i < first + n) (hrun : i ≤ first + run) : scan n l i run ≠ none := by
  induction l generalizing i run with
  | nil =>
    have := drop_eq_nil_iff.mp hdrop
    have := hc.1
    omega
  | cons t rest ih =>
    obtain ⟨hcell, hrest⟩ := cell_of_drop hdrop
    rw [scan]
    cases t with
    | true =>
      -- a taken cell lies outside the clear range, so the range is still ahead
      have hfirst : i < first := by
        by_contra hle
        have := hc.2 i (Nat.le_of_not_lt hle) hi
        rw [hcell] at this
        cases this
      rw [if_pos rfl, if_pos hn]
      exact ih hrest (by omega) (by omega)
    | false =>
      rw [if_neg Bool.false_ne_true]
      split_ifs with hlt
      · exact ih hrest (by omega) (by omega)
      · exact Option.some_ne_none _

theorem not_clear_of_firstFit (hn : 0 < n) (h : firstFit l n = none) : ¬ Clear l first n := by
  intro hc
  exact scan_of_clear hn hc rfl (by omega) (Nat.zero_le _) h

/-! ## Ranges and counts -/

/-- A clear range is no longer than the number of clear cells. -/
theorem Clear.le_count (h : Clear l first n) : n ≤ l.length - l.count true := by
  have hrange : (l.drop first).take n = List.replicate n false := by
    apply ext_getElem?
    intro j
    by_cases hj : j < n
    · rw [getElem?_take_of_lt hj, getElem?_drop, h.2 _ (by omega) (by omega), getElem?_replicate,
        if_pos hj]
    · rw [getElem?_take_eq_none (Nat.le_of_not_lt hj), getElem?_replicate, if_neg hj]
  have hle : n ≤ l.count false := by
    calc n = (List.replicate n false).count false := by rw [count_replicate_self]
      _ = ((l.drop first).take n).count false := by rw [hrange]
      _ ≤ l.count false := ((take_sublist _ _).trans (drop_sublist _ _)).count_le _
  have := count_false_add_count_true l
  omega

@[simp] theorem length_fill (v : Bool) (l : List Bool) (first n : ℕ) :
    (fill v l first n).length = l.length := by
  induction n with
  | zero => rfl
  | succ n ih => rw [fill, length_set, ih]

theorem getElem?_fill {v : Bool} (h : first + n ≤ l.length) (j : ℕ) :
    (fill v l first n)[j]? = if first ≤ j ∧ j < first + n then some v else l[j]? := by
  induction n with
  | zero => rw [if_neg (by omega), fill]
  | succ n ih =>
    rw [fill, getElem?_set, ih (by omega), length_fill]
    by_cases hj : first + n = j
    · rw [if_pos hj, if_pos (by omega), if_pos (by omega)]
    · rw [if_neg hj]
      by_cases hin : first ≤ j ∧ j < first + n
      · rw [if_pos hin, if_pos (by omega)]
      · rw [if_neg hin, if_neg (by omega)]

/-- Filling cells that all held the other value moves the count of that value by their number. -/
theorem count_fill {v : Bool} (h : first + n ≤ l.length) (hold : ∀ j, first ≤ j → j < first + n →
      l[j]? = some !v) :
    (fill v l first n).count v = l.count v + n := by
  induction n with
  | zero => rfl
  | succ n ih =>
    have ih := ih (by omega) fun j h₁ h₂ => hold j h₁ (by omega)
    have hlt : first + n < (fill v l first n).length := by
      rw [length_fill]
      omega
    have hcell : (fill v l first n)[first + n] = !v := by
      apply Option.some.inj
      rw [← getElem?_eq_getElem hlt, getElem?_fill (by omega), if_neg (by omega),
        hold _ (by omega) (by omega)]
    rw [fill, count_set hlt, hcell, ih]
    cases v <;> simp <;> omega

theorem count_true_fill_false (h : first + n ≤ l.length) (hold : ∀ j, first ≤ j → j < first + n →
      l[j]? = some true) :
    (fill false l first n).count true = l.count true - n := by
  have hcount := count_fill (v := false) h hold
  have hbefore := count_false_add_count_true l
  have hafter := count_false_add_count_true (fill false l first n)
  rw [length_fill] at hafter
  omega

end Bitmap
