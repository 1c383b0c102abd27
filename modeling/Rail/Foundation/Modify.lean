import Mathlib.Data.List.Basic
import Mathlib.Data.List.Count
import Mathlib.Logic.Function.Basic

/-!
# One of many changes

Lists in which one entry changes and the others stay, and what this does to counts: how many entries
there are of a kind (`countP_modify`), and, where each entry has a list of its own, how often
something occurs in all of them together (`count_flatMap_modify`).  The entry that a search finds is
the one that `eraseP` takes out (`split_of_find`).  An entry is added at the end (`getElem?_concat`,
`of_getElem?_concat`).
-/

namespace Modify

open List Function

variable {α β : Type*} {q q' : α → Bool} {f : α → α} {a : α} {l : List α} {i : ℕ}

/-- An entry of the list is the one that changes, as it is now, or one that stays. -/
theorem mem_modify {b : α} (ha : l[i]? = some a) (h : b ∈ l.modify i f) : b = f a ∨ b ∈ l := by
  obtain ⟨j, hj⟩ := mem_iff_getElem?.mp h
  by_cases hij : i = j
  · subst hij
    rw [getElem?_modify_eq, ha] at hj
    exact .inl (Option.some.inj hj).symm
  · rw [getElem?_modify_ne f l hij] at hj
    exact .inr (mem_of_getElem? hj)

theorem countP_modify (h : l[i]? = some a) :
    (l.modify i f).countP q + (if q a then 1 else 0) = l.countP q + if q (f a) then 1 else 0 := by
  induction l generalizing i with
  | nil => simp at h
  | cons b l ih =>
    cases i with
    | zero =>
      cases h
      simp only [modify_zero_cons, countP_cons]
      omega
    | succ i =>
      have hrest := ih (i := i) h
      simp only [modify_succ_cons, countP_cons]
      omega

/-- One that the second predicate counts and the first does not. -/
theorem countP_lt_of_mem (himp : ∀ a, q a = true → q' a = true) (ha : a ∈ l) (hq : q a = false)
    (hq' : q' a = true) : l.countP q < l.countP q' := by
  induction l with
  | nil => exact absurd ha not_mem_nil
  | cons b l ih =>
    rw [countP_cons, countP_cons]
    rcases mem_cons.mp ha with rfl | ha
    · have hle : l.countP q ≤ l.countP q' := countP_mono_left fun a _ => himp a
      rw [hq, hq']
      simp only [Bool.false_eq_true, if_false, if_true]
      omega
    · have hlt := ih ha
      have hb := himp b
      cases hqb : q b with
      | true => simpa [hb hqb] using hlt
      | false =>
        rw [if_neg Bool.false_ne_true]
        omega

/-- The same for a function that changes at one number. -/
theorem countP_range_update {g : ℕ → α} {n : ℕ} (hi : i < n) (a : α) :
    (List.range n).countP (fun j => q (Function.update g i a j)) + (if q (g i) then 1 else 0) =
      (List.range n).countP (fun j => q (g j)) + if q a then 1 else 0 := by
  induction n with
  | zero => exact absurd hi (Nat.not_lt_zero i)
  | succ n ih =>
    simp only [range_succ, countP_append, countP_singleton]
    rcases Nat.lt_succ_iff_lt_or_eq.mp hi with hlt | rfl
    · have hrest := ih hlt
      rw [update_of_ne (Nat.ne_of_gt hlt)]
      omega
    · have hsame : (List.range i).countP (fun j => q (Function.update g i a j)) =
          (List.range i).countP fun j => q (g j) := by
        refine countP_congr fun j hj => ?_
        rw [update_of_ne (Nat.ne_of_lt (mem_range.mp hj))]
      rw [hsame, update_self]
      omega

theorem getElem?_concat (h : l[i]? = some a) (b : α) : (l ++ [b])[i]? = some a := by
  rw [getElem?_append_left (List.getElem?_eq_some_iff.mp h).1, h]

/-- An entry is one of those before, or the one at the end. -/
theorem of_getElem?_concat {b : α} (h : (l ++ [b])[i]? = some a) :
    l[i]? = some a ∨ i = l.length ∧ a = b := by
  rcases Nat.lt_or_ge i l.length with hi | hi
  · exact .inl ((getElem?_append_left hi).symm.trans h)
  · rw [getElem?_append_right hi] at h
    obtain ⟨hlt, hb⟩ := List.getElem?_eq_some_iff.mp h
    rw [length_singleton] at hlt
    exact .inr ⟨by omega, mem_singleton.mp (mem_of_getElem? h)⟩

/-- What a search finds, and what is left without it. -/
theorem split_of_find (h : l.find? q = some a) :
    ∃ before after, l = before ++ a :: after ∧ l.eraseP q = before ++ after := by
  obtain ⟨hq, before, after, rfl, hnot⟩ := find?_eq_some_iff_append.mp h
  refine ⟨before, after, rfl, ?_⟩
  rw [eraseP_append_right _ (fun b hb => by simpa using hnot b hb), eraseP_cons_of_pos hq]

variable {g : α → List β}

theorem mem_flatMap_modify (ha : l[i]? = some a) {x : β} (h : x ∈ (l.modify i f).flatMap g) :
    x ∈ g (f a) ∨ x ∈ l.flatMap g := by
  obtain ⟨b, hb, hx⟩ := mem_flatMap.mp h
  rcases mem_modify ha hb with rfl | hb
  · exact .inl hx
  · exact .inr (mem_flatMap.mpr ⟨b, hb, hx⟩)

theorem count_flatMap_modify [BEq β] (h : l[i]? = some a) (x : β) :
    ((l.modify i f).flatMap g).count x + (g a).count x = (l.flatMap g).count x +
    (g (f a)).count x := by
  induction l generalizing i with
  | nil => simp at h
  | cons b l ih =>
    cases i with
    | zero =>
      cases h
      simp only [modify_zero_cons, flatMap_cons, count_append]
      omega
    | succ i =>
      have hrest := ih (i := i) h
      simp only [modify_succ_cons, flatMap_cons, count_append]
      omega

end Modify
