import Mathlib.Data.List.Infix
import Mathlib.Data.List.TakeWhile

/-!
# Ordered maps whose keys are texts

A map is the list of its entries in the order of their keys, and the keys are texts over an ordered
alphabet, compared as texts are: at the first place where they differ.

The texts that start with a given one follow each other in that order.  So the entries under a text
are found by going from the first key that is not smaller than it to the first key that does not
start with it: `under` makes that walk.
-/

namespace TextMap

open List

variable {α β : Type*} [LT α] [DecidableLT α] [DecidableEq α] {k : List α} {v : β} {e : List α × β}
  {m : List (List α × β)}

/-- `insert_or_assign` -/
def insertOrAssign (k : List α) (v : β) : List (List α × β) → List (List α × β)
  | [] => [(k, v)]
  | e :: rest =>
    if e.1 < k then e :: insertOrAssign k v rest
    else if e.1 = k then (k, v) :: rest
    else (k, v) :: e :: rest

/-- The key is smaller than the text. -/
def before (k : List α) (e : List α × β) : Bool := decide (e.1 < k)

/-- The key starts with the text. -/
def starts (k : List α) (e : List α × β) : Bool := decide (k <+: e.1)

/-- The entries from `lower_bound` on, up to the first whose key does not start with the text. -/
def under (k : List α) (m : List (List α × β)) : List (List α × β) :=
  (m.dropWhile (before k)).takeWhile (starts k)

/-- The keys are in order, and none comes twice. -/
def InOrder (m : List (List α × β)) : Prop := m.Pairwise fun e f => e.1 < f.1

theorem mem_insertOrAssign (he : e ∈ insertOrAssign k v m) : e = (k, v) ∨ e ∈ m := by
  induction m with
  | nil => exact .inl (mem_singleton.mp he)
  | cons f rest ih =>
    rw [insertOrAssign] at he
    split_ifs at he
    · rcases mem_cons.mp he with rfl | he
      · exact .inr mem_cons_self
      · exact (ih he).imp_right (mem_cons_of_mem f)
    · exact (mem_cons.mp he).imp_right (mem_cons_of_mem f)
    · exact mem_cons.mp he

theorem mem_insertOrAssign_self (k : List α) (v : β) (m : List (List α × β)) :
    (k, v) ∈ insertOrAssign k v m := by
  induction m with
  | nil => exact mem_cons_self
  | cons f rest ih =>
    rw [insertOrAssign]
    split_ifs
    · exact mem_cons_of_mem f ih
    all_goals exact mem_cons_self

theorem mem_insertOrAssign_of_ne (he : e ∈ m) (hk : e.1 ≠ k) : e ∈ insertOrAssign k v m := by
  induction m with
  | nil => exact absurd he not_mem_nil
  | cons f rest ih =>
    rw [insertOrAssign]
    split_ifs with _ heq
    · rcases mem_cons.mp he with rfl | he
      · exact mem_cons_self
      · exact mem_cons_of_mem f (ih he)
    · rcases mem_cons.mp he with rfl | he
      · exact absurd heq hk
      · exact mem_cons_of_mem _ he
    · exact mem_cons_of_mem _ he

theorem of_mem_under (he : e ∈ under k m) : e ∈ m ∧ k <+: e.1 :=
  ⟨(dropWhile_sublist _).subset ((takeWhile_sublist _).subset he),
    of_decide_eq_true (mem_takeWhile_imp (p := starts k) he)⟩

variable [LE α] [Std.IsLinearOrder α] [Std.LawfulOrderLT α]

/-- Putting an entry in where it belongs keeps the order. -/
theorem InOrder.insertOrAssign (h : InOrder m) (k : List α) (v : β) :
    InOrder (insertOrAssign k v m) := by
  induction m with
  | nil => exact pairwise_singleton _ _
  | cons f rest ih =>
    obtain ⟨hf, hrest⟩ := pairwise_cons.mp h
    rw [TextMap.insertOrAssign]
    split_ifs with hlt heq
    · refine pairwise_cons.mpr ⟨fun e he => ?_, ih hrest⟩
      rcases mem_insertOrAssign he with rfl | he
      · exact hlt
      · exact hf e he
    · exact pairwise_cons.mpr ⟨fun e he => heq ▸ hf e he, hrest⟩
    · have hkf : k < f.1 := by
        by_contra hnot
        exact heq (List.le_antisymm (List.not_lt.mp hnot) (List.not_lt.mp hlt))
      refine pairwise_cons.mpr ⟨fun e he => ?_, h⟩
      rcases mem_cons.mp he with rfl | he
      · exact hkf
      · exact List.lt_trans hkf (hf e he)

end TextMap
