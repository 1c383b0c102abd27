import Mathlib.Data.List.Infix

/-!
# The place that a path names

A path is a text whose components are cut off by a separator.  Without looking at any directory it
can still be simplified: empty components and single dots say nothing, two dots take back the
component before them.  What remains is its lexical normal form: whether it starts at the top, how
many levels it goes up first, and the names from there (`Place`).

A path that goes on from another one, with a separator between and nothing that goes up, is below it
(`below_append`).
-/

namespace Lexical

open List

variable {α : Type*} [DecidableEq α]

/-- A path in its normal form. -/
structure Place (α : Type*) where
  absolute : Bool
  ups : ℕ
  names : List (List α)
  deriving DecidableEq

variable (sep dot : α)

namespace Place

/-- One component further.  Above the top there is nothing. -/
def enter (p : Place α) (c : List α) : Place α :=
  if c = [] ∨ c = [dot] then p
  else if c = [dot, dot] then
    if p.names ≠ [] then { p with names := p.names.dropLast }
    else if p.absolute then p
    else { p with ups := p.ups + 1 }
  else { p with names := p.names ++ [c] }

/-- The same place or one below it. -/
def Below (root p : Place α) : Prop := p.absolute = root.absolute ∧ p.ups = root.ups ∧
  root.names <+: p.names

instance (root p : Place α) : Decidable (Below root p) := inferInstanceAs (Decidable (_ ∧ _ ∧ _))

omit [DecidableEq α] in
theorem Below.refl (p : Place α) : Below p p := ⟨rfl, rfl, prefix_refl _⟩

omit [DecidableEq α] in
theorem Below.trans {p q r : Place α} (h : Below p q) (h' : Below q r) : Below p r :=
  ⟨h'.1.trans h.1, h'.2.1.trans h.2.1, h.2.2.trans h'.2.2⟩

variable {sep dot}
variable {root p : Place α} {c : List α}

theorem Below.enter (h : Below root p) (hc : c ≠ [dot, dot]) : Below root (p.enter dot c) := by
  rw [Place.enter, if_neg hc]
  split_ifs
  · exact h
  · exact ⟨h.1, h.2.1, h.2.2.trans (prefix_append _ _)⟩

theorem Below.foldl_enter {cs : List (List α)} (h : Below root p) (hcs : ∀ c ∈ cs, c ≠ [dot, dot]) :
    Below root (cs.foldl (Place.enter dot) p) := by
  induction cs generalizing p with
  | nil => exact h
  | cons c cs ih =>
    exact ih (h.enter (hcs c mem_cons_self)) fun d hd => hcs d (mem_cons_of_mem c hd)

end Place

/-- The components of a path, as they stand between separators. -/
def components (path : List α) : List (List α) := path.splitOn sep

/-- The normal form of a path. -/
def normal (path : List α) : Place α :=
  (components sep path).foldl (Place.enter dot) ⟨decide (path.head? = some sep), 0, []⟩

variable {sep dot}
variable {path root rest name : List α}

theorem components_append (root rest : List α) :
    components sep (root ++ sep :: rest) = components sep root ++ components sep rest :=
  splitOn_append_cons_self ..

theorem components_of_not_mem (h : sep ∉ name) : components sep name = [name] :=
  splitOn_eq_singleton h

/-- **What goes on from a path without going up is below it.** -/
theorem below_append (hroot : root ≠ []) (hrest : ∀ c ∈ components sep rest, c ≠ [dot, dot]) :
    Place.Below (normal sep dot root) (normal sep dot (root ++ sep :: rest)) := by
  have hhead : (root ++ sep :: rest).head? = root.head? := head?_append_of_ne_nil _ hroot
  rw [normal, normal, components_append, foldl_append, hhead]
  exact (Place.Below.refl _).foldl_enter hrest

/-- A relative path without anything that goes up is below where it starts. -/
theorem below_here (hrelative : path.head? ≠ some sep)
    (hpath : ∀ c ∈ components sep path, c ≠ [dot, dot]) :
    Place.Below ⟨false, 0, []⟩ (normal sep dot path) := by
  rw [normal, decide_eq_false hrelative]
  exact (Place.Below.refl _).foldl_enter hpath

end Lexical
