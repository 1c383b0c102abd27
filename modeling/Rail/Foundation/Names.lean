import Mathlib.Data.List.Infix

/-!
# A tree of names

A directory tree is the list of its entries: the path of each, by components, and what is
there.  The operations are those of POSIX on a tree without links to be followed: `create`,
`makeDirectory`, `unlink`, `removeDirectory` and `rename`, each of which may refuse, and
`rename` moves everything below the name along with it.

What a path names changes only when an operation is given that path or one above it
(`get_rename`, `get_unlink` and so on).  Files are told apart by a number, so that two
names may stand for one file, and a name may come to stand for another.
-/

namespace Names

open List Option

/-- A path, by its components from the root. -/
abbrev Path := List String

inductive Entry where
  | dir
  | file (id : ℕ)
  deriving DecidableEq

/-- The entries of a tree. -/
abbrev Tree := List (Path × Entry)

variable (t : Tree) (p : Path)

/-- What a path names. -/
def get : Option Entry := (t.find? fun e => e.1 = p).map Prod.snd

/-- Nothing lies below the path. -/
def bare : Bool := t.all fun e => !(decide (p <+: e.1) && decide (p ≠ e.1))

/-- There is a directory for the path to be made in. -/
def housed : Bool := decide (p ≠ []) && decide (get t p.dropLast = some .dir)

/-- Add an entry. -/
def insert (e : Entry) : Tree := (p, e) :: t

/-- Remove the entry of a path. -/
def erase : Tree := t.filter fun e => decide (e.1 ≠ p)

/-- Move everything at or below one path to another. -/
def move (src dst : Path) : Tree :=
  (t.filter fun e => !decide (dst <+: e.1)).map fun e =>
    if src <+: e.1 then (dst ++ e.1.drop src.length, e.2) else e

/-- `open` with `O_CREAT`: the file that is there, or a new one. -/
def create (id : ℕ) (p : Path) : Option Tree :=
  match get t p with
  | some (.file _) => some t
  | some .dir => none
  | none => if housed t p then some (insert t p (.file id)) else none

def makeDirectory : Option Tree :=
  if get t p = none ∧ housed t p then some (insert t p .dir) else none

def unlink : Option Tree :=
  match get t p with
  | some (.file _) => some (erase t p)
  | _ => none

def removeDirectory : Option Tree :=
  if p ≠ [] ∧ get t p = some .dir ∧ bare t p then some (erase t p) else none

/-- `rename`: nothing is done when both names stand for one file already; a directory is not
moved below itself, nor put in the place of one that is not empty. -/
def rename (src dst : Path) : Option Tree :=
  if src = [] ∨ dst = [] then none
  else if src = dst then (get t src).map fun _ => t
  else if src <+: dst ∨ housed t dst = false then none
  else
    match get t src, get t dst with
    | some _, none => some (move t src dst)
    | some (.file i), some (.file j) => if i = j then some t else some (move t src dst)
    | some .dir, some .dir => if bare t dst then some (move t src dst) else none
    | _, _ => none

/-! ## What is not touched -/

variable {t t' : Tree} {p q src dst : Path} {e : Entry} {id : ℕ}

theorem prefix_dropLast (h : p <+: q) (hne : p ≠ q) : p <+: q.dropLast := by
  obtain ⟨r, rfl⟩ := h
  have hr : r ≠ [] := fun hr => hne (by rw [hr, append_nil])
  rw [dropLast_append_of_ne_nil hr]
  exact prefix_append p _

theorem get_cons (t : Tree) (x : Path × Entry) (p : Path) :
    get (x :: t) p = if x.1 = p then some x.2 else get t p := by
  unfold get
  rw [find?_cons]
  split_ifs with h
  · rw [decide_eq_true h]
    rfl
  · rw [decide_eq_false h]

theorem get_insert_of_ne (h : p ≠ q) : get (insert t p e) q = get t q := by
  rw [insert, get_cons, if_neg h]

theorem get_erase_of_ne (h : q ≠ p) : get (erase t p) q = get t q := by
  induction t with
  | nil => rfl
  | cons x t ih =>
    rw [erase, filter_cons]
    split_ifs with hx
    · rw [get_cons, get_cons]
      split_ifs
      · rfl
      · exact ih
    · rw [get_cons, if_neg]
      · exact ih
      · rintro rfl
        exact hx (decide_eq_true h)

/-- **A move leaves every path alone that is below neither end.** -/
theorem get_move (hsrc : ¬ src <+: q) (hdst : ¬ dst <+: q) : get (move t src dst) q = get t q := by
  induction t with
  | nil => rfl
  | cons x t ih =>
    rw [move, filter_cons]
    split_ifs with hx
    · rw [map_cons, get_cons, get_cons]
      by_cases hs : src <+: x.1
      · -- the entry moves below `dst`, and was below `src`
        rw [if_pos hs, if_neg, if_neg]
        · exact ih
        · rintro rfl
          exact hsrc hs
        · intro h
          exact hdst (h ▸ prefix_append dst _)
      · rw [if_neg hs]
        split_ifs
        · rfl
        · exact ih
    · rw [get_cons, if_neg]
      · exact ih
      · rintro rfl
        exact hx (by rw [decide_eq_false hdst]; rfl)

theorem get_create (h : create t id p = some t') (hq : get t q = some e) : get t' q = some e := by
  unfold create at h
  split at h
  · rw [← some.inj h]
    exact hq
  · cases h
  · next hnone =>
    split_ifs at h
    rw [← some.inj h, get_insert_of_ne, hq]
    rintro rfl
    rw [hnone] at hq
    cases hq

theorem get_makeDirectory (h : makeDirectory t p = some t') (hq : get t q = some e) :
    get t' q = some e := by
  unfold makeDirectory at h
  split_ifs at h with hnone
  rw [← some.inj h, get_insert_of_ne, hq]
  rintro rfl
  rw [hnone.1] at hq
  cases hq

theorem get_unlink (h : unlink t p = some t') (hq : q ≠ p) : get t' q = get t q := by
  unfold unlink at h
  split at h
  · rw [← some.inj h]
    exact get_erase_of_ne hq
  · cases h

theorem get_removeDirectory (h : removeDirectory t p = some t') (hq : q ≠ p) :
    get t' q = get t q := by
  unfold removeDirectory at h
  split_ifs at h
  rw [← some.inj h]
  exact get_erase_of_ne hq

/-! ## What is found afterwards -/

theorem get_insert_self : get (insert t p e) p = some e := by
  rw [insert, get_cons, if_pos rfl]

/-- What is below a bare path is not in the tree. -/
theorem not_bare_of_get (hq : get t q = some e) (hpre : p <+: q) (hne : p ≠ q) :
    bare t p = false := by
  obtain ⟨x, hx, -⟩ := map_eq_some_iff.mp hq
  have hkey : x.1 = q := by simpa using find?_some hx
  refine Bool.eq_false_iff.mpr fun hbare => ?_
  have hall := List.all_eq_true.mp hbare x (mem_of_find?_eq_some hx)
  rw [hkey, decide_eq_true hpre, decide_eq_true hne] at hall
  exact absurd hall (by decide)

/-- **A move puts at its target what was at its source.** -/
theorem get_move_target (h : ¬ dst <+: src) : get (move t src dst) dst = get t src := by
  induction t with
  | nil => rfl
  | cons x t ih =>
    rw [move, filter_cons]
    split_ifs with hx
    · have hdst : ¬ dst <+: x.1 := by simpa using hx
      rw [map_cons, get_cons, get_cons]
      by_cases hs : src <+: x.1
      · rw [if_pos hs]
        by_cases hx : x.1 = src
        · rw [if_pos hx, if_pos]
          rw [hx, drop_length, append_nil]
        · rw [if_neg hx, if_neg]
          · exact ih
          · intro he
            have hdrop : x.1.length ≤ src.length := by simpa using he
            exact hx (hs.eq_of_length_le hdrop).symm
      · rw [if_neg hs, if_neg, if_neg]
        · exact ih
        · rintro rfl
          exact hs prefix_rfl
        · rintro rfl
          exact hdst prefix_rfl
    · rw [get_cons, if_neg]
      · exact ih
      · rintro rfl
        exact hx (by rw [decide_eq_false h]; rfl)

theorem get_makeDirectory_self (h : makeDirectory t p = some t') : get t' p = some .dir := by
  unfold makeDirectory at h
  split_ifs at h
  rw [← some.inj h]
  exact get_insert_self

theorem get_of_unlink (h : unlink t p = some t') : ∃ i, get t p = some (.file i) := by
  unfold unlink at h
  split at h
  · next i hi => exact ⟨i, hi⟩
  · cases h

theorem bare_of_removeDirectory (h : removeDirectory t p = some t') : bare t p = true := by
  unfold removeDirectory at h
  split_ifs at h with hp
  exact hp.2.2

section

variable (h : rename t src dst = some t')
include h

/-- What a rename to another name does: nothing, where both stand for one file, or a move, which
takes over no directory but an empty one. -/
theorem rename_cases (hne : src ≠ dst) :
    (t' = t ∧ ∃ i, get t src = some (.file i) ∧ get t dst = some (.file i)) ∨
    (t' = move t src dst ∧ (get t dst = some .dir → bare t dst = true)) := by
  rw [rename, if_neg (fun hroot => by simp [hroot] at h), if_neg hne,
    if_neg (fun hbad => by simp [hbad] at h)] at h
  cases hsrc : get t src with
  | none => simp [hsrc] at h
  | some a =>
    cases hdst : get t dst with
    | none => exact .inr ⟨by simpa [hsrc, hdst] using h.symm, by simp⟩
    | some b =>
      rw [hsrc, hdst] at h
      cases a with
      | dir =>
        cases b with
        | dir =>
          obtain ⟨hbare, h⟩ := ite_none_right_eq_some.mp h
          exact .inr ⟨(some.inj h).symm, fun _ => hbare⟩
        | file j => simp at h
      | file i =>
        cases b with
        | dir => simp at h
        | file j =>
          by_cases hij : i = j
          · exact .inl ⟨by simpa [hij] using h.symm, j, by rw [hij], rfl⟩
          · exact .inr ⟨by simpa [hij] using h.symm, by simp⟩

/-- A rename leaves what is neither below its source nor below its target. -/
theorem get_rename (hsrc : ¬ src <+: q) (hdst : ¬ dst <+: q) : get t' q = get t q := by
  by_cases hne : src = dst
  · rw [rename, if_neg (fun hroot => by simp [hroot] at h), if_pos hne] at h
    obtain ⟨-, -, rfl⟩ := map_eq_some_iff.mp h
    rfl
  · rcases rename_cases h hne with ⟨rfl, -⟩ | ⟨rfl, -⟩
    · rfl
    · exact get_move hsrc hdst

/-- A name that is taken over stands for what was moved to it. -/
theorem get_rename_target (hne : src ≠ dst) (hdst : ¬ dst <+: src) : get t' dst = get t src := by
  rcases rename_cases h hne with ⟨rfl, i, hi, hj⟩ | ⟨rfl, -⟩
  · rw [hi, hj]
  · exact get_move_target hdst

/-- A directory that is taken over is empty. -/
theorem bare_of_rename (hne : src ≠ dst) (hd : get t dst = some .dir) : bare t dst = true := by
  rcases rename_cases h hne with ⟨rfl, i, -, hj⟩ | ⟨-, hbare⟩
  · rw [hd] at hj
    cases hj
  · exact hbare hd

end

end Names
