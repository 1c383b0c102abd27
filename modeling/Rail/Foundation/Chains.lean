import Mathlib.Logic.Relation
import Mathlib.Order.WellFounded
import Mathlib.Data.List.Nodup
import Mathlib.Data.List.Perm.Subperm

/-!
# Chains of parents

A partial function `up` that says what stands above an element, as the parents of a table do.  It is
*grounded* when every chain upwards ends.  One element may be put under another without harm as long
as it does not stand above it (`Grounded.update`), and removing what stands above an element does
none (`Grounded.mono`).

Where only finitely many elements have anything above them, a grounded `up` has a height that their
number bounds (`Grounded.exists_height`).  So whoever climbs it needs no more steps than that, and
whoever looks for an element on the way finds it among as many (`Grounded.mem_chain`).
-/

namespace Chains

open List Function Relation

variable {α : Type*} {up up' : α → Option α} {a b : α} {n : ℕ}

/-- The element and those above it, at most `n` in all. -/
def chain (up : α → Option α) : ℕ → α → List α
  | 0, _ => []
  | n + 1, a => a :: (up a).elim [] (chain up n)

/-- `b` is `a` or stands above it. -/
abbrev Above (up : α → Option α) (b a : α) : Prop := ReflTransGen (fun a b => up a = some b) a b

/-- Every chain upwards ends. -/
def Grounded (up : α → Option α) : Prop := WellFounded fun b a => up a = some b

theorem chain_succ_of_none (h : up a = none) (n : ℕ) : chain up (n + 1) a = [a] := by
  rw [chain, h]
  rfl

theorem chain_succ_of_some (h : up a = some b) (n : ℕ) :
    chain up (n + 1) a = a :: chain up n b := by
  rw [chain, h]
  rfl

theorem above_of_mem_chain (h : b ∈ chain up n a) : Above up b a := by
  induction n generalizing a with
  | zero => exact absurd h not_mem_nil
  | succ n ih =>
    cases hup : up a with
    | none =>
      rw [chain_succ_of_none hup, mem_singleton] at h
      exact h ▸ .refl
    | some c =>
      rw [chain_succ_of_some hup, mem_cons] at h
      rcases h with rfl | h
      · exact .refl
      · exact .head hup (ih h)

/-- Nothing stands above what nothing is under. -/
theorem not_above_of_top (hbelow : ∀ c, up c ≠ some b) (hne : a ≠ b) : ¬ Above up b a := by
  intro h
  rcases h.cases_tail with heq | ⟨c, -, hc⟩
  · exact hne heq.symm
  · exact hbelow c hc

namespace Grounded

theorem mono (h : Grounded up) (hle : ∀ a b, up' a = some b → up a = some b) : Grounded up' :=
  Subrelation.wf (fun {_ _} hab => hle _ _ hab) h

/-- An element does not stand above the one above it. -/
theorem not_above (h : Grounded up) (hup : up a = some b) : ¬ Above up a b := by
  intro habove
  have hcycle : TransGen (fun b a => up a = some b) a a := by
    rw [← transGen_swap]
    exact .head' hup habove
  exact h.transGen.irrefl.irrefl a hcycle

/-- **An element may be put under any that it does not stand above.** -/
theorem update [DecidableEq α] (h : Grounded up) (hnot : ¬ Above up a b) :
    Grounded (Function.update up a (some b)) := by
  -- What stands above `b` keeps what stands above it.
  have hfrom : ∀ x, Above up x b → Acc (fun y x => Function.update up a (some b) x = some y) x := by
    intro x
    induction x using h.induction with
    | _ x ih =>
      intro hx
      have hne : x ≠ a := fun heq => hnot (heq ▸ hx)
      refine .intro x fun y hy => ?_
      rw [update_of_ne hne] at hy
      exact ih y hy (hx.tail hy)
  refine ⟨fun x => ?_⟩
  induction x using h.induction with
  | _ x ih =>
    refine .intro x fun y hy => ?_
    by_cases hx : x = a
    · subst hx
      rw [update_self] at hy
      exact Option.some.inj hy ▸ hfrom b .refl
    · rw [update_of_ne hx] at hy
      exact ih y hy

theorem nodup_chain (h : Grounded up) (n : ℕ) (a : α) : (chain up n a).Nodup := by
  induction n generalizing a with
  | zero => exact nodup_nil
  | succ n ih =>
    cases hup : up a with
    | none =>
      rw [chain_succ_of_none hup]
      exact nodup_singleton a
    | some b =>
      rw [chain_succ_of_some hup]
      exact nodup_cons.mpr ⟨fun hmem => h.not_above hup (above_of_mem_chain hmem), ih b⟩

end Grounded

/-! ## Finitely many with something above them -/

variable {l : List α}

/-- All but the last of a chain have something above them. -/
theorem length_chain_le (h : Grounded up) (hl : ∀ a, up a ≠ none → a ∈ l) (n : ℕ) (a : α) :
    (chain up n a).length ≤ l.length + 1 := by
  have hsub : ∀ n a, (chain up n a).dropLast ⊆ l := by
    intro n
    induction n with
    | zero => exact fun a => nil_subset l
    | succ n ih =>
      intro a
      cases hup : up a with
      | none =>
        rw [chain_succ_of_none hup]
        exact nil_subset l
      | some b =>
        rw [chain_succ_of_some hup]
        cases hrest : chain up n b with
        | nil => exact nil_subset l
        | cons c cs =>
          rw [dropLast_cons_cons, ← hrest]
          exact cons_subset.mpr ⟨hl a (hup ▸ Option.some_ne_none b), ih b⟩
  have hnodup : (chain up n a).dropLast.Nodup := (h.nodup_chain n a).sublist (dropLast_sublist _)
  have hle := (hnodup.subperm (hsub n a)).length_le
  rw [length_dropLast] at hle
  omega

/-- A chain that is shorter than it might be is whole. -/
theorem chain_succ_of_short (h : (chain up n a).length < n) :
    chain up (n + 1) a = chain up n a := by
  induction n generalizing a with
  | zero => exact absurd h (Nat.not_lt_zero _)
  | succ n ih =>
    cases hup : up a with
    | none => rw [chain_succ_of_none hup, chain_succ_of_none hup]
    | some b =>
      rw [chain_succ_of_some hup, length_cons] at h
      rw [chain_succ_of_some hup, chain_succ_of_some hup, ih (by omega)]

/-- **A height that the number of those with something above them bounds.** -/
theorem Grounded.exists_height (h : Grounded up) (hl : ∀ a, up a ≠ none → a ∈ l) :
    ∃ height : α → ℕ, (∀ a, height a ≤ l.length) ∧ ∀ a b, up a = some b → height b < height a := by
  refine ⟨fun a => (chain up (l.length + 2) a).length - 1, fun a => ?_, fun a b hup => ?_⟩
  · exact Nat.sub_le_of_le_add (length_chain_le h hl (l.length + 2) a)
  · have hle := length_chain_le h hl (l.length + 1 + 1) a
    rw [chain_succ_of_some hup, length_cons] at hle
    have hwhole : chain up (l.length + 1 + 1) b = chain up (l.length + 1) b :=
      chain_succ_of_short (by omega)
    have hpos : 0 < (chain up (l.length + 1) b).length := by
      rw [chain]
      exact Nat.succ_pos _
    show (chain up (l.length + 1 + 1) b).length - 1 < (chain up (l.length + 1 + 1) a).length - 1
    rw [chain_succ_of_some hup, length_cons, hwhole]
    omega

/-- Who stands above an element is found on a chain as long as that. -/
theorem Grounded.mem_chain (h : Grounded up) (hl : ∀ a, up a ≠ none → a ∈ l) (hn : l.length < n)
    (habove : Above up b a) : b ∈ chain up n a := by
  obtain ⟨height, hbound, hlt⟩ := h.exists_height hl
  have hfind : ∀ n, height a < n → b ∈ chain up n a := by
    induction habove using ReflTransGen.head_induction_on with
    | refl =>
      intro n hn
      obtain ⟨m, rfl⟩ := Nat.exists_eq_succ_of_ne_zero (by omega : n ≠ 0)
      rw [chain]
      exact mem_cons_self
    | head hup _ ih =>
      intro n hn
      obtain ⟨m, rfl⟩ := Nat.exists_eq_succ_of_ne_zero (by omega : n ≠ 0)
      rw [chain_succ_of_some hup]
      have hless := hlt _ _ hup
      exact mem_cons_of_mem _ (ih m (by omega))
  exact hfind n (lt_of_le_of_lt (hbound a) hn)

end Chains
