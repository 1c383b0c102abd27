import Rail.Foundation.ByteFile
import Mathlib.Logic.Function.Basic

/-!
# A file under the unsent writes of several parties

Every party `n` holds back a list `win n` of writes to a common file whose contents are
`base`.  While no two parties hold back the same position, the file they are working
towards is determined position by position: where a party holds something back it reads
as that party's writes put over `base`, and elsewhere as `base` (`Overlaid`).

The relation is kept when one party places further writes, or sends some of those it holds
back, provided no other party holds back what it places (`Overlaid.change`).  When nobody
holds anything back the two files are the same (`Overlaid.eq_base`).
-/

namespace ByteFile

open List

variable {α ι : Type*} {i : ℕ} {ps : List (ℕ × List α)} {f : List α}

/-- One of the writes reaches the position. -/
def Covered (ps : List (ℕ × List α)) (i : ℕ) : Prop := ∃ p ∈ ps, p.1 ≤ i ∧ i < p.1 + p.2.length

theorem not_covered_of_empty (h : ∀ p ∈ ps, p.2 = []) : ¬ Covered ps i := by
  rintro ⟨p, hp, hi⟩
  rw [h p hp, length_nil] at hi
  omega

variable [Inhabited α]

theorem cellAt_pwriteAll_of_not (h : ¬ Covered ps i) : cellAt (pwriteAll f ps) i = cellAt f i :=
  cellAt_pwriteAll_of_not_covered fun p hp hi => h ⟨p, hp, hi⟩

/-- What a position that is written over reads does not depend on the file below. -/
theorem cellAt_pwriteAll_congr :
    ∀ {ps : List (ℕ × List α)} {f g : List α}, Covered ps i →
      cellAt (pwriteAll f ps) i = cellAt (pwriteAll g ps) i := by
  intro ps
  induction ps with
  | nil =>
    rintro f g ⟨p, hp, -⟩
    cases hp
  | cons p ps ih =>
    intro f g h
    rw [pwriteAll_cons, pwriteAll_cons]
    by_cases hps : Covered ps i
    · exact ih hps
    · obtain ⟨q, hq, hi⟩ := h
      obtain rfl : q = p := (mem_cons.mp hq).resolve_right fun hq => hps ⟨q, hq, hi⟩
      rw [cellAt_pwriteAll_of_not hps, cellAt_pwriteAll_of_not hps, cellAt_pwrite, cellAt_pwrite,
        if_pos hi, if_pos hi]

theorem lt_length_pwriteAll_of_lt (h : i < f.length) : i < (pwriteAll f ps).length :=
  (lt_length_pwriteAll_iff i ps f).mpr (.inl h)

/-- The file the parties are working towards. -/
structure Overlaid (win : ι → List (ℕ × List α)) (base file : List α) : Prop where
  own : ∀ n i, Covered (win n) i → cellAt file i = cellAt (pwriteAll base (win n)) i
  rest : ∀ i, (∀ n, ¬ Covered (win n) i) → cellAt file i = cellAt base i
  length : ∀ i, i < file.length ↔ i < base.length ∨ ∃ n, i < (pwriteAll base (win n)).length
  apart : ∀ m n i, m ≠ n → Covered (win m) i → ¬ Covered (win n) i

variable {win win' : ι → List (ℕ × List α)} {base base' file : List α} {n : ι}
  {ws : List (ℕ × List α)}

/-- What one party sees is the file, but where another holds something back. -/
theorem Overlaid.cellAt_eq (ho : Overlaid win base file) (h : ∀ m, m ≠ n → ¬ Covered (win m) i) :
    cellAt file i = cellAt (pwriteAll base (win n)) i := by
  by_cases hn : Covered (win n) i
  · exact ho.own n i hn
  · rw [cellAt_pwriteAll_of_not hn]
    refine ho.rest i fun m => ?_
    by_cases hm : m = n
    · rw [hm]
      exact hn
    · exact h m hm

/-- **One party goes on.**  It holds back `win' n` for `win n`, over a base that may have
changed, and sees what it saw with `ws` written over it; no other party holds back what is
in `ws`. -/
theorem Overlaid.change (ho : Overlaid win base file)
    (hview : pwriteAll base' (win' n) = pwriteAll (pwriteAll base (win n)) ws)
    (hcov : ∀ i, Covered (win' n) i → Covered (win n) i ∨ Covered ws i)
    (hothers : ∀ m, m ≠ n → win' m = win m) (hapart : ∀ m i, m ≠ n → Covered ws i →
      ¬ Covered (win m) i) : Overlaid win' base' (pwriteAll file ws) := by
  -- where nobody else holds anything back, the party sees the new file
  have hsees : ∀ i, (∀ m, m ≠ n → ¬ Covered (win m) i) →
      cellAt (pwriteAll file ws) i = cellAt (pwriteAll base' (win' n)) i := by
    intro i hi
    rw [hview]
    by_cases hws : Covered ws i
    · exact cellAt_pwriteAll_congr hws
    · rw [cellAt_pwriteAll_of_not hws, cellAt_pwriteAll_of_not hws]
      exact ho.cellAt_eq hi
  have hfree : ∀ m i, m ≠ n → Covered (win' n) i → ¬ Covered (win m) i := by
    intro m i hm hi
    rcases hcov i hi with h | h
    · exact ho.apart n m i (.symm hm) h
    · exact hapart m i hm h
  refine ⟨fun m i hi => ?_, fun i hi => ?_, fun i => ?_, fun l m i hne hl hm => ?_⟩
  · by_cases hm : m = n
    · subst hm
      exact hsees i fun l hl => hfree l i hl hi
    · rw [hothers m hm] at hi ⊢
      rw [cellAt_pwriteAll_of_not fun h => hapart m i hm h hi, ho.own m i hi]
      exact cellAt_pwriteAll_congr hi
  · rw [hsees i fun m hm => by rw [← hothers m hm]; exact hi m, cellAt_pwriteAll_of_not (hi n)]
  · have hlen : i < (pwriteAll base' (win' n)).length ↔
        i < (pwriteAll base (win n)).length ∨ ∃ p ∈ ws, p.2 ≠ [] ∧ i < p.1 + p.2.length := by
      rw [hview, lt_length_pwriteAll_iff]
    rw [lt_length_pwriteAll_iff, ho.length]
    constructor
    · rintro ((hb | ⟨m, hm⟩) | hw)
      · exact .inr ⟨n, hlen.mpr (.inl (lt_length_pwriteAll_of_lt hb))⟩
      · by_cases hmn : m = n
        · rw [hmn] at hm
          exact .inr ⟨n, hlen.mpr (.inl hm)⟩
        · rw [lt_length_pwriteAll_iff] at hm
          rcases hm with hb | hm
          · exact .inr ⟨n, hlen.mpr (.inl (lt_length_pwriteAll_of_lt hb))⟩
          · refine .inr ⟨m, ?_⟩
            rw [hothers m hmn, lt_length_pwriteAll_iff]
            exact .inr hm
      · exact .inr ⟨n, hlen.mpr (.inr hw)⟩
    · rintro (hb | ⟨m, hm⟩)
      · rcases hlen.mp (lt_length_pwriteAll_of_lt hb) with h | h
        · exact .inl (.inr ⟨n, h⟩)
        · exact .inr h
      · by_cases hmn : m = n
        · rw [hmn] at hm
          rcases hlen.mp hm with h | h
          · exact .inl (.inr ⟨n, h⟩)
          · exact .inr h
        · rw [hothers m hmn, lt_length_pwriteAll_iff] at hm
          rcases hm with hb | hm
          · rcases hlen.mp (lt_length_pwriteAll_of_lt hb) with h | h
            · exact .inl (.inr ⟨n, h⟩)
            · exact .inr h
          · refine .inl (.inr ⟨m, ?_⟩)
            rw [lt_length_pwriteAll_iff]
            exact .inr hm
  · by_cases hln : l = n
    · subst hln
      rw [hothers m (Ne.symm hne)] at hm
      exact hfree m i (.symm hne) hl hm
    · rw [hothers l hln] at hl
      by_cases hmn : m = n
      · subst hmn
        exact hfree l i hln hm hl
      · rw [hothers m hmn] at hm
        exact ho.apart l m i hne hl hm

/-- Writes of nothing leave every file as it is. -/
theorem pwriteAll_of_empty (h : ∀ p ∈ ps, p.2 = []) : pwriteAll f ps = f := by
  induction ps with
  | nil => rfl
  | cons p ps ih =>
    rw [pwriteAll_cons, h p mem_cons_self, pwrite_nil]
    exact ih fun q hq => h q (mem_cons_of_mem _ hq)

/-- **Nobody holds anything back**: the file is there. -/
theorem Overlaid.eq_base (ho : Overlaid win base file) (h : ∀ n, ∀ p ∈ win n, p.2 = []) :
    file = base := by
  have hlen : ∀ i, i < file.length ↔ i < base.length := by
    intro i
    rw [ho.length]
    refine or_iff_left_of_imp ?_
    rintro ⟨n, hn⟩
    rw [pwriteAll_of_empty (h n)] at hn
    exact hn
  refine ext_cellAt ?_ fun i _ => ho.rest i fun n => not_covered_of_empty (h n)
  have h₁ := hlen file.length
  have h₂ := hlen base.length
  omega

theorem Overlaid.of_empty (h : ∀ n, ∀ p ∈ win n, p.2 = []) (file : List α) :
    Overlaid win file file where
  own n i hi := absurd hi (not_covered_of_empty (h n))
  rest _ _ := rfl
  length i := by
    refine (or_iff_left_of_imp ?_).symm
    rintro ⟨n, hn⟩
    rw [pwriteAll_of_empty (h n)] at hn
    exact hn
  apart m _ i _ hm := absurd hm (not_covered_of_empty (h m))

/-- A party that holds nothing back may come or go. -/
theorem Overlaid.congr (ho : Overlaid win base file)
    (h : ∀ n, win' n = win n ∨ ((∀ p ∈ win n, p.2 = []) ∧ ∀ p ∈ win' n, p.2 = [])) :
    Overlaid win' base file := by
  have hcov : ∀ n i, Covered (win' n) i ↔ Covered (win n) i := by
    intro n i
    rcases h n with heq | ⟨h₁, h₂⟩
    · rw [heq]
    · exact iff_of_false (not_covered_of_empty h₂) (not_covered_of_empty h₁)
  have hput : ∀ n, pwriteAll base (win' n) = pwriteAll base (win n) := by
    intro n
    rcases h n with heq | ⟨h₁, h₂⟩
    · rw [heq]
    · rw [pwriteAll_of_empty h₁, pwriteAll_of_empty h₂]
  refine ⟨fun n i hi => ?_, fun i hi => ?_, fun i => ?_, fun m n i hne hm hn => ?_⟩
  · rw [hput]
    exact ho.own n i ((hcov n i).mp hi)
  · exact ho.rest i fun n hn => hi n ((hcov n i).mpr hn)
  · rw [ho.length]
    simp only [hput]
  · exact ho.apart m n i hne ((hcov m i).mp hm) ((hcov n i).mp hn)

end ByteFile
