import Mathlib.Order.Lattice

/-!
# Runs of a step function

A system is a step function `σ → ε → Option σ`: an event either moves a state to the next
one or is not possible in it.  `exec` follows a list of events, and `Meets ok` says that
every step of such a run was taken in a state, and by an event, that satisfy `ok`.

What one step keeps, a whole run keeps (`exec_invariant`), with the conditions of the
steps at hand; that is the only induction over runs, and every invariant of a system is
an instance of it.
-/

namespace Runs

variable {σ ε : Type*} (step : σ → ε → Option σ)

/-- Follow the events one by one. -/
def exec : σ → List ε → Option σ
  | s, [] => some s
  | s, e :: es => (step s e).bind fun t => exec t es

/-- Every step of the run meets the condition. -/
def Meets (ok : σ → ε → Prop) : σ → List ε → Prop
  | _, [] => True
  | s, e :: es => ok s e ∧
      match step s e with
      | none => True
      | some t => Meets ok t es

instance Meets.decidable (ok : σ → ε → Prop) [∀ s e, Decidable (ok s e)] :
    ∀ (s : σ) (es : List ε), Decidable (Meets step ok s es)
  | _, [] => isTrue trivial
  | s, e :: es =>
    match h : step s e with
    | none => decidable_of_iff (ok s e) (by rw [Meets, h]; exact (and_iff_left trivial).symm)
    | some t =>
      have := Meets.decidable ok t es
      decidable_of_iff (ok s e ∧ Meets step ok t es) (by rw [Meets, h])

variable {step} {ok : σ → ε → Prop} {e : ε} {es : List ε} {s t : σ}

theorem exec_cons_eq_some (h : exec step s (e :: es) = some t) :
    ∃ u, step s e = some u ∧ exec step u es = some t := by
  rw [exec] at h
  exact Option.bind_eq_some_iff.mp h

theorem Meets.cons (h : Meets step ok s (e :: es)) (hs : step s e = some t) :
    ok s e ∧ Meets step ok t es := by
  rw [Meets, hs] at h
  exact h

/-- A run is put together from its first step and the rest. -/
theorem Meets.exec_cons {u : σ} (hok : ok s e) (hs : step s e = some u)
    (h : Meets step ok u es ∧ exec step u es = some t) :
    Meets step ok s (e :: es) ∧ exec step s (e :: es) = some t := by
  rw [Meets, exec, hs]
  exact ⟨⟨hok, h.1⟩, h.2⟩

theorem Meets.append {u : σ} {fs : List ε} :
    ∀ {es : List ε} {s : σ}, Meets step ok s (es ++ fs) → exec step s es = some u →
      Meets step ok s es ∧ Meets step ok u fs
  | [], s, h, hs => by
    cases hs
    exact ⟨trivial, h⟩
  | e :: es, s, h, hs => by
    obtain ⟨t, ht, hrest⟩ := exec_cons_eq_some hs
    obtain ⟨hok, hmeets⟩ := h.cons ht
    obtain ⟨h₁, h₂⟩ := hmeets.append hrest
    refine ⟨?_, h₂⟩
    rw [Meets, ht]
    exact ⟨hok, h₁⟩

theorem meets_true : ∀ (es : List ε) (s : σ), Meets step (fun _ _ => True) s es
  | [], _ => trivial
  | e :: es, s => by
    refine ⟨trivial, ?_⟩
    cases step s e with
    | none => trivial
    | some t => exact meets_true es t

/-- A condition on events alone may be added. -/
theorem Meets.and_events {p : ε → Prop} :
    ∀ {es : List ε} {s : σ}, Meets step ok s es → (∀ e ∈ es, p e) →
      Meets step (fun s e => ok s e ∧ p e) s es
  | [], _, _, _ => trivial
  | e :: es, s, h, hp => by
    refine ⟨⟨h.1, hp e List.mem_cons_self⟩, ?_⟩
    have hrest := h.2
    cases hs : step s e with
    | none => trivial
    | some t =>
      rw [hs] at hrest
      exact .and_events hrest fun e he => hp e (List.mem_cons_of_mem _ he)

/-- A run and what is known of it. -/
theorem exists_exec {P : σ → Prop} (h : exec step s es = some t)
    (hP : exec step s es = some t → P t) : ∃ t, exec step s es = some t ∧ P t :=
  ⟨t, h, hP h⟩

/-- **What every step keeps, every run keeps.** -/
theorem exec_invariant {I : σ → Prop} (hstep : ∀ {s e t}, I s → ok s e → step s e = some t → I t) :
    ∀ {es : List ε} {s t : σ}, I s → Meets step ok s es → exec step s es = some t → I t
  | [], s, t, hi, _, h => by
    cases h
    exact hi
  | e :: es, s, t, hi, hm, h => by
    obtain ⟨u, hu, hrest⟩ := exec_cons_eq_some h
    obtain ⟨hok, hmeets⟩ := hm.cons hu
    exact exec_invariant hstep (hstep hi hok hu) hmeets hrest

end Runs
