import Mathlib.Data.Nat.Notation
import Mathlib.Logic.Relation

/-!
# Coroutines and the world they wait for

A coroutine asks something of its world, is suspended until there is an answer, and goes on with it
(`Prog`).  While it is suspended the world moves by itself: operations that it started come to an
end (`drift`).  `Reaches` follows both.

* `Prog.Ensures`: what holds when the coroutine returns, whatever the answers and however the world
  moves meanwhile, with a condition on the world wherever something is asked (`ok`).
  `Prog.Ensures.reaches` says that it is sound: the condition holds at every question of every run,
  and the conclusion at every return.
* `Co`: coroutines that work on an object and may leave early with an error, keeping what they did
  to the object.
* `Triple`: pre- and postconditions for `Co`, one for a return and one for an error, with a rule for
  each way to put coroutines together.  A precondition of a question has to be one that the world's
  own moves keep.
-/

namespace Coroutine

open Relation

/-- What a coroutine does next: return, ask and go on with the answer, or never go on. -/
inductive Prog (ω : Type) (ans : ω → Type) (α : Type) where
  | ret (a : α)
  | ask (o : ω) (k : ans o → Prog ω ans α)
  | hang

/-- How a world answers, and how it moves by itself. -/
structure World (ω : Type) (ans : ω → Type) (W : Type) where
  perform : W → (o : ω) → ans o → W → Prop
  drift : W → W → Prop

variable {ω : Type} {ans : ω → Type} {W α β : Type}

variable {w w' : W} {a : α}

namespace Prog

def bind : Prog ω ans α → (α → Prog ω ans β) → Prog ω ans β
  | .ret a, f => f a
  | .ask o k, f => .ask o fun a => (k a).bind f
  | .hang, _ => .hang

/-- One step of a coroutine in its world. -/
inductive Step (V : World ω ans W) : Prog ω ans α × W → Prog ω ans α × W → Prop
  | drift {p : Prog ω ans α} {w w' : W} : V.drift w w' → Step V (p, w) (p, w')
  | ask {o : ω} {k : ans o → Prog ω ans α} {a : ans o} {w w' : W} :
      V.perform w o a w' → Step V (.ask o k, w) (k a, w')

/-- Any number of steps. -/
def Reaches (V : World ω ans W) : Prog ω ans α × W → Prog ω ans α × W → Prop :=
  ReflTransGen (Step V)

variable {p q : Prog ω ans α}

theorem Reaches.drift {V : World ω ans W} {x : Prog ω ans α × W} (h : V.drift w w')
    (rest : Reaches V (p, w') x) : Reaches V (p, w) x :=
  .head (.drift h) rest

theorem Reaches.ask {V : World ω ans W} {o : ω} {k : ans o → Prog ω ans α} {w : W}
    {x : Prog ω ans α × W} (a : ans o) (w' : W) (h : V.perform w o a w')
    (rest : Reaches V (k a, w') x) : Reaches V (.ask o k, w) x :=
  .head (.ask h) rest

/-- Whenever the coroutine asks, `ok` holds; whenever it returns, `Q` does. -/
def Ensures (V : World ω ans W) (ok : W → ω → Prop) (Q : α → W → Prop) : Prog ω ans α → W → Prop
  | .ret a, w => Q a w
  | .ask o k, w =>
    ∀ w₁, ReflTransGen V.drift w w₁ → ok w₁ o ∧ ∀ a w₂, V.perform w₁ o a w₂ →
      Ensures V ok Q (k a) w₂
  | .hang, _ => True

variable {V : World ω ans W} {ok : W → ω → Prop} {Q : α → W → Prop}

theorem Ensures.mono {Q' : α → W → Prop} (hQ : ∀ a w, Q a w → Q' a w) (h : p.Ensures V ok Q w) :
    p.Ensures V ok Q' w := by
  induction p generalizing w with
  | ret a => exact hQ a w h
  | hang => trivial
  | ask o k ih =>
    intro w₁ hdrift
    obtain ⟨hok, hnext⟩ := h w₁ hdrift
    exact ⟨hok, fun a w₂ hw₂ => ih a (hnext a w₂ hw₂)⟩

theorem Ensures.bind {R : β → W → Prop} {f : α → Prog ω ans β}
    (hf : ∀ a w, Q a w → (f a).Ensures V ok R w) {w : W} (h : p.Ensures V ok Q w) :
    (p.bind f).Ensures V ok R w := by
  induction p generalizing w with
  | ret a => exact hf a w h
  | hang => trivial
  | ask o k ih =>
    intro w₁ hdrift
    obtain ⟨hok, hnext⟩ := h w₁ hdrift
    exact ⟨hok, fun a w₂ hw₂ => ih a (hnext a w₂ hw₂)⟩

/-- Where the coroutine is, up to what the world has done since it last moved. -/
theorem Ensures.step (h : ∃ w₀, ReflTransGen V.drift w₀ w ∧ p.Ensures V ok Q w₀)
    (hstep : Step V (p, w) (q, w')) : ∃ w₀, ReflTransGen V.drift w₀ w' ∧ q.Ensures V ok Q w₀ := by
  obtain ⟨w₀, hdrift, hp⟩ := h
  cases hstep with
  | drift hmove => exact ⟨w₀, hdrift.tail hmove, hp⟩
  | ask hperform => exact ⟨w', .refl, (hp w hdrift).2 _ w' hperform⟩

/-- What the world's own moves keep, and what each answer keeps where `ok` held. -/
theorem Ensures.along {I : W → Prop} (hdrift : ∀ w w', I w → V.drift w w' → I w')
    (hperform : ∀ w o a w', I w → ok w o → V.perform w o a w' → I w') (h : p.Ensures V ok Q w)
    (hI : I w) (hreach : Reaches V (p, w) (q, w')) :
    I w' ∧ ∃ w₀, ReflTransGen V.drift w₀ w' ∧ q.Ensures V ok Q w₀ := by
  have key : ∀ {x y}, Reaches V x y → I x.2 →
      (∃ w₀, ReflTransGen V.drift w₀ x.2 ∧ x.1.Ensures V ok Q w₀) →
        I y.2 ∧ ∃ w₀, ReflTransGen V.drift w₀ y.2 ∧ y.1.Ensures V ok Q w₀ := by
    intro x y hxy hIx hx
    induction hxy with
    | refl => exact ⟨hIx, hx⟩
    | tail _ hlast ih =>
      refine ⟨?_, Ensures.step ih.2 hlast⟩
      cases hlast with
      | drift hmove => exact hdrift _ _ ih.1 hmove
      | ask hanswer =>
        obtain ⟨hIy, w₀, hdrifts, hy⟩ := ih
        exact hperform _ _ _ _ hIy (hy _ hdrifts).1 hanswer
  exact key hreach hI ⟨w, .refl, h⟩

theorem Ensures.reach (h : p.Ensures V ok Q w) (hreach : Reaches V (p, w) (q, w')) :
    ∃ w₀, ReflTransGen V.drift w₀ w' ∧ q.Ensures V ok Q w₀ :=
  (h.along (I := fun _ => True) (fun _ _ _ _ => trivial) (fun _ _ _ _ _ _ _ => trivial) trivial
    hreach).2

/-- **Every return of every run**, up to what the world has done since. -/
theorem Ensures.returns (h : p.Ensures V ok Q w) (hreach : Reaches V (p, w) (.ret a, w')) :
    ∃ w₀, ReflTransGen V.drift w₀ w' ∧ Q a w₀ :=
  h.reach hreach

/-- **Every question of every run.** -/
theorem Ensures.asks {o : ω} {k : ans o → Prog ω ans α} (h : p.Ensures V ok Q w)
    (hreach : Reaches V (p, w) (.ask o k, w')) : ok w' o := by
  obtain ⟨w₀, hdrift, hq⟩ := h.reach hreach
  exact (hq w' hdrift).1

/-- **Every state of every run** has what the world's own moves keep, and what each answer keeps
where `ok` held. -/
theorem Ensures.always {I : W → Prop} (hdrift : ∀ w w', I w → V.drift w w' → I w')
    (hperform : ∀ w o a w', I w → ok w o → V.perform w o a w' → I w') (h : p.Ensures V ok Q w)
    (hI : I w) (hreach : Reaches V (p, w) (q, w')) : I w' :=
  (h.along hdrift hperform hI hreach).1

end Prog

/-- A coroutine that works on an object and may leave with an error. -/
def Co (ω : Type) (ans : ω → Type) (σ ε α : Type) : Type := σ → Prog ω ans (Except ε α × σ)

namespace Co

variable {σ ε : Type}

def pure (a : α) : Co ω ans σ ε α := fun s => .ret (.ok a, s)

def bind (m : Co ω ans σ ε α) (f : α → Co ω ans σ ε β) : Co ω ans σ ε β := fun s =>
  (m s).bind fun r =>
    match r.1 with
    | .ok a => f a r.2
    | .error e => .ret (.error e, r.2)

instance : Monad (Co ω ans σ ε) where
  pure := Co.pure
  bind := Co.bind

/-- Leave with an error. -/
def fail (e : ε) : Co ω ans σ ε α := fun s => .ret (.error e, s)

def ask (o : ω) : Co ω ans σ ε (ans o) := fun s => .ask o fun a => .ret (.ok a, s)

def read : Co ω ans σ ε σ := fun s => .ret (.ok s, s)

def modify (f : σ → σ) : Co ω ans σ ε Unit := fun s => .ret (.ok (), f s)

/-- Never go on. -/
def hang : Co ω ans σ ε α := fun _ => .hang

/-- The outcome as a value, so that an error does not end the caller. -/
def outcome (m : Co ω ans σ ε α) : Co ω ans σ ε (Except ε α) :=
  fun s => (m s).bind fun r => .ret (.ok r.1, r.2)

/-- `while (cond) body`, for at most so many passes. -/
def loop (cond : σ → Bool) (body : Co ω ans σ ε Unit) : ℕ → Co ω ans σ ε Unit
  | 0 => hang
  | n + 1 => fun s => if cond s then (body.bind fun _ => loop cond body n) s else .ret (.ok (), s)

end Co

/-! ## Triples -/

section Triple

variable {σ ε : Type} (V : World ω ans W) (ok : W → ω → Prop)

/-- From `P`, a return gives `Q` and an error gives `E`; and `ok` holds wherever something is
asked. -/
def Triple (P : σ → W → Prop) (m : Co ω ans σ ε α) (Q : α → σ → W → Prop) (E : ε → σ → W → Prop) :
    Prop :=
  ∀ s w, P s w → (m s).Ensures V ok
    (fun r w' => match r.1 with
      | .ok a => Q a r.2 w'
      | .error e => E e r.2 w') w

/-- What the world's own moves keep. -/
def Stable (P : σ → W → Prop) : Prop := ∀ s w w', P s w → V.drift w w' → P s w'

variable {V ok} {P : σ → W → Prop} {Q : α → σ → W → Prop} {E : ε → σ → W → Prop}

theorem Stable.drifts (hP : Stable V P) {s : σ} (h : P s w) (hdrift : ReflTransGen V.drift w w') :
    P s w' := by
  induction hdrift with
  | refl => exact h
  | tail _ hlast ih => exact hP s _ _ ih hlast

variable {m : Co ω ans σ ε α}

theorem Triple.conseq {P' : σ → W → Prop} {Q' : α → σ → W → Prop} {E' : ε → σ → W → Prop}
    (h : Triple V ok P m Q E) (hP : ∀ s w, P' s w → P s w) (hQ : ∀ a s w, Q a s w → Q' a s w)
    (hE : ∀ e s w, E e s w → E' e s w) : Triple V ok P' m Q' E' := by
  intro s w hp
  refine (h s w (hP s w hp)).mono ?_
  rintro ⟨r, s'⟩ w' hr
  cases r with
  | ok a => exact hQ a s' w' hr
  | error e => exact hE e s' w' hr

theorem Triple.pre {P' : σ → W → Prop} (h : Triple V ok P m Q E)
    (hP : ∀ s w, P' s w → P s w) : Triple V ok P' m Q E :=
  h.conseq hP (fun _ _ _ h => h) fun _ _ _ h => h

theorem Triple.exists {ι : Type} {P : ι → σ → W → Prop} (h : ∀ i, Triple V ok (P i) m Q E) :
    Triple V ok (fun s w => ∃ i, P i s w) m Q E := by
  rintro s w ⟨i, hi⟩
  exact h i s w hi

theorem Triple.fact {c : Prop} (h : c → Triple V ok P m Q E) :
    Triple V ok (fun s w => c ∧ P s w) m Q E :=
  fun s w hp => h hp.1 s w hp.2

/-- What a precondition says whatever the object and the world are may be used for the triple
itself. -/
theorem Triple.given {c : Prop} (hc : ∀ s w, P s w → c) (h : c → Triple V ok P m Q E) :
    Triple V ok P m Q E :=
  fun s w hp => h (hc s w hp) s w hp

theorem Triple.pure (h : ∀ s w, P s w → Q a s w) : Triple V ok P (Co.pure a) Q E := h

theorem Triple.fail {e : ε} (h : ∀ s w, P s w → E e s w) :
    Triple V ok P (Co.fail e : Co ω ans σ ε α) Q E := h

theorem Triple.modify {f : σ → σ} {Q : Unit → σ → W → Prop} (h : ∀ s w, P s w → Q () (f s) w) :
    Triple V ok P (Co.modify f) Q E := h

theorem Triple.hang : Triple V ok P (Co.hang : Co ω ans σ ε α) Q E := fun _ _ _ => trivial

theorem Triple.bind {f : α → Co ω ans σ ε β} {M : α → σ → W → Prop} {Q : β → σ → W → Prop}
    (hm : Triple V ok P m M E) (hf : ∀ a, Triple V ok (M a) (f a) Q E) :
    Triple V ok P (Co.bind m f) Q E := by
  intro s w hp
  refine .bind ?_ (hm s w hp)
  rintro ⟨r, s'⟩ w' hr
  cases r with
  | ok a => exact hf a s' w' hr
  | error e => exact hr

/-- What comes next may depend on the object as it is. -/
theorem Triple.readThen {f : σ → Co ω ans σ ε β} {Q : β → σ → W → Prop}
    (hf : ∀ s₀, Triple V ok (fun s w => s = s₀ ∧ P s w) (f s₀) Q E) :
    Triple V ok P (Co.bind Co.read f) Q E :=
  fun s w h => hf s s w ⟨rfl, h⟩

/-- The world as it is may be spoken of from here on. -/
theorem Triple.now (h : ∀ w₀, Triple V ok (fun s w => w = w₀ ∧ P s w) m Q E) :
    Triple V ok P m Q E :=
  fun s w hp => h w s w ⟨rfl, hp⟩

/-- What is allowed anyway. -/
theorem free {P : σ → W → Prop} (s : σ) (w : W) (_ : P s w) : True := trivial

theorem Triple.ask {o : ω} {Q : ans o → σ → W → Prop} (hP : Stable V P)
    (hok : ∀ s w, P s w → ok w o) (h : ∀ s w a w', P s w → V.perform w o a w' → Q a s w') :
    Triple V ok P (Co.ask o) Q E := by
  intro s w hp w₁ hdrift
  have hp₁ := hP.drifts hp hdrift
  exact ⟨hok s w₁ hp₁, fun a w₂ hperform => h s w₁ a w₂ hp₁ hperform⟩

theorem Triple.outcome {R : Except ε α → σ → W → Prop}
    (h : Triple V ok P m (fun a => R (.ok a)) fun e => R (.error e)) :
    Triple V ok P (Co.outcome m) R E := by
  intro s w hp
  refine .bind ?_ (h s w hp)
  rintro ⟨r, s'⟩ w' hr
  cases r with
  | ok a => exact hr
  | error e => exact hr

theorem Triple.ite {c : Prop} [Decidable c] {m' : Co ω ans σ ε α} (hm : c → Triple V ok P m Q E)
    (hm' : ¬ c → Triple V ok P m' Q E) : Triple V ok P (if c then m else m') Q E := by
  by_cases h : c
  · rw [if_pos h]
    exact hm h
  · rw [if_neg h]
    exact hm' h

/-- **Every return of every run** has what the world's own moves keep. -/
theorem Triple.returns {R : Except ε α → σ → W → Prop}
    (h : Triple V ok P m (fun a => R (.ok a)) fun e => R (.error e)) (hR : ∀ r, Stable V (R r))
    {s s' : σ} {r : Except ε α} (hp : P s w)
    (hreach : Prog.Reaches V (m s, w) (.ret (r, s'), w')) : R r s' w' := by
  obtain ⟨w₀, hdrift, hr⟩ := (h s w hp).returns hreach
  cases r with
  | ok _ | error _ => exact (hR _).drifts hr hdrift

/-- What a pass keeps, the loop keeps. -/
theorem Triple.loop {cond : σ → Bool} {body : Co ω ans σ ε Unit} {I : σ → W → Prop}
    (hbody : Triple V ok (fun s w => I s w ∧ cond s = true) body (fun _ => I) E) (n : ℕ) :
    Triple V ok I (Co.loop cond body n) (fun _ s w => I s w ∧ cond s = false) E := by
  induction n with
  | zero => exact .hang
  | succ n ih =>
    intro s w hI
    by_cases hc : cond s = true
    · rw [Co.loop]
      dsimp only
      rw [if_pos hc]
      exact Triple.bind hbody (fun _ => ih) s w ⟨hI, hc⟩
    · rw [Co.loop]
      dsimp only
      rw [if_neg hc]
      exact ⟨hI, Bool.eq_false_iff.mpr hc⟩

end Triple

/-! ## What a coroutine keeps -/

section Keeps

variable {σ ε : Type} (V : World ω ans W) (ok : W → ω → Prop) (I E : σ → W → Prop)

/-- From `I`, a return gives `I` again and an error gives `E`. -/
def Keeps (m : Co ω ans σ ε α) : Prop := Triple V ok I m (fun _ => I) fun _ => E

variable {V ok I E}

namespace Keeps

theorem pure : Keeps V ok I E (Co.pure a : Co ω ans σ ε α) := Triple.pure fun _ _ h => h

theorem fail (hE : ∀ s w, I s w → E s w) {e : ε} : Keeps V ok I E (Co.fail e : Co ω ans σ ε α) :=
  Triple.fail hE

theorem hang : Keeps V ok I E (Co.hang : Co ω ans σ ε α) := Triple.hang

theorem bind {m : Co ω ans σ ε α} {f : α → Co ω ans σ ε β} (hm : Keeps V ok I E m)
    (hf : ∀ a, Keeps V ok I E (f a)) : Keeps V ok I E (Co.bind m f) :=
  Triple.bind hm hf

theorem read {f : σ → Co ω ans σ ε β} (hf : ∀ s, Keeps V ok I E (f s)) :
    Keeps V ok I E (Co.bind Co.read f) :=
  .readThen fun s₀ => .pre (hf s₀) fun _ _ h => h.2

theorem ite {p : Prop} [Decidable p] {m m' : Co ω ans σ ε α} (hm : Keeps V ok I E m)
    (hm' : Keeps V ok I E m') : Keeps V ok I E (if p then m else m') :=
  Triple.ite (fun _ => hm) fun _ => hm'

theorem modify {f : σ → σ} (h : ∀ s w, I s w → I (f s) w) :
    Keeps V ok I E (Co.modify f : Co ω ans σ ε Unit) :=
  Triple.modify h

theorem loop {cond : σ → Bool} {body : Co ω ans σ ε Unit} (h : Keeps V ok I E body) (n : ℕ) :
    Keeps V ok I E (Co.loop cond body n) :=
  (Triple.loop (Triple.pre h fun _ _ h => h.1) n).conseq (fun _ _ h => h) (fun _ _ _ h =>
    h.1) fun _ _ _ h => h

end Keeps

end Keeps

end Coroutine
