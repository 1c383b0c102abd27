import Rail.Foundation.Runs
import Mathlib.Logic.Relation

/-!
# Two parties over two queues

One party leads: it goes on by itself and sends, or it waits for a message (`Move`).  The other
answers: it takes messages one by one, each with its answers, and between messages it may have work
of its own (`idle`).  Two queues lie between them, so either may be far behind the other.

For what the parties say to each other the delays do not matter.  If the answering party took every
message at once (`meet`), the run would be one sequence of states; a state of the delayed system is
one of them, seen before the messages under way have been taken (`Views`).  So when the run without
delays completes, no delayed run comes to a message that is refused, and none gets stuck
(`Views.step`, `views_of_exec`, `Views.progress`).
-/

namespace Duplex

open List Option Relation

/-- What the leading party does next. -/
inductive Move (σ μ ν : Type*) where
  /-- It goes on, having sent some messages. -/
  | act (next : σ) (sent : List μ)
  /-- It waits for a message, which it may refuse. -/
  | await (take : ν → Option σ)
  | halt

/-- The two parties.  `settle` is where the answering party's own work ends. -/
structure Parties (σ ρ μ ν : Type*) where
  move : σ → Move σ μ ν
  idle : ρ → Option ρ
  settle : ρ → ρ
  react : ρ → μ → Option (ρ × List ν)
  settle_of_idle : ∀ {r r' : ρ}, idle r = some r' → settle r' = settle r
  settle_of_rest : ∀ {r : ρ}, idle r = none → settle r = r
  idle_settle : ∀ r : ρ, idle (settle r) = none

/-- The parties and what is under way between them, oldest first. -/
structure State (σ ρ μ ν : Type*) where
  lead : σ
  peer : ρ
  out : List μ := []
  back : List ν := []

inductive Event where
  | lead
  | peer
  deriving DecidableEq

/-- A state without delays: what was sent has been taken, and the answers wait. -/
structure Meeting (σ ρ ν : Type*) where
  lead : σ
  peer : ρ
  back : List ν

variable {σ ρ μ ν : Type*} (P : Parties σ ρ μ ν)

namespace Parties

/-- Whoever is named makes its next step. -/
def step (s : State σ ρ μ ν) : Event → Option (State σ ρ μ ν)
  | .lead =>
    match P.move s.lead with
    | .act next sent => some { s with lead := next, out := s.out ++ sent }
    | .await take =>
      match s.back with
      | [] => none
      | m :: rest => (take m).map fun next => { s with lead := next, back := rest }
    | .halt => none
  | .peer =>
    match P.idle s.peer with
    | some r => some { s with peer := r }
    | none =>
      match s.out with
      | [] => none
      | m :: rest =>
          (P.react s.peer m).map fun a => { s with peer := a.1, out := rest, back := s.back ++ a.2 }

/-- The answering party takes the messages one after the other, and then does what work it has. -/
def absorb : ρ → List μ → Option (ρ × List ν)
  | r, [] => some (P.settle r, [])
  | r, m :: ms =>
      (P.react (P.settle r) m).bind fun a => (absorb a.1 ms).map fun b => (b.1, a.2 ++ b.2)

/-- One step without delays. -/
def meet (x : Meeting σ ρ ν) : Option (Meeting σ ρ ν) :=
  match P.move x.lead with
  | .act next sent => (P.absorb x.peer sent).map fun a => ⟨next, a.1, x.back ++ a.2⟩
  | .await take =>
    match x.back with
    | [] => none
    | m :: rest => (take m).map fun next => ⟨next, x.peer, rest⟩
  | .halt => none

/-- A run without delays. -/
def Leads : Meeting σ ρ ν → Meeting σ ρ ν → Prop := ReflTransGen fun x y => P.meet x = some y

/-- The run without delays comes to an end, where `F` holds. -/
def Completes (F : Meeting σ ρ ν → Prop) (x : Meeting σ ρ ν) : Prop :=
  ∃ y, P.Leads x y ∧ P.move y.lead = .halt ∧ F y

/-- Without delays the state would be `x`. -/
def Views (s : State σ ρ μ ν) (x : Meeting σ ρ ν) : Prop :=
  s.lead = x.lead ∧ ∃ answers, P.absorb s.peer s.out = some (x.peer, answers) ∧
    x.back = s.back ++ answers

variable {P}

/-! ## Taking messages -/

theorem settle_settle (r : ρ) : P.settle (P.settle r) = P.settle r :=
  P.settle_of_rest (P.idle_settle r)

variable {x y : Meeting σ ρ ν} {F : Meeting σ ρ ν → Prop} {r r' : ρ} {s : State σ ρ μ ν}
  {answers b : List ν} {p : σ} {m : μ}

theorem absorb_congr (h : P.settle r' = P.settle r) (ms : List μ) :
    P.absorb r' ms = P.absorb r ms := by
  cases ms with
  | nil | cons m ms => rw [absorb, absorb, h]

theorem absorb_append (ns : List μ) :
    ∀ (ms : List μ) (r : ρ), P.absorb r (ms ++ ns) =
      (P.absorb r ms).bind fun a => (P.absorb a.1 ns).map fun b => (b.1, a.2 ++ b.2)
  | [], r => by
    rw [nil_append, absorb, bind_some, absorb_congr (settle_settle r)]
    exact Option.map_id'.symm
  | m :: ms, r => by
    rw [cons_append, absorb, absorb]
    cases P.react (P.settle r) m with
    | none => rfl
    | some a =>
      rw [bind_some, bind_some, absorb_append ns ms a.1]
      cases P.absorb a.1 ms with
      | none => rfl
      | some b =>
        rw [map_some, bind_some, bind_some]
        dsimp only
        rw [Option.map_map]
        refine congrArg (fun f => Option.map f (P.absorb b.1 ns)) (funext fun c => ?_)
        exact congrArg (Prod.mk c.1) (append_assoc ..).symm

theorem absorb_singleton (h : P.react (P.settle r) m = some (r', answers)) :
    P.absorb r [m] = some (P.settle r', answers) := by
  rw [absorb, h, bind_some, absorb, map_some, append_nil]

/-! ## Runs without delays -/

theorem Leads.act {next : σ} {sent : List μ} (hmove : P.move p = .act next sent)
    (habs : P.absorb r sent = some (r', answers)) : P.Leads ⟨p, r, b⟩ ⟨next, r', b ++ answers⟩ := by
  refine .single ?_
  rw [meet, hmove]
  dsimp only
  rw [habs, map_some]

theorem Leads.silent {next : σ} (hmove : P.move p = .act next []) (hr : P.settle r = r) :
    P.Leads ⟨p, r, b⟩ ⟨next, r, b⟩ := by
  have h := Leads.act (b := b) hmove (show P.absorb r [] = some (r, []) by rw [absorb, hr])
  rwa [append_nil] at h

theorem Leads.say {next : σ} (hmove : P.move p = .act next [m]) (hr : P.settle r = r)
    (hreact : P.react r m = some (r', answers)) :
    P.Leads ⟨p, r, b⟩ ⟨next, P.settle r', b ++ answers⟩ :=
  .act hmove (absorb_singleton (by rw [hr, hreact]))

theorem Leads.hear {next : σ} {take : ν → Option σ} {m : ν} (hmove : P.move p = .await take)
    (htake : take m = some next) : P.Leads ⟨p, r, m :: b⟩ ⟨next, r, b⟩ := by
  refine .single ?_
  rw [meet, hmove]
  dsimp only
  rw [htake, map_some]

theorem Leads.trans {z : Meeting σ ρ ν} (hxy : P.Leads x y) (hyz : P.Leads y z) : P.Leads x z :=
  ReflTransGen.trans hxy hyz

theorem Leads.refl (x : Meeting σ ρ ν) : P.Leads x x := ReflTransGen.refl

theorem Completes.of_leads (hxy : P.Leads x y) (h : P.Completes F y) : P.Completes F x :=
  h.imp fun _ hz => ⟨hxy.trans hz.1, hz.2⟩

theorem Completes.cases (h : P.Completes F x) :
    (P.move x.lead = .halt ∧ F x) ∨ ∃ y, P.meet x = some y ∧ P.Completes F y := by
  obtain ⟨z, hz, hhalt, hF⟩ := h
  rcases hz.cases_head with rfl | ⟨y, hy, hrest⟩
  · exact .inl ⟨hhalt, hF⟩
  · exact .inr ⟨y, hy, z, hrest, hhalt, hF⟩

theorem Completes.next (h : P.Completes F x) (hy : P.meet x = some y) : P.Completes F y := by
  rcases h.cases with ⟨hhalt, -⟩ | ⟨z, hz, hc⟩
  · rw [meet, hhalt] at hy
    cases hy
  · rwa [mem_unique hy hz]

theorem Completes.exists_meet (h : P.Completes F x) (hmove : P.move x.lead ≠ .halt) :
    ∃ y, P.meet x = some y := by
  rcases h.cases with ⟨hhalt, -⟩ | ⟨y, hy, -⟩
  · exact absurd hhalt hmove
  · exact ⟨y, hy⟩

/-- What a step can only extend is, at every point, below what it is at the end. -/
theorem Completes.exists_final (le : Meeting σ ρ ν → Meeting σ ρ ν → Prop) (hrefl : ∀ x, le x x)
    (htrans : ∀ {x y z}, le x y → le y z → le x z) (hmeet : ∀ {x y}, P.meet x = some y → le x y)
    (h : P.Completes F x) : ∃ y, le x y ∧ F y := by
  obtain ⟨y, hy, -, hF⟩ := h
  refine ⟨y, ?_, hF⟩
  clear hF
  induction hy with
  | refl => exact hrefl x
  | tail _ hlast ih => exact htrans ih (hmeet hlast)

/-! ## Delays -/

/-- **A delayed step is a step without delays, or none.** -/
theorem Views.step {t : State σ ρ μ ν} {e : Event} (hv : P.Views s x) (hc : P.Completes F x)
    (h : P.step s e = some t) : ∃ y, P.Views t y ∧ P.Completes F y := by
  obtain ⟨hlead, answers, habs, hback⟩ := hv
  cases e with
  | lead =>
    rw [Parties.step] at h
    cases hmove : P.move s.lead with
    | halt =>
      rw [hmove] at h
      cases h
    | act next sent =>
      rw [hmove] at h
      cases h
      have hx : P.move x.lead = .act next sent := hlead ▸ hmove
      obtain ⟨y, hy⟩ := hc.exists_meet (by rw [hx]; exact fun h => by cases h)
      have hcy := hc.next hy
      rw [meet, hx] at hy
      obtain ⟨a, ha, rfl⟩ := map_eq_some_iff.mp hy
      refine ⟨_, ⟨rfl, answers ++ a.2, ?_, ?_⟩, hcy⟩
      · rw [absorb_append, habs, bind_some]
        dsimp only
        rw [ha, map_some]
      · rw [hback, append_assoc]
    | await take =>
      rw [hmove] at h
      cases hb : s.back with
      | nil =>
        simp only [hb] at h
        cases h
      | cons m rest =>
        simp only [hb] at h
        obtain ⟨next, hnext, rfl⟩ := map_eq_some_iff.mp h
        have hx : P.move x.lead = .await take := hlead ▸ hmove
        have hxback : x.back = m :: (rest ++ answers) := by rw [hback, hb, cons_append]
        have hy : P.meet x = some ⟨next, x.peer, rest ++ answers⟩ := by
          rw [meet, hx]
          dsimp only
          rw [hxback]
          dsimp only
          rw [hnext, map_some]
        exact ⟨⟨next, x.peer, rest ++ answers⟩, ⟨rfl, answers, habs, rfl⟩, hc.next hy⟩
  | peer =>
    rw [Parties.step] at h
    cases hidle : P.idle s.peer with
    | some r =>
      rw [hidle] at h
      cases h
      exact ⟨x, ⟨hlead, answers, by rw [absorb_congr (P.settle_of_idle hidle), habs], hback⟩, hc⟩
    | none =>
      rw [hidle] at h
      cases ho : s.out with
      | nil =>
        simp only [ho] at h
        cases h
      | cons m rest =>
        simp only [ho] at h
        obtain ⟨a, ha, rfl⟩ := map_eq_some_iff.mp h
        rw [ho, absorb, P.settle_of_rest hidle, ha, bind_some] at habs
        obtain ⟨b, hb, heq⟩ := map_eq_some_iff.mp habs
        obtain ⟨hpeer, rfl⟩ := Prod.mk.inj heq
        refine ⟨x, ⟨hlead, b.2, ?_, ?_⟩, hc⟩
        · rw [← hpeer]
          exact hb
        · rw [hback, append_assoc]

/-- **What holds without delays holds with them**, in every run. -/
theorem views_of_exec {t : State σ ρ μ ν} {es : List Event}
    (hinit : ∃ x, P.Views s x ∧ P.Completes F x) (hrun : Runs.exec P.step s es = some t) :
    ∃ x, P.Views t x ∧ P.Completes F x :=
  Runs.exec_invariant (I := fun s => ∃ x, P.Views s x ∧ P.Completes F x)
    (fun hs _ ht => hs.elim fun _ hx => hx.1.step hx.2 ht) hinit (Runs.meets_true es s) hrun

/-- The answering party does not refuse what is under way to it. -/
theorem Views.react_ne_none (hv : P.Views s x) {rest : List μ} (hout : s.out = m :: rest)
    (hidle : P.idle s.peer = none) : P.react s.peer m ≠ none := by
  obtain ⟨-, answers, habs, -⟩ := hv
  rw [hout, absorb, P.settle_of_rest hidle] at habs
  obtain ⟨a, ha, -⟩ := bind_eq_some_iff.mp habs
  rw [ha]
  exact some_ne_none a

/-- A leading party that waits will be answered, and does not refuse the answer. -/
theorem Views.awaited (hv : P.Views s x) (hc : P.Completes F x) {take : ν → Option σ}
    (hmove : P.move s.lead = .await take) : ∃ m rest, x.back = m :: rest ∧ take m ≠ none := by
  have hx : P.move x.lead = .await take := hv.1 ▸ hmove
  obtain ⟨y, hy⟩ := hc.exists_meet (by rw [hx]; exact fun h => by cases h)
  rw [meet, hx] at hy
  cases hb : x.back with
  | nil =>
    simp only [hb] at hy
    cases hy
  | cons m rest =>
    simp only [hb] at hy
    obtain ⟨next, hnext, -⟩ := map_eq_some_iff.mp hy
    exact ⟨m, rest, rfl, by rw [hnext]; exact some_ne_none next⟩

/-- With a message under way the answering party has a step. -/
theorem Views.exists_peer_step (hv : P.Views s x) (hout : s.out ≠ []) :
    ∃ t, P.step s .peer = some t := by
  obtain ⟨m, rest, ho⟩ := exists_cons_of_ne_nil hout
  rw [Parties.step]
  cases hidle : P.idle s.peer with
  | some r => exact ⟨_, rfl⟩
  | none =>
    obtain ⟨a, ha⟩ := ne_none_iff_exists'.mp (hv.react_ne_none ho hidle)
    rw [ho]
    dsimp only
    rw [ha]
    exact ⟨_, rfl⟩

/-- **No deadlock**: unless the leading party is done and everything it sent has been taken, someone
has a step. -/
theorem Views.progress (hv : P.Views s x) (hc : P.Completes F x) :
    (P.move s.lead = .halt ∧ s.out = []) ∨ ∃ e t, P.step s e = some t := by
  by_cases hout : s.out = []
  · cases hmove : P.move s.lead with
    | halt => exact .inl ⟨rfl, hout⟩
    | act next sent =>
      refine .inr ⟨.lead, { s with lead := next, out := s.out ++ sent }, ?_⟩
      rw [Parties.step]
      rw [hmove]
    | await take =>
      obtain ⟨m, rest, hback, htake⟩ := hv.awaited hc hmove
      obtain ⟨-, answers, habs, heq⟩ := hv
      rw [hout, absorb] at habs
      obtain ⟨-, rfl⟩ := Prod.mk.inj (some.inj habs)
      rw [append_nil, hback] at heq
      obtain ⟨next, hnext⟩ := ne_none_iff_exists'.mp htake
      refine .inr ⟨.lead, { s with lead := next, back := rest }, ?_⟩
      rw [Parties.step]
      rw [hmove, ← heq]
      dsimp only
      rw [hnext, map_some]
  · obtain ⟨t, ht⟩ := hv.exists_peer_step hout
    exact .inr ⟨.peer, t, ht⟩

end Parties

end Duplex
