import Rail.Transfer.Io

/-!
# Runs that can be computed

A schedule says what happens next: an operation ends, or a question is answered.  `follow` carries a
coroutine through a schedule, checking every move against what the world allows; so what it finds is
a run (`follow_reaches`).
-/

namespace Rail.Transfer

open Option Coroutine

/-- An answer: it works or it does not, or what is read or heard. -/
inductive Reply (μ : Type) where
  | worked (ok : Bool)
  | gives (bytes : Option Bytes)
  | heard (m : Option μ)
  deriving DecidableEq

/-- One move of the world. -/
inductive Move (μ : Type) where
  /-- An operation ends; a failed write leaves `torn`. -/
  | ends (id : ℕ) (r : Outcome) (torn : Bytes := [])
  | reply (a : Reply μ)
  deriving DecidableEq

/-- It works. -/
def Move.yes {μ : Type} : Move μ := .reply (.worked true)

/-- It does not. -/
def Move.no {μ : Type} : Move μ := .reply (.worked false)

/-- What is assumed of the other ends can be checked. -/
class Env.Checked {μ : Type} (e : Env μ) where
  reads : ∀ offset length bytes, Decidable (e.reads offset length bytes)
  brings : ∀ key length bytes, Decidable (e.brings key length bytes)
  basis : ∀ offset length bytes, Decidable (e.basis offset length bytes)
  hears : ∀ m, Decidable (e.hears m)

attribute [reducible, instance] Env.Checked.reads Env.Checked.brings Env.Checked.basis
  Env.Checked.hears

variable {π μ γ α : Type} [DecidableEq π] (e : Env μ) [e.Checked]

/-- The world once an operation has ended so. -/
def ended (w : Io π μ γ) (id : ℕ) (r : Outcome) (torn : Bytes) : Option (Io π μ γ) :=
  match w.ops[id]? with
  | some ⟨work, none⟩ =>
    match work, r with
    | .read offset length, .done bytes =>
        if e.reads offset length bytes then some (w.finish id work r) else none
    | .recv key length, .done bytes =>
        if e.brings key length bytes then some (w.finish id work r) else none
    | .send _ _, .done [] => some (w.finish id work r)
    | .write offset bytes, .done [] => some ((w.finish id work r).land offset bytes)
    | .write offset bytes, .failed =>
      if torn.length ≤ bytes.length then some ((w.finish id work r).land offset torn) else none
    | .read _ _, .failed => some (w.finish id work r)
    | .recv _ _, .failed => some (w.finish id work r)
    | .send _ _, .failed => some (w.finish id work r)
    | _, _ => none
  | _ => none

/-- The answer to a question, and the world after it. -/
def answered (w : Io π μ γ) : (c : Call π μ γ) → Reply μ → Option (Answer c × Io π μ γ)
  | .acquire _, .worked ok => some (ok, w)
  | .start work, .worked _ => some (w.ops.length, w.begin_ work)
  | .submit _, .worked false => some (none, w)
  | .submit work, .worked true => some (some w.ops.length, w.begin_ work)
  | .await id, .worked _ =>
    match w.ops[id]? with
    | some ⟨_, some r⟩ => some (r, w)
    | _ => none
  | .slack length, .gives (some bytes) =>
      if List.length bytes = length then some (bytes, w) else none
  | .tell m, .worked ok => some (ok, if ok then { w with told := w.told ++ [m] } else w)
  | .hear, .heard none => some (none, w)
  | .hear, .heard (some m) => if e.hears m then some (some m, w) else none
  | .open_, .worked ok => some (ok, w)
  | .consult _ _, .gives none => some (none, w)
  | .consult offset length, .gives (some bytes) =>
      if e.basis offset length bytes then some (some bytes, w) else none
  | .create, .worked ok => some (ok, if ok then { w with temp := some [] } else w)
  | .put offset bytes, .worked true => some (true, w.land offset bytes)
  | .put offset _, .worked false => some (false, w.land offset [])
  | .truncate size, .worked ok =>
    some (ok, if ok then { w with temp := w.temp.map fun t => ByteFile.truncate t size } else w)
  | .attributes, .worked ok => some (ok, w)
  | .rename path note, .worked true => w.temp.map fun t => (true, w.renamed path t note)
  | .rename _ _, .worked false => some (false, w)
  | .link path, .worked true => some (true, w.unlinked path)
  | .link _, .worked false => some (false, w)
  | .remove, .worked _ => some ((), { w with temp := none })
  | .close, .worked _ => some ((), w)
  | _, _ => none

/-- Carry a coroutine through a schedule. -/
def follow : List (Move μ) → Prog (Call π μ γ) Answer α → Io π μ γ →
    Option (Prog (Call π μ γ) Answer α × Io π μ γ)
  | [], p, w => some (p, w)
  | .ends id r torn :: ms, p, w => (ended e w id r torn).bind fun w' => follow ms p w'
  | .reply a :: ms, .ask o k, w => (answered e w o a).bind fun x => follow ms (k x.1) x.2
  | .reply _ :: _, _, _ => none

variable (ms : List (Move μ)) (p : Prog (Call π μ γ) Answer α)

/-- The schedule leads to a return that passes a check. -/
def leads (w : Io π μ γ) (check : α → Io π μ γ → Bool) : Bool :=
  match follow e ms p w with
  | some (.ret a, w') => check a w'
  | _ => false

/-- The schedule leads to a wait for a page, with so many in the queues. -/
def waits (w : Io π μ γ) : Option ℕ :=
  match follow e ms p w with
  | some (.ask (.acquire held) _, _) => some held
  | _ => none

variable {e} {w w' : Io π μ γ}

omit [DecidableEq π] in
theorem ended_drift {id : ℕ} {r : Outcome} {torn : Bytes} (h : ended e w id r torn = some w') :
    drift e w w' := by
  rw [ended] at h
  split at h
  · rename_i work hid
    refine ⟨id, work, r, hid, ?_⟩
    split at h
    · obtain ⟨hreads, ⟨⟩⟩ := ite_none_right_eq_some.mp h
      exact .read hreads
    · obtain ⟨hbrings, ⟨⟩⟩ := ite_none_right_eq_some.mp h
      exact .recv hbrings
    · cases h
      exact .send
    · cases h
      exact .write
    · obtain ⟨htorn, ⟨⟩⟩ := ite_none_right_eq_some.mp h
      exact .failedWrite htorn
    · cases h
      exact .failedRead
    · cases h
      exact .failedRecv
    · cases h
      exact .failedSend
    · cases h
  · cases h

theorem answered_perform {c : Call π μ γ} {r : Reply μ} {a : Answer c}
    (h : answered e w c r = some (a, w')) : perform e w c a w' := by
  unfold answered at h
  split at h
  -- in the order of the equations of `answered`
  · cases h
    exact rfl
  · cases h
    exact ⟨rfl, rfl⟩
  · cases h
    exact .inl ⟨rfl, .inl rfl⟩
  · cases h
    exact .inr ⟨rfl, rfl⟩
  · split at h
    · rename_i hid
      cases h
      exact ⟨⟨_, hid⟩, rfl⟩
    · cases h
  · obtain ⟨hlen, ⟨⟩⟩ := ite_none_right_eq_some.mp h
    exact ⟨hlen, rfl⟩
  · cases h
    exact rfl
  · cases h
    exact ⟨fun _ hv => (by cases hv), rfl⟩
  · obtain ⟨hhears, ⟨⟩⟩ := ite_none_right_eq_some.mp h
    refine ⟨?_, rfl⟩
    rintro v ⟨⟩
    exact hhears
  · cases h
    exact rfl
  · cases h
    exact ⟨fun _ hb => (by cases hb), rfl⟩
  · obtain ⟨hbasis, ⟨⟩⟩ := ite_none_right_eq_some.mp h
    refine ⟨?_, rfl⟩
    rintro b ⟨⟩
    exact hbasis
  · cases h
    exact rfl
  · cases h
    exact .inl ⟨rfl, rfl⟩
  · cases h
    exact .inr ⟨rfl, [], Nat.zero_le _, rfl⟩
  · cases h
    exact rfl
  · cases h
    exact rfl
  · obtain ⟨t, ht, ⟨⟩⟩ := map_eq_some_iff.mp h
    exact .inr ⟨rfl, t, ht, rfl⟩
  · cases h
    exact .inl ⟨rfl, rfl⟩
  · cases h
    exact .inr rfl
  · cases h
    exact .inl ⟨rfl, rfl⟩
  · cases h
    exact rfl
  · cases h
    exact rfl
  · cases h

variable {p : Prog (Call π μ γ) Answer α}

theorem follow_reaches {ms : List (Move μ)} {q : Prog (Call π μ γ) Answer α}
    (h : follow e ms p w = some (q, w')) : Prog.Reaches (io e) (p, w) (q, w') := by
  induction ms generalizing p w with
  | nil =>
    cases h
    exact .refl
  | cons m ms ih =>
    cases m with
    | ends id r torn =>
      obtain ⟨w₁, hended, hrest⟩ := bind_eq_some_iff.mp h
      exact .drift (ended_drift hended) (ih hrest)
    | reply a =>
      cases p with
      | ret r | hang => cases h
      | ask o k =>
        obtain ⟨x, hanswered, hrest⟩ := bind_eq_some_iff.mp h
        exact .ask x.1 x.2 (answered_perform hanswered) (ih hrest)

/-- **A schedule that leads somewhere is a run.** -/
theorem exists_of_leads {ms : List (Move μ)} {check : α → Io π μ γ → Bool}
    (h : leads e ms p w check = true) :
    ∃ a w', Prog.Reaches (io e) (p, w) (.ret a, w') ∧ check a w' = true := by
  rw [leads] at h
  split at h
  · rename_i a w' hfollow
    exact ⟨a, w', follow_reaches hfollow, h⟩
  · cases h

theorem exists_of_waits {held : ℕ} (h : waits e ms p w = some held) :
    ∃ k w', Prog.Reaches (io e) (p, w) (.ask (.acquire held) k, w') := by
  rw [waits] at h
  split at h
  · rename_i n k w' hfollow
    cases h
    exact ⟨k, w', follow_reaches hfollow⟩
  · cases h

end Rail.Transfer
