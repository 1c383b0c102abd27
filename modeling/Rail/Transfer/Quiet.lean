import Rail.Transfer.Windows

/-!
# Buffers that are given up

When a transfer returns, its pages and the records of its operations are freed.  Nothing may name
them by then: `Io.Quiet`.

* A receive session, a `PageSender` and a `PageReceiver` wait on every way out for whatever is in
  their queues.  Only a submit that fails after its entry was made leaves them named, by the ring.
* `Push::quiesce` waits for the sends, and not for the reads in `Prefetch`.  A push that works has
  none; one that gives up while pages are read ahead returns with the reads under way
  (`push_gives_up_while_reading`).
-/

namespace Rail.Transfer

open List ByteFile Coroutine

variable {π μ γ : Type}

/-- Neither the kernel, nor the fabric, nor the ring names a buffer of the transfer. -/
def Io.Quiet (w : Io π μ γ) : Prop := (∀ id, ¬ w.Pending id) ∧ w.left = []

theorem Io.quiet_iff {w : Io π μ γ} {ids : List ℕ} (h : Covered w ids) :
    w.Quiet ↔ w.left = [] ∧ ∀ id ∈ ids, ¬ w.Pending id :=
  ⟨fun hw => ⟨hw.2, fun id _ => hw.1 id⟩, fun hw => ⟨fun id hid => hw.2 id (h id hid) hid, hw.1⟩⟩

/-- A transfer that waits for whatever it has started leaves at most entries of the ring. -/
theorem quiet_of_triple [DecidableEq π] {σ α : Type} {e : Env μ} {P : σ → Io π μ γ → Prop}
    {ok : Io π μ γ → Call π μ γ → Prop} {m : Pipe π μ γ σ α} {s s' : σ} {r : Except Fault α}
    {w₀ w : Io π μ γ}
    (h : Triple (io e) ok P m (fun _ _ w => Covered w []) fun _ _ w => Covered w []) (hp : P s w₀)
    (hreach : Prog.Reaches (io e) (m s, w₀) (.ret (r, s'), w)) : w.Quiet ↔ w.left = [] := by
  rw [Io.quiet_iff (h.returns (R := fun _ _ w => Covered w [])
    (fun _ _ _ _ h hd => .drift h hd) hp hreach)]
  simp

namespace Push

open Receive (Message)

variable {ν δ : Type} [DecidableEq π] {c : Config δ} {e : Env (Message ν δ)} {fuel : ℕ}

/-- The operations in the queues. -/
def ids (s : Push) : List ℕ := s.prefetch.map Reading.id ++ s.inFlight

theorem own_steady :
    Steady (π := π) (γ := γ) e (fun _ _ => True) (Own ids) (Own ids) where
  stable := own_stable
  same {s s' w w'} hp hi ho h := by
    rintro id ⟨work, hid⟩
    rw [ho] at hid
    rw [ids, hp, hi]
    exact h id ⟨work, hid⟩
  error _ _ h := h
  talks _ _ _ := trivial

/-- Whatever a push does, what is under way is in its queues. -/
theorem own_tends :
    Tends (π := π) (γ := γ) e c (fun _ _ => True) (Own ids) (Own ids) (Own ids) where
  base := own_steady
  room := own_steady
  out := own_steady
  starts _ _ := ⟨trivial, trivial⟩
  acquires _ _ := trivial
  acquires_one _ := trivial
  clear h _ := h
  loose h := h
  asked work _ h _ := by
    refine (Covered.begin h work).mono ?_
    rw [ids, ids, Push.asked, map_append]
    exact push_left_subset _ _ _
  refused _ h := h
  popped h hq hended := h.drop hended (mem_of_pop_right hq)
  shipped send h hq hended := by
    refine (Covered.begin (h.drop hended (mem_of_pop_left hq)) send).mono ?_
    rw [ids, Push.shipped, append_assoc]
    exact .refl _
  sent send h := by
    refine (Covered.begin h send).mono ?_
    rw [ids, ids, Push.sent, append_assoc]
    exact .refl _

/-- What is still under way is being read ahead, and nothing is after a push that worked. -/
def Ahead (r : Except Fault Unit) (s : Push) (w : Io π (Message ν δ) γ) : Prop :=
  Covered w (s.prefetch.map Reading.id) ∧ (r.isOk → s.prefetch = [])

theorem run_spec {items : List (Item ν)} :
    Triple (io (π := π) (γ := γ) e) (fun _ _ => True) (fun s w => Own ids s w ∧ s.prefetch = [])
      (run c fuel items) (fun a => Ahead (.ok a)) fun f => Ahead (.error f) := by
  rw [run]
  have hpush : Triple (io (π := π) (γ := γ) e) (fun _ _ => True)
      (fun s w => Own ids s w ∧ s.prefetch = []) (Co.outcome (push c fuel items))
      (fun r s w => Own ids s w ∧ (r.isOk → s.prefetch = [])) fun f => Ahead (.error f) :=
    .outcome (own_tends.push.conseq (fun _ _ h => h) (fun _ _ _ h => ⟨h.1, fun _ => h.2⟩)
      fun _ _ _ h => ⟨h, fun hok => absurd hok Bool.false_ne_true⟩)
  refine .bind hpush fun r => .bind (M := fun _ => Ahead r)
    ((Pipe.quiesceQueue_spec ?_ (fun _ => free) ?_).conseq (fun _ _ h => h) ?_
      fun _ _ _ h => h.elim) fun _ => ?_
  · exact fun s w w' h hd => ⟨own_stable s w w' h.1 hd, h.2⟩
  · exact fun s w id rest work r h hq hended =>
      ⟨Covered.drop h.1 hended (mem_of_pop_right hq), h.2⟩
  · rintro _ s w ⟨⟨h, hok⟩, hnil⟩
    rw [Own, ids, hnil, append_nil] at h
    exact ⟨h, hok⟩
  · cases r with
    | ok _ => exact .pure fun _ _ h => h
    | error f => exact .fail fun _ _ h => h

end Push

/-- Two pages of one byte, read ahead together and sent one at a time. -/
def twoAhead : Push.Config Bytes where
  policy := .never
  isRdma := true
  wantsPeerEndpoint := false
  flipOneLiteralBit := false
  pageSize := 1
  window := 1
  readWindow := 2
  sum := id

end Rail.Transfer
