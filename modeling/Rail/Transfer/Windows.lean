import Rail.Transfer.Push
import Rail.Transfer.Replacing

/-!
# Waiting for a page

A pipeline that waits for a page of its pool is fed by its own queues: a page comes back when an
operation is taken off a queue, which the pipeline does itself.  If every page is in its queues when
it waits, it waits for ever.

`Feeds` says that this does not happen.  What it takes are bounds on the lengths of the queues,
whatever the world does; so `Sized` is about the object alone.

* A push and its receiver always leave a page (`push_and_receive_feed_themselves`).
* A `PageSender` or a `PageReceiver` with the geometry of `forChannel` does if the pool has two
  pages or more.  With a single page it waits for the page it holds (`streams_feed_themselves_iff`).
-/

namespace Rail.Transfer

open List ByteFile Coroutine

variable {π μ γ σ α β : Type}

/-- Fewer than all pages are in the queues of the one who waits for a page. -/
def Fewer (pages : ℕ) (_ : Io π μ γ) : Call π μ γ → Prop
  | .acquire held => held < pages
  | _ => True

variable {m : Pipe π μ γ σ α} {fuel keep left pages : ℕ} {f : Fault} {push : ℕ → σ → σ}
  {work : Work} {pop : σ → σ}

section Sized

variable [DecidableEq π] (e : Env μ) (pages : ℕ)

/-- Whatever the world does: from an object with `P` a return gives `Q`, and pages are waited for
only while there are some left. -/
def Sized (P : σ → Prop) (m : Pipe π μ γ σ α) (Q : α → σ → Prop) : Prop :=
  Triple (io e) (Fewer pages) (fun s _ => P s) m (fun a s _ => Q a s) fun _ _ _ => True

variable {e pages} {P : σ → Prop} {Q : α → σ → Prop}

namespace Sized

theorem conseq {P' : σ → Prop} {Q' : α → σ → Prop} (h : Sized e pages P m Q) (hP : ∀ s, P' s → P s)
    (hQ : ∀ a s, Q a s → Q' a s) : Sized e pages P' m Q' :=
  Triple.conseq h (fun s _ hs => hP s hs) (fun a s _ hs => hQ a s hs) fun _ _ _ _ => trivial

theorem pre {P' : σ → Prop} (h : Sized e pages P m Q) (hP : ∀ s, P' s → P s) :
    Sized e pages P' m Q :=
  h.conseq hP fun _ _ hs => hs

theorem pure {a : α} (h : ∀ s, P s → Q a s) : Sized (π := π) (γ := γ) e pages P (Co.pure a) Q :=
  Triple.pure fun s _ hs => h s hs

theorem fail : Sized (π := π) (γ := γ) e pages P (Co.fail f : Pipe π μ γ σ α) Q :=
  Triple.fail fun _ _ _ => trivial

theorem hang : Sized (π := π) (γ := γ) e pages P (Co.hang : Pipe π μ γ σ α) Q := Triple.hang

theorem modify {f : σ → σ} {Q : Unit → σ → Prop} (h : ∀ s, P s → Q () (f s)) :
    Sized (π := π) (γ := γ) e pages P (Co.modify f) Q :=
  Triple.modify fun s _ hs => h s hs

theorem bind {f : α → Pipe π μ γ σ β} {M : α → σ → Prop} {Q : β → σ → Prop}
    (hm : Sized e pages P m M) (hf : ∀ a, Sized e pages (M a) (f a) Q) :
    Sized e pages P (Co.bind m f) Q :=
  Triple.bind hm hf

theorem readThen {f : σ → Pipe π μ γ σ β} {Q : β → σ → Prop}
    (hf : ∀ s₀, Sized e pages (fun s => s = s₀ ∧ P s) (f s₀) Q) :
    Sized e pages P (Co.bind Co.read f) Q :=
  Triple.readThen hf

theorem ite {c : Prop} [Decidable c] {m' : Pipe π μ γ σ α} (hm : c → Sized e pages P m Q)
    (hm' : ¬ c → Sized e pages P m' Q) : Sized e pages P (if c then m else m') Q :=
  Triple.ite hm hm'

/-- Nothing else is asked under a condition, whatever the world is, and no answer changes the
object. -/
theorem ask {o : Call π μ γ} (ho : Fewer pages { files := fun _ => none } o) :
    Sized e pages P (Co.ask o) fun _ => P :=
  Triple.ask (fun _ _ _ h _ => h) (fun _ _ _ => ho) fun _ _ _ _ h _ => h

theorem orFail {m : Pipe π μ γ σ Bool} {Q : σ → Prop} (hm : Sized e pages P m fun _ => Q) :
    Sized e pages P (Pipe.orFail m f) fun _ => Q :=
  hm.bind fun _ => ite (fun _ => pure fun _ h => h) fun _ => fail

theorem acquire {held : σ → ℕ} (h : ∀ s, P s → held s < pages) :
    Sized (π := π) (γ := γ) e pages P (Pipe.acquire held) fun _ => P := by
  rw [Pipe.acquire]
  refine Triple.readThen fun s₀ => Triple.ask (fun _ _ _ h _ => h) ?_ fun _ _ _ _ h _ => h.2
  rintro s w ⟨rfl, hs⟩
  exact h s hs

theorem launch {Q : σ → Prop} (h : ∀ s id, P s → Q (push id s)) :
    Sized (π := π) (γ := γ) e pages P (Pipe.launch work push) fun _ => Q :=
  Pipe.launch_spec (fun _ _ _ h _ => h) free fun s _ hs => h s _ hs

theorem submit {Q : Bool → σ → Prop} (hrefused : ∀ s, P s → Q false s)
    (h : ∀ s id, P s → Q true (push id s)) :
    Sized (π := π) (γ := γ) e pages P (Pipe.submit work push) Q :=
  Pipe.submit_spec (fun _ _ _ h _ => h) free (fun s _ _ hs => hrefused s hs) fun s _ hs => h s _ hs

theorem drainTo {queue : σ → List ℕ} (hpop : ∀ s, P s → P (pop s)) :
    Sized (π := π) (γ := γ) e pages P (Pipe.drainTo queue pop f keep) fun _ s =>
    P s ∧ (queue s).length ≤ keep :=
  Pipe.drainTo_spec (fun _ _ _ h _ => h) (fun _ => free) (fun s _ _ _ _ _ hs _ _ => hpop s hs)
    fun _ _ _ _ _ _ _ _ => trivial

theorem loop {cond : σ → Bool} {body : Pipe π μ γ σ Unit}
    (hbody : Sized e pages (fun s => P s ∧ cond s = true) body fun _ => P) (n : ℕ) :
    Sized e pages P (Co.loop cond body n) fun _ s => P s ∧ cond s = false :=
  Triple.loop hbody n

theorem outcome (h : Sized e pages P m Q) : Sized e pages P (Co.outcome m) fun _ _ => True :=
  Triple.outcome (Triple.conseq h (fun _ _ h => h) (fun _ _ _ _ => trivial) fun _ _ _ h => h)

theorem quiesceQueue {queue : σ → List ℕ} :
    Sized (π := π) (γ := γ) e pages (fun _ => True) (Pipe.quiesceQueue queue pop) fun _ _ => True :=
  (Pipe.quiesceQueue_spec (P := fun _ _ => True) (fun _ _ _ _ _ => trivial) (fun _ => free)
    fun _ _ _ _ _ _ _ _ _ => trivial).conseq (fun _ _ h => h) (fun _ _ _ _ => trivial)
    fun _ _ _ _ => trivial

end Sized

end Sized

/-- Pages are waited for only while there are some left, whatever is in the queues before. -/
abbrev Leaves [DecidableEq π] (e : Env μ) (pages : ℕ) (m : Pipe π μ γ σ α) : Prop :=
  Sized e pages (fun _ => True) m fun _ _ => True

namespace Leaves

variable [DecidableEq π] {e : Env μ} {pages : ℕ}

theorem pure {a : α} : Leaves (π := π) (γ := γ) e pages (Co.pure a : Pipe π μ γ σ α) :=
  Sized.pure fun _ h => h

theorem modify {f : σ → σ} : Leaves (π := π) (γ := γ) e pages (Co.modify f) :=
  Sized.modify fun _ h => h

theorem after {f : α → Pipe π μ γ σ β} {M : α → σ → Prop} (hm : Sized e pages (fun _ => True) m M)
    (hf : ∀ a, Leaves e pages (f a)) : Leaves e pages (Co.bind m f) :=
  .bind hm fun a => (hf a).pre fun _ _ => trivial

theorem bind {f : α → Pipe π μ γ σ β} (hm : Leaves e pages m) (hf : ∀ a, Leaves e pages (f a)) :
    Leaves e pages (Co.bind m f) :=
  Sized.bind hm hf

theorem read {f : σ → Pipe π μ γ σ β} (hf : ∀ s, Leaves e pages (f s)) :
    Leaves e pages (Co.bind Co.read f) := Keeps.read hf

theorem ite {c : Prop} [Decidable c] {m' : Pipe π μ γ σ α} (hm : Leaves e pages m)
    (hm' : Leaves e pages m') : Leaves e pages (if c then m else m') :=
  Keeps.ite hm hm'

theorem launch : Leaves (π := π) (γ := γ) e pages (Pipe.launch work push) :=
  Sized.launch fun _ _ _ => trivial

theorem drainWith {ι : Type} {queue : σ → List ι} {num : ι → ℕ}
    {use : ι → Bytes → Pipe π μ γ σ Unit} (huse : ∀ a bytes, Leaves e pages (use a bytes)) :
    Sized e pages (fun _ => True) (Pipe.drainWith queue num pop f use keep) fun _ s =>
    (queue s).length ≤ keep :=
  (Pipe.drainWith_spec (P := fun _ _ => True) (M := fun _ _ _ _ => True) (E := fun _ _ _ => True)
    (fun _ _ _ h _ => h) (fun _ => free) (fun _ _ _ _ _ _ h _ _ => h)
    (fun _ _ _ _ _ _ _ _ => trivial) huse).conseq (fun _ _ h => h) (fun _ _ _ h => h.2)
    fun _ _ _ h => h

theorem submitOrFail : Leaves (π := π) (γ := γ) e pages (Pipe.orFail (Pipe.submit work push) f) :=
  Sized.orFail (Sized.submit (fun _ h => h) fun _ _ h => h)

end Leaves

/-- Whenever the pipeline waits for a page, fewer than all pages of the pool are in its own
queues. -/
def Feeds [DecidableEq π] (e : Env μ) (pages : ℕ) (m : Pipe π μ γ σ α) (s : σ) (w₀ : Io π μ γ) :
    Prop :=
  ∀ held k w, Prog.Reaches (io e) (m s, w₀) (.ask (.acquire held) k, w) → held < pages

theorem Sized.feeds [DecidableEq π] {e : Env μ} {P : σ → Prop} {Q : α → σ → Prop}
    (h : Sized e pages P m Q) {s : σ} (hs : P s) (w₀ : Io π μ γ) : Feeds e pages m s w₀ :=
  fun _ _ _ hreach => (h s w₀ hs).asks hreach

/-! ## Streams -/

section Streams

variable [DecidableEq π] {e : Env μ} {pages : ℕ} {c : Streaming}

namespace PageSender

variable {src : Source} {end_ : ℕ}

/-- Both queues are within their windows. -/
def Fits (c : Streaming) (s : PageSender) : Prop :=
  s.prefetch.length ≤ c.geometry.readAhead ∧ s.inFlight.length ≤ c.geometry.window

/-- And there is room for another send. -/
def Room (c : Streaming) (s : PageSender) : Prop :=
  Fits c s ∧ s.inFlight.length + 1 ≤ c.geometry.window

/-- Every part of the code keeps to the windows. -/
theorem fits_tends (hroom : c.geometry.readAhead + c.geometry.window ≤ pages)
    (hwindow : 1 ≤ c.geometry.window) :
    Tends e c src end_ (Fewer pages) (fun s (_ : Io π μ γ) => Fits c s) (fun _ _ => True)
    fun _ _ s _ => Room c s where
  stable _ _ _ h _ := h
  taken_stable _ _ _ _ _ h _ := h
  acquires h hlt := by
    have hsends := h.2
    rw [Fewer, held]
    omega
  submits _ _ := trivial
  awaits _ _ := trivial
  starts _ _ := trivial
  gives _ := trivial
  unsent h := h
  counts _ _ h := h
  put {s _ s' _} h hlt _ hputs := by
    have hone : s'.prefetch.length = s.prefetch.length + 1 ∧ s'.inFlight = s.inFlight := by
      cases hputs <;> exact ⟨by simp [push, pushFailed], rfl⟩
    refine ⟨?_, hone.2 ▸ h.2⟩
    rw [hone.1]
    exact hlt
  take h hkeep _ _ := by
    refine ⟨⟨?_, h.2⟩, Nat.add_le_of_le_sub hwindow hkeep⟩
    rw [popPrefetch, length_tail]
    exact (Nat.sub_le _ _).trans h.1
  ship h := ⟨h.1.1, by rw [handed, length_append]; exact h.2⟩
  sent h _ _ := ⟨h.1, by rw [popInFlight, length_tail]; exact (Nat.sub_le _ _).trans h.2⟩
  lost _ _ _ := trivial

theorem stream_sized (hroom : c.geometry.readAhead + c.geometry.window ≤ pages)
    (hwindow : 1 ≤ c.geometry.window) {offset length : ℕ} :
    Sized e pages (Fits c) (stream c src fuel offset length : Pipe π μ γ PageSender ℕ) fun _ _ =>
    True := by
  have hrun : Sized e pages (Fits c) (run c src fuel offset length : Pipe π μ γ PageSender ℕ)
    fun _ _ => True :=
    ((fits_tends hroom hwindow).run fuel).conseq (fun _ _ h => h) (fun _ _ _ _ => trivial)
      fun _ _ _ _ => trivial
  have hquiet : Leaves e pages (quiesce : Pipe π μ γ PageSender Unit) :=
    (quiesce_keeps (J := fun _ _ => True) (fun _ _ _ _ _ => trivial) (fun _ _ _ _ => trivial)
      (fun _ _ _ _ _ _ _ _ _ => trivial) fun _ _ _ _ _ _ _ =>
      trivial).conseq (fun _ _ h => h) (fun _ _ _ _ => trivial) fun _ _ _ _ => trivial
  rw [stream]
  refine .bind hrun.outcome fun r => .bind hquiet fun _ => ?_
  cases r with
  | ok n => exact Leaves.pure
  | error f => exact .fail

end PageSender

namespace PageReceiver

variable {sink : Sink} {end_ : ℕ}

theorem store_sized :
    Sized e pages (fun _ => True) (store c sink left : Pipe π μ γ PageReceiver Unit) fun _ s =>
    s.receiving.length ≤ left := by
  have hkeep : ∀ p bytes, Leaves e pages (keep c sink p bytes : Pipe π μ γ PageReceiver Unit) :=
    fun _ _ => .bind .modify fun _ => .ite .pure (.bind (.ask trivial) fun _ => .submitOrFail)
  rw [store]
  exact Leaves.drainWith hkeep

theorem runLoop_sized (hroom : c.geometry.window - 1 + c.geometry.writeDepth < pages)
    (fuel at_ : ℕ) :
    Leaves e pages (runLoop c sink end_ fuel at_ : Pipe π μ γ PageReceiver Unit) := by
  induction fuel generalizing at_ with
  | zero => exact .hang
  | succ fuel ih =>
    rw [runLoop]
    refine Leaves.ite (Sized.bind store_sized fun _ =>
      Sized.bind (Sized.drainTo fun _ h => h) fun _ => ?_) Leaves.pure
    refine Sized.ite (fun _ => Sized.pre (Leaves.bind Leaves.launch fun _ => ih _) fun _ _ =>
      trivial) fun _ => ?_
    refine Sized.bind (Sized.orFail (Sized.acquire ?_)) fun _ =>
      Sized.pre (Leaves.bind Leaves.launch fun _ => ih _) fun _ _ => trivial
    rintro s ⟨hposted, hwrites⟩
    have hwrites : s.writes.length ≤ c.geometry.writeDepth := hwrites
    rw [held]
    omega

theorem land_sized (hroom : c.geometry.window - 1 + c.geometry.writeDepth < pages)
    {offset length : ℕ} :
    Leaves e pages (land c sink fuel offset length : Pipe π μ γ PageReceiver ℕ) := by
  have hrun : Leaves e pages (run c sink fuel offset length : Pipe π μ γ PageReceiver ℕ) := by
    rw [run]
    exact .bind (runLoop_sized hroom _ _) fun _ => .after store_sized fun _ =>
      .after (.drainTo fun _ h => h) fun _ => .pure
  rw [land]
  refine .bind hrun.outcome fun r => .bind ?_ fun _ => ?_
  · rw [quiesce]
    exact .bind .quiesceQueue fun _ => .quiesceQueue
  · cases r with
    | ok n => exact .pure
    | error f => exact .fail

end PageReceiver

end Streams

/-! ## Pushes -/

namespace Push

open Receive (Message)

variable {ν δ : Type} [DecidableEq π] {c : Config δ} {e : Env (Message ν δ)} {pages : ℕ}

/-- Both queues are within their windows. -/
def Fits (c : Config δ) (s : Push) : Prop :=
  s.prefetch.length ≤ c.readWindow ∧ s.inFlight.length ≤ c.window

/-- And there is room for another send. -/
def Room (c : Config δ) (s : Push) : Prop := Fits c s ∧ s.inFlight.length + 1 ≤ c.window

theorem sized_steady {P : Push → Prop}
    (hP : ∀ s s' : Push, s'.prefetch = s.prefetch → s'.inFlight = s.inFlight → P s → P s') :
    Steady e (Fewer pages) (fun s (_ : Io π (Message ν δ) γ) => P s) fun _ _ => True where
  stable _ _ _ h _ := h
  same hp hi _ h := hP _ _ hp hi h
  error _ _ _ := trivial
  talks _ o ho := by cases o <;> trivial

/-- Every part of the code keeps to the windows. -/
theorem fits_tends (hroom : c.readWindow + c.window ≤ pages) (hwindow : 1 ≤ c.window) :
    Tends e c (Fewer pages) (fun s (_ : Io π (Message ν δ) γ) => Fits c s) (fun s _ => Room c s)
    fun _ _ => True where
  base := sized_steady fun s s' hp hi h => by rwa [Fits, hp, hi]
  room := sized_steady fun s s' hp hi h => by rwa [Room, Fits, hp, hi]
  out := sized_steady fun _ _ _ _ _ => trivial
  starts _ _ := ⟨trivial, trivial⟩
  acquires h hlt := by
    have hsends := h.2
    rw [Fewer, held]
    omega
  acquires_one h := by
    obtain ⟨⟨hreads, -⟩, hlt⟩ := h
    rw [Fewer, held]
    omega
  clear h hkeep := ⟨h, Nat.add_le_of_le_sub hwindow hkeep⟩
  loose h := h.1
  asked _ _ h hlt := ⟨by rw [asked, length_append]; exact hlt, h.2⟩
  refused _ _ := trivial
  popped h _ _ := ⟨h.1, by rw [popInFlight, length_tail]; exact (Nat.sub_le _ _).trans h.2⟩
  shipped _ h _ _ := by
    refine ⟨?_, by rw [shipped, length_append]; exact h.2⟩
    rw [shipped, length_tail]
    exact (Nat.sub_le _ _).trans h.1.1
  sent _ h := ⟨h.1.1, by rw [sent, length_append]; exact h.2⟩

theorem run_sized (hroom : c.readWindow + c.window ≤ pages) (hwindow : 1 ≤ c.window)
    {items : List (Item ν)} : Sized e pages (fun s => Fits c s ∧ s.prefetch = [])
      (run c fuel items : Pipe π (Message ν δ) γ Push Unit) fun _ _ => True := by
  rw [run]
  refine .bind (Sized.outcome (fits_tends hroom hwindow).push) fun r => .bind .quiesceQueue
    fun _ => ?_
  cases r with
  | ok _ => exact .pure fun _ _ => trivial
  | error f => exact .fail

/-- Both windows fit into the pool. -/
theorem windows_fit (o : SyncOptions) (bytes maxInFlight depth : ℕ) :
    readWindow (withGeometry o bytes) maxInFlight depth +
    window (withGeometry o bytes) maxInFlight ≤ (withGeometry o bytes).pageCount ∧
    1 ≤ window (withGeometry o bytes) maxInFlight := by
  have hpages : 2 ≤ (withGeometry o bytes).pageCount := le_max_left _ _
  simp only [readWindow, window]
  omega

end Push

/-! ## Receive sessions -/

namespace Receive

variable {ν δ : Type} [DecidableEq π] [DecidableEq δ] {c : Config π ν δ} {t : Target π}
  {e : Env (Message ν δ)} {pages : ℕ}

omit [DecidableEq δ] in
theorem storeReceived_sized :
    Sized e pages (fun _ => True) (storeReceived c t left) fun _ s => s.receiving.length ≤
    left := by
  have hkeep : ∀ p bytes, Leaves e pages (keep c t p bytes) :=
    fun _ _ => .bind .modify fun _ => .bind (.ask trivial) fun _ => .submitOrFail
  rw [storeReceived]
  exact Leaves.drainWith hkeep

omit [DecidableEq δ] in
/-- Both queues are drained. -/
theorem drained_sized {α : Type} {m : Pipe π (Message ν δ) (Note δ) Receive α}
    (hm : Leaves e pages m) : Leaves e pages (do storeReceived c t 0; awaitWrites 0; m) :=
  .after storeReceived_sized fun _ => .after (.drainTo fun _ h => h) fun _ => hm

omit [DecidableEq δ] in
/-- Room is made before a page is waited for. -/
theorem makeRoom_sized (hroom : c.recvWindow - 1 + c.writeWindow < pages)
    {m : Pipe π (Message ν δ) (Note δ) Receive Unit} (hm : Leaves e pages m) : Leaves e pages (do
        storeReceived c t (c.recvWindow - 1)
        awaitWrites c.writeWindow
        Pipe.orFail (Pipe.acquire held) f
        m) := by
  refine Sized.bind storeReceived_sized fun _ => Sized.bind (Sized.drainTo fun _ h => h) fun _ =>
    .bind (.orFail (.acquire ?_)) fun _ => hm.pre fun _ _ => trivial
  rintro s ⟨hposted, hwrites⟩
  have hwrites : s.writing.length ≤ c.writeWindow := hwrites
  rw [held]
  omega

theorem complete_sized {theirs : δ} : Leaves e pages (complete c t theirs) := by
  refine drained_sized (.read fun s₀ => .ite .fail ?_)
  have hcommit : Leaves e pages (commit t.path (note t s₀ theirs) t.size : Pipe π (Message ν δ)
    (Note δ) Receive Unit) :=
    .bind (.orFail (.ask trivial)) fun _ =>
      .bind (.orFail (.ask trivial)) fun _ => .orFail (.ask trivial)
  exact .bind hcommit fun _ => .orFail (.ask trivial)

section

variable (hroom : c.recvWindow - 1 + c.writeWindow < pages)
include hroom

theorem receiveStream_sized : Leaves e pages (receiveStream c t fuel) := by
  have hloop : ∀ fuel offset, Leaves e pages (streamLoop c t fuel offset) := by
    intro fuel
    induction fuel with
    | zero => exact fun _ => .hang
    | succ fuel ih =>
      intro offset
      rw [streamLoop]
      exact .ite (makeRoom_sized hroom (.bind .launch fun _ => ih _)) .pure
  rw [receiveStream]
  refine .bind (hloop fuel 0) fun _ => drained_sized (.bind (.ask trivial) fun m => ?_)
  cases m with
  | none => exact .fail
  | some m =>
    cases m with
    | done theirs => exact complete_sized
    | _ => exact .fail

theorem receiveDelta_sized (fuel : ℕ) : Leaves e pages (receiveDelta c t fuel) := by
  induction fuel with
  | zero => exact .hang
  | succ fuel ih =>
    rw [receiveDelta]
    refine .bind (.ask trivial) fun m => ?_
    cases m with
    | none => exact .fail
    | some m =>
    cases m with
    | literal offset length =>
      exact .bind (.ite .fail (makeRoom_sized hroom .launch)) fun _ => ih
    | copy block dst =>
      refine .bind (drained_sized (.read fun s₀ => .ite .fail ?_)) fun _ => ih
      refine .ite .fail (.bind (.ask trivial) fun got => ?_)
      cases got with
      | none => exact .fail
      | some bytes =>
        exact .ite .fail (.bind .modify fun _ => .bind (.orFail (.ask trivial)) fun _ => .modify)
    | done theirs => exact complete_sized
    | _ => exact .fail

theorem receiveFile_sized {h : FileHeader ν} {index tagBase : ℕ} :
    Leaves e pages (receiveFile c h index tagBase fuel) := by
  have hopen : Leaves e pages (openTarget c h index) := by
    rw [openTarget]
    refine .bind (.ask trivial) fun basis => .bind .modify fun _ =>
      .bind (.orFail (.ask trivial)) fun _ =>
        .ite .pure (.bind ?_ fun _ => .read fun s₀ => .orFail (.ask trivial))
    rw [sign]
    refine .ite ?_ .pure
    cases c.signature index with
    | none => exact .fail
    | some sig => exact .modify
  rw [receiveFile]
  refine .bind .modify fun _ => ?_
  cases c.resolve h.name with
  | none => exact .fail
  | some path =>
    exact .bind hopen fun _ => .ite (receiveStream_sized hroom) (receiveDelta_sized hroom _)

theorem serveLoop_sized (fuel index tagBase : ℕ) :
    Leaves e pages (serveLoop c fuel index tagBase) := by
  induction fuel generalizing index tagBase with
  | zero => exact .hang
  | succ fuel ih =>
    rw [serveLoop]
    refine .bind (.ask trivial) fun m => ?_
    cases m with
    | none => exact .fail
    | some m =>
    cases m with
    | end_ => exact .pure
    | fileHeader h =>
      refine .ite (.bind ?_ fun _ => ih _ _) (.ite (.bind ?_ fun _ => ih _ _)
        (.bind (receiveFile_sized hroom) fun _ => ih _ _))
      · rw [makeDirectory]
        cases c.resolve h.name with
        | none => exact .fail
        | some path => exact .orFail (.ask trivial)
      · rw [makeLink]
        cases c.resolve h.name with
        | none => exact .fail
        | some path => exact .ite .fail (.orFail (.ask trivial))
    | _ => exact .fail

theorem run_sized : Leaves e pages (run c fuel) := by
  have hserve : Leaves e pages (serve c fuel) :=
    .bind (.orFail (.ask trivial)) fun _ => serveLoop_sized hroom _ _ _
  have hquiesce : Leaves e pages (quiesce : Pipe π (Message ν δ) (Note δ) Receive Unit) :=
    .bind .quiesceQueue fun _ => .quiesceQueue
  rw [run]
  refine .bind hserve.outcome fun r => ?_
  cases r with
  | ok _ => exact hquiesce
  | error f => exact .bind (.ask trivial) fun _ => .bind hquiesce fun _ => .fail

end

/-- Both windows leave a page. -/
theorem windows_fit (pageCount windowPages : ℕ) :
    recvWindow pageCount windowPages - 1 + writeWindow pageCount windowPages <
    poolPages pageCount := by
  have hpos : 1 ≤ poolPages pageCount := by
    rw [poolPages]
    split_ifs
    · decide
    · omega
  rw [writeWindow]
  have hwindow : recvWindow pageCount windowPages ≤ max 1 (poolPages pageCount / 2) := by
    rw [recvWindow]
    omega
  split_ifs with h
  · omega
  · omega

end Receive

/-- **A push and a receive session always leave a page in the pool when they wait for one.**  The
push has the geometry that `withGeometry` makes of its options, the receiver the one it makes of any
Hello. -/
theorem push_and_receive_feed_themselves {ν δ : Type} [DecidableEq π] [DecidableEq δ]
    (files : π → Option Bytes) (e : Env (Receive.Message ν δ)) (fuel : ℕ) :
    (∀ (c : Push.Config δ) (o : Push.SyncOptions) (bytes maxInFlight depth : ℕ)
      (items : List (Push.Item ν)), Feeds (γ := γ) e (Push.withGeometry o bytes).pageCount (Push.run
          { c with
            pageSize := (Push.withGeometry o bytes).pageSize
            window := Push.window (Push.withGeometry o bytes) maxInFlight
            readWindow := Push.readWindow (Push.withGeometry o bytes) maxInFlight depth } fuel
              items) {} { files }) ∧
    ∀ (c : Receive.Config π ν δ) (pageCount windowPages : ℕ),
      Feeds e (Receive.poolPages pageCount)
        (Receive.run
          { c with
            recvWindow := Receive.recvWindow pageCount windowPages
            writeWindow := Receive.writeWindow pageCount windowPages } fuel) {} { files } := by
  refine ⟨fun c o bytes maxInFlight depth items => ?_, fun c pageCount windowPages => ?_⟩
  · obtain ⟨hroom, hwindow⟩ := Push.windows_fit o bytes maxInFlight depth
    exact Sized.feeds (Push.run_sized hroom hwindow) ⟨⟨Nat.zero_le _, Nat.zero_le _⟩, rfl⟩ _
  · exact Sized.feeds (Receive.run_sized (Receive.windows_fit pageCount windowPages)) trivial _

section Geometry

open Client (Geometry)

theorem forChannel_room (hpages : 2 ≤ pages) (inFlight depth : ℕ) :
    (Geometry.forChannel pages inFlight depth).readAhead +
    (Geometry.forChannel pages inFlight depth).window ≤ pages ∧
    1 ≤ (Geometry.forChannel pages inFlight depth).window ∧
    (Geometry.forChannel pages inFlight depth).window - 1 +
    (Geometry.forChannel pages inFlight depth).writeDepth < pages := by
  simp only [Geometry.forChannel]
  split_ifs
  · omega
  · omega

theorem forChannel_single (hpages : pages ≤ 1) (inFlight depth : ℕ) :
    Geometry.forChannel pages inFlight depth = ⟨1, 1, 1⟩ := by
  have hwindow : max 1 (min (min (pages / 2) (pages - 1)) inFlight) = 1 := by omega
  have hahead : max 1 (min 1 depth) = 1 := by omega
  simp only [Geometry.forChannel, hwindow, if_neg (show ¬ pages > 1 + 1 by omega), hahead]
  rfl

/-- Every stream of pages that is sent or lands with the geometry of a pool feeds itself, whatever
the other ends do. -/
def StreamsFeed (pages inFlight depth : ℕ) : Prop :=
  ∀ (π μ γ : Type) [DecidableEq π] (files : π → Option Bytes) (e : Env μ)
    (pageSize tagBase fuel offset length : ℕ),
    (∀ (src : Source) (flip : Bool), Feeds (γ := γ) e pages
      (PageSender.stream ⟨pageSize, Geometry.forChannel pages inFlight depth, tagBase⟩ src fuel
      offset length) { flipOneBit := flip } { files }) ∧
    ∀ sink : Sink, Feeds (γ := γ) e pages
      (PageReceiver.land ⟨pageSize, Geometry.forChannel pages inFlight depth, tagBase⟩ sink fuel
      offset length) {} { files, temp := some [] }

/-- Nothing is assumed of the other ends. -/
def anyPeer : Env μ := {}

instance : (anyPeer : Env μ).Checked where
  reads _ _ _ := .isTrue trivial
  brings _ _ _ := .isTrue trivial
  basis _ _ _ := .isTrue trivial
  hears _ := .isTrue trivial

/-- With one page the sender waits for a second one while the first is being sent. -/
theorem single_page_sent :
    ∃ k w, Prog.Reaches (io (π := Unit) (γ := Unit) (anyPeer : Env Unit))
      (PageSender.stream ⟨1, ⟨1, 1, 1⟩, 0⟩ {} 2 0 2 {}, { files := fun _ => none })
      (.ask (.acquire 1) k, w) := by
  refine exists_of_waits [.yes, .yes, .ends 0 (.done [7]), .yes, .yes] ?_
  decide +kernel

/-- With one page the receiver waits for a second one while the first is being written. -/
theorem single_page_lands :
    ∃ k w, Prog.Reaches (io (π := Unit) (γ := Unit) (anyPeer : Env Unit))
      (PageReceiver.land ⟨1, ⟨1, 1, 1⟩, 0⟩ {} 2 0 2 {}, { files := fun _ => none, temp := some [] })
      (.ask (.acquire 1) k, w) := by
  refine exists_of_waits [.yes, .yes, .ends 0 (.done [7]), .yes, .reply (.gives (some [])), .yes] ?_
  decide +kernel

/-- **Streams feed themselves exactly if the pool has two pages.** -/
theorem streams_feed_themselves_iff (pages inFlight depth : ℕ) :
    StreamsFeed pages inFlight depth ↔ 2 ≤ pages := by
  refine ⟨fun h => ?_, fun hpages π μ γ _ files e pageSize tagBase fuel offset length => ?_⟩
  · by_contra hfew
    obtain ⟨k, w, hreach⟩ := single_page_sent
    have hsingle := forChannel_single (show pages ≤ 1 by omega) inFlight depth
    have hsends := (h Unit Unit Unit (fun _ => none) anyPeer 1 0 2 0 2).1 {} false
    rw [hsingle] at hsends
    have := hsends 1 k w hreach
    omega
  · obtain ⟨hroom, hwindow, hland⟩ := forChannel_room hpages inFlight depth
    refine ⟨fun src flip => ?_, fun sink => ?_⟩
    · exact Sized.feeds (PageSender.stream_sized hroom hwindow) ⟨Nat.zero_le _, Nat.zero_le _⟩ _
    · exact Sized.feeds (PageReceiver.land_sized hland) trivial _

/-- **With a single page both pipelines wait for the page they hold.** -/
theorem single_page_starves : ¬ StreamsFeed 1 16 64 := by
  intro h
  obtain ⟨k, w, hreach⟩ := single_page_lands
  have hlands := (h Unit Unit Unit (fun _ => none) anyPeer 1 0 2 0 2).2 {}
  exact absurd (hlands 1 k w hreach) (Nat.lt_irrefl 1)

end Geometry

end Rail.Transfer
