import Rail.Fuse.Landing
import Rail.Foundation.Overlay

/-!
# The open files of one path

`src/fuse/mount.cc`: `doOpen`, `doRelease`, `doSetAttr` and `flushPath`, with
`Files::nextPendingOn` of `src/fuse/files.cc`, over any number of handles of the write side.

Requests come one at a time, each when the one before it has been answered; what a write
has left behind, a detached `drainPending`, goes on meanwhile.  The peer file is compared
with the plain file on which the answered requests were carried out in turn (`log`).

Every handle keeps a window of its own.  A write through one handle does not send what
another one holds back, and an open with `O_TRUNC` cuts the peer file without sending
anything, where `doSetAttr` flushes the path first.  So the order of two requests is lost
where they touch bytes that are still held back (`release_reverses_writes`).  Where none
do, the peer file is the plain file once every handle is released
(`released_file_in_order`).
-/

namespace Rail.Fuse

open List Option Function ByteFile

/-- What a request does to a plain file. -/
inductive Op where
  | write (off : ℕ) (data : List UInt8)
  | truncate (size : ℕ)
  deriving DecidableEq

def Op.apply (file : List UInt8) : Op → List UInt8
  | .write off data => pwrite file off data
  | .truncate size => ByteFile.truncate file size

/-- The request being served, on which handle and by which coroutine. -/
inductive Request where
  | write (n : ℕ) (w : Write)
  | flush (n t : ℕ)
  | release (n t : ℕ)
  /-- `doSetAttr` in the `flushPath` that goes before the truncation. -/
  | setAttr (size n t : ℕ)
  deriving DecidableEq

/-- The handle the request waits on. -/
def Request.handle : Request → ℕ
  | .write n _ | .flush n _ | .release n _ | .setAttr _ n _ => n

/-- The number of the coroutine it waits for. -/
def Request.task : Request → ℕ
  | .write _ w => w.id
  | .flush _ t | .release _ t | .setAttr _ _ t => t

namespace Handle

/-- `InFlightOps == 0`: no coroutine is suspended on the file. -/
def idle (h : Handle) : Bool := (List.range h.books.next).all fun t => (h.frames t).isNone

/-- What `flushPending` returned to the `flushPath` numbered `t`, when it has. -/
def pathResult (h : Handle) (t : ℕ) : Option Bool :=
  if (h.frames t).isSome then none else some (decide (Reply.pathFlushed t false ∉ h.books.replies))

end Handle

/-- The open files of a path, the file of the peer behind them, and the requests answered
so far. -/
structure Shared where
  handles : ℕ → Option Handle := fun _ => none
  /-- `Files::Next`. -/
  next : ℕ := 1
  /-- The handles that have not been released; the others are `Doomed`. -/
  opened : List ℕ := []
  current : Option Request := none
  peer : List UInt8
  log : List Op := []

/-- What happens next: a request, or something that a suspended coroutine waits for. -/
inductive Action where
  | openFile (page : ℕ) (writable trunc : Bool)
  | write (n off : ℕ) (data : List UInt8)
  | flush (n : ℕ) (sync : Bool)
  | release (n : ℕ)
  | setAttr (size : ℕ)
  | goOn (n : ℕ) (e : Event)
  deriving DecidableEq

/-- No answer of the peer is a failure. -/
def Action.succeeds : Action → Bool
  | .goOn _ e => e.succeeds
  | _ => true

namespace Shared

variable (s : Shared)

/-- A handle has gone on, and has put something on the peer. -/
def put (n : ℕ) (r : Handle × List (ℕ × List UInt8)) : Shared :=
  { s with handles := Function.update s.handles n (some r.1), peer := pwriteAll s.peer r.2 }

/-- The request being served changes. -/
def serving (r : Option Request) : Shared := { s with current := r }

/-- A request has been answered. -/
def record (op : Op) : Shared := { s with log := s.log ++ [op] }

/-- `FileClient::truncate`. -/
def truncateTo (size : ℕ) : Shared := { s with peer := truncate s.peer size }

/-- `Files::open`. -/
def addFile (h : Handle) : Shared :=
  { s with
    handles := Function.update s.handles s.next (some h)
    opened := s.next :: s.opened
    next := s.next + 1 }

/-- `Doomed = true`. -/
def doom (n : ℕ) : Shared := { s with opened := s.opened.filter (· ≠ n) }

/-- `PendingLen != 0 || Flushing`. -/
def holds (n : ℕ) : Bool :=
  match s.handles n with
  | some h => decide (h.file.pending.bytes ≠ []) || h.file.flushing
  | none => false

/-- `Files::nextPendingOn`. -/
def nextPendingOn (after : ℕ) : Option ℕ :=
  (List.range s.next).find? fun n => decide (after < n) && s.holds n

/-- `flushPath` from the handle `after` on, up to its next suspension, and the truncation
where it returns.  The first argument bounds the rounds: each takes a larger handle. -/
def flushPath (o : Options) (size : ℕ) : ℕ → ℕ → Shared → Shared
  | 0, _, s => s
  | fuel + 1, after, s =>
    match s.nextPendingOn after with
    | none => ((s.truncateTo size).record (.truncate size)).serving none
    | some n =>
      match s.handles n with
      | none => flushPath o size fuel n s
      | some h =>
        let h' := h.number.callFlush o h.books.next .path
        match h'.pathResult h.books.next with
        | none => (s.put n (h', [])).serving (some (.setAttr size n h.books.next))
        | some true => flushPath o size fuel n (s.put n (h', []))
        | some false => (s.put n (h', [])).serving none

/-- The request being served goes on when its coroutine has returned. -/
def answer (o : Options) (s : Shared) : Shared :=
  match s.current with
  | none => s
  | some r =>
    match s.handles r.handle with
    | none => s
    | some h =>
      if (h.frames r.task).isSome then s
      else
        match r with
        | .write _ w =>
          if w ∈ h.books.acked then (s.record (.write w.off w.data)).serving none
          else s.serving none
        | .flush _ _ | .release _ _ => s.serving none
        | .setAttr size n t =>
          if h.pathResult t = some true then flushPath o size s.next n s
          else s.serving none

/-- `~InUse`: a file that is `Doomed` is closed when nothing is suspended on it. -/
def sweep : Shared :=
  { s with
    handles := fun n => (s.handles n).filter fun h => decide (n ∈ s.opened) || !h.idle }

/-- A request on a handle arrives. -/
def request (o : Options) (s : Shared) (n : ℕ) (e : Event) (r : ℕ → Request) : Option Shared :=
  (s.handles n).bind fun h => (h.step o e).map fun q =>
    sweep (answer o ((s.put n q).serving (some (r h.books.next))))

/-- One step of the mount, as far as the path is concerned. -/
def step (o : Options) (s : Shared) : Action → Option Shared
  | .openFile page writable trunc =>
    if s.current.isSome then none
    else
      let s := if writable && trunc then (s.truncateTo 0).record (.truncate 0) else s
      some (s.addFile { file := { page, writable } })
  | .write n off data =>
    if s.current.isSome ∨ n ∉ s.opened then none
    else s.request o n (.write off data) fun t => .write n ⟨t, off, data⟩
  | .flush n sync =>
    if s.current.isSome ∨ n ∉ s.opened then none
    else s.request o n (.flush sync) (.flush n)
  | .release n =>
    if s.current.isSome ∨ n ∉ s.opened then none
    else (s.doom n).request o n .path (.release n)
  | .setAttr size =>
    if s.current.isSome then none else some (s.flushPath o size s.next 0).sweep
  | .goOn n e =>
    (s.handles n).bind fun h =>
      if (h.frameOf e).isSome then
        (h.step o e).map fun q => sweep (answer o (s.put n q))
      else none

end Shared

/-! ## What a handle holds back -/

variable {i t : ℕ} {c : Caller}

namespace Handle

variable {o : Options} {h : Handle} {w : Write} {e : Event} {peer : List UInt8}
  {sent : List (ℕ × List UInt8)}
  {r : Handle × List (ℕ × List UInt8)}

/-- The two windows, as writes to the file of the peer. -/
def windows (h : Handle) : List (ℕ × List UInt8) :=
  [(h.books.drainBase, h.file.draining.bytes), (h.file.writeBase, h.file.pending.bytes)]

theorem covered_windows : Covered h.windows i ↔ h.Covers i := by
  constructor
  · rintro ⟨p, hp, hi⟩
    rcases mem_cons.mp hp with rfl | hp
    · exact .inl hi
    · obtain rfl := mem_singleton.mp hp
      exact .inr hi
  · rintro (hi | hi)
    · exact ⟨_, mem_cons_self, hi⟩
    · exact ⟨_, mem_cons_of_mem _ (mem_singleton_self _), hi⟩

theorem Settled.windows (hset : Settled h) (hs : Sound h) : ∀ p ∈ h.windows, p.2 = [] :=
  forall_mem_cons.mpr ⟨(hs.idle hset.2).1, forall_mem_singleton.mpr hset.1⟩

/-- What one keeps track of for each handle. -/
structure Fit (h : Handle) (peer : List UInt8) : Prop where
  kept : ∃ sent, Kept sent none h
  clean : Clean h
  inFlight : InFlight h peer

theorem Fit.opened (page : ℕ) (writable : Bool) (peer : List UInt8) :
    Fit { file := { page, writable } } peer where
  kept := ⟨[], .opened page writable⟩
  clean := ⟨rfl, nofun, Nat.zero_le _, Nat.zero_le _⟩
  inFlight _ _ _ _ _ hf := absurd hf (by simp)

theorem puts_nothing (hr : some (h, []) = some r) : ¬ Covered r.2 i := by
  rw [← some.inj hr]
  exact not_covered_of_empty (by simp)

/-- What `flushOnce` puts on the peer is part of the window it has taken. -/
theorem flushStep_puts {length : ℕ} {stage : Stage}
    (hr : h.flushStep o t c h.books.drainBase length stage e = some r) (hi : Covered r.2 i) :
    h.Covers i := by
  -- a put is a part of a slice of the window, or nothing at all
  have hpart : ∀ {g} {k n} {d}, d.length ≤ (slice h.file.draining.bytes k n).length →
      some (g, [(h.books.drainBase + k, d)]) = some r → h.Covers i := by
    intro g k n d hd hr
    rw [← some.inj hr] at hi
    obtain ⟨p, hp, hi⟩ := hi
    rw [mem_singleton.mp hp] at hi
    rw [length_slice] at hd
    simp only at hi
    exact .inl ⟨by omega, by omega⟩
  unfold Handle.flushStep at hr
  split at hr
  · exact absurd hi (puts_nothing hr)
  · exact absurd hi (puts_nothing hr)
  · exact hpart (le_refl _) hr
  · split_ifs at hr
    exact absurd hi (puts_nothing hr)
  · exact absurd hi (puts_nothing hr)
  · simp only at hr
    split_ifs at hr
    · exact absurd hi (puts_nothing hr)
    · exact hpart (le_refl _) hr
    · exact hpart (le_refl _) hr
    · exact hpart (length_take_le' _ _) hr
  · cases hr

theorem step_puts (hin : InFlight h peer) (hr : h.step o e = some r) (hi : Covered r.2 i) :
    h.Covers i := by
  unfold Handle.step at hr
  split at hr
  · next t f hfo =>
    obtain ⟨c, ph⟩ := f
    have hf := (frameOf_eq_some hfo).1
    unfold Handle.goOn at hr
    cases ph with
    | queued => cases hr
    | flight base length stage =>
      obtain ⟨rfl, -⟩ := hin t c base length stage hf
      exact flushStep_puts hr hi
    | woken =>
      simp only at hr
      split at hr
      · split at hr
        all_goals exact absurd hi (puts_nothing hr)
      · cases hr
    | syncing =>
      simp only at hr
      split at hr
      · exact absurd hi (puts_nothing hr)
      · cases hr
  · obtain ⟨h', ha, hr⟩ := map_eq_some_iff.mp hr
    exact absurd hi (puts_nothing (congrArg some hr))

/-- What others put on the peer, outside the window in flight, does not disturb it. -/
theorem InFlight.pwriteAll (hin : InFlight h peer) {ps : List (ℕ × List UInt8)}
    (hps : ∀ i, Covered ps i → ¬ h.Covers i) : InFlight h (pwriteAll peer ps) := by
  intro t c base length stage hf
  obtain ⟨hbase, hlen, hpos, harr⟩ := hin t c base length stage hf
  refine ⟨hbase, hlen, hpos, harr.imp fun i hi hhas => ⟨lt_length_pwriteAll_of_lt hhas.1, ?_⟩⟩
  rw [cellAt_pwriteAll_of_not fun hc => hps _ hc (.inl ⟨by omega, by omega⟩)]
  exact hhas.2

/-! ## One write at a time -/

theorem Quiet.placing (hq : Quiet h) (he : e.writes = false) : h.placing e = none := by
  unfold Handle.placing
  split
  · next t f hfo =>
    have := hq t f (frameOf_eq_some hfo).1
    obtain ⟨c, ph⟩ := f
    cases c with
    | move w | room w => simp [Caller.writes] at this
    | _ => rfl
  · cases e with
    | write off data => simp [Event.writes] at he
    | _ => rfl

/-- The caller whose flush completes is that of a suspended flush. -/
theorem returning_eq_some (hr : h.returning e = some c) :
    ∃ t base length stage, h.frames t = some ⟨c, .flight base length stage⟩ := by
  unfold Handle.returning at hr
  split at hr
  case h_3 => cases hr
  all_goals
    split at hr
    · next hf =>
      split_ifs at hr
      rw [← some.inj hr]
      exact ⟨_, _, _, _, hf⟩
    · cases hr

/-- Nobody fills the window behind the flush of a single `doWrite`. -/
theorem Parked.undisturbed (hp : Parked h w) (hw : Writers h (· = w)) (hk : Kept sent none h)
    (e : Event) : h.Undisturbed e := by
  have hmoves : ∀ c v, h.returning e = some c → c.write = some v → h.file.pending.bytes = [] := by
    intro c v hc hv
    obtain ⟨t, base, length, stage, hf⟩ := returning_eq_some hc
    obtain rfl := hw t _ v hf hv
    obtain rfl := hk.caller_id hf hv
    exact (hp _ hf).2.pending_eq_nil hf
  unfold Handle.Undisturbed
  split
  · next v hc => exact hmoves _ v hc rfl
  · next v hc => exact hmoves _ v hc rfl
  · trivial

theorem Quiet.undisturbed (hq : Quiet h) (e : Event) : h.Undisturbed e := by
  have hmoves : ∀ c, h.returning e = some c → c.writes = false := by
    intro c hc
    obtain ⟨t, base, length, stage, hf⟩ := returning_eq_some hc
    exact hq t _ hf
  unfold Handle.Undisturbed
  split
  · next v hc => exact absurd (hmoves _ hc) (by simp [Caller.writes])
  · next v hc => exact absurd (hmoves _ hc) (by simp [Caller.writes])
  · trivial

/-- An event that resumes a coroutine is no request. -/
theorem writes_of_frameOf (he : (h.frameOf e).isSome = true) : e.writes = false := by
  cases e with
  | write off data => simp [Handle.frameOf] at he
  | _ => rfl

theorem Parked.placing (hw : Writers h (· = w)) (he : e.writes = false) :
    ∀ v, h.placing e = some v → v = w := by
  intro v hv
  unfold Handle.placing at hv
  split at hv
  · next t f hfo =>
    refine hw t f v (frameOf_eq_some hfo).1 ?_
    obtain ⟨c, ph⟩ := f
    cases c with
    | move u | room u => exact hv
    | _ => simp [Caller.placing] at hv
  · cases e with
    | write off data => simp [Event.writes] at he
    | _ => simp [Handle.arriving] at hv

end Handle

/-! ## All the handles -/

namespace Shared

variable {o : Options} {s : Shared} {n : ℕ} {h : Handle} {e : Event} {w : Write}
  {file : List UInt8} {q : Handle × List (ℕ × List UInt8)}

theorem put_self (s : Shared) (n : ℕ) (q : Handle × List (ℕ × List UInt8)) :
    (s.put n q).handles n = some q.1 := by
  unfold put
  exact update_self ..

variable {m : ℕ} {h : Handle}

theorem put_of_ne (s : Shared) (q : Handle × List (ℕ × List UInt8)) (hm : m ≠ n) :
    (s.put n q).handles m = s.handles m := by
  unfold put
  exact update_of_ne hm ..

/-- After a handle has gone on, a handle is that one or as it was. -/
theorem put_eq_some {g : Handle} (hg : (s.put n q).handles m = some g) :
    (m = n ∧ g = q.1) ∨ (m ≠ n ∧ s.handles m = some g) := by
  by_cases hm : m = n
  · rw [hm, put_self] at hg
    exact .inl ⟨hm, (some.inj hg).symm⟩
  · rw [put_of_ne s q hm] at hg
    exact .inr ⟨hm, hg⟩

/-- What the handles hold back. -/
def windows (s : Shared) (n : ℕ) : List (ℕ × List UInt8) :=
  match s.handles n with
  | some h => h.windows
  | none => []

theorem windows_of_some (hn : s.handles n = some h) : s.windows n = h.windows := by
  rw [windows, hn]

theorem covered_iff : Covered (s.windows n) i ↔ ∃ h, s.handles n = some h ∧ h.Covers i := by
  cases hn : s.handles n with
  | none =>
    rw [windows, hn]
    refine iff_of_false (not_covered_of_empty (by simp)) ?_
    rintro ⟨h, hh, -⟩
    cases hh
  | some h =>
    rw [windows_of_some hn, Handle.covered_windows]
    constructor
    · exact fun hi => ⟨h, rfl, hi⟩
    · rintro ⟨g, hg, hi⟩
      rw [some.inj hg]
      exact hi

/-- Every handle is fit, and has a number that was given out. -/
def Fit (s : Shared) : Prop := ∀ n h, s.handles n = some h → h.Fit s.peer ∧ n < s.next

/-- **One handle goes on.**  All of them stay fit, and the file they are working towards
changes by the writes that were placed, where no other handle holds those back. -/
theorem put_step (hfit : s.Fit) (ho : Overlaid s.windows s.peer file) (hn : s.handles n = some h)
    (hok : e.succeeds = true) (hu : h.Undisturbed e) (hr : h.step o e = some q)
    (happart : ∀ v, h.placing e = some v → ∀ m g, m ≠ n → s.handles m = some g →
      ∀ i, v.Covers i → ¬ g.Covers i) : (s.put n q).Fit ∧ ∃ ws, h.Places (h.placing e) q.1 ws ∧
      Overlaid (s.put n q).windows (s.put n q).peer (pwriteAll file (ws.map Write.range)) := by
  obtain ⟨⟨⟨sent, hk⟩, hclean, hin⟩, hlt⟩ := hfit n h hn
  have hlands := Handle.Lands.step hk hclean hin hok hu hr
  obtain ⟨ws, hws, hview⟩ := hlands.view
  refine ⟨fun m g hg => ?_, ws, hws, ?_⟩
  · rcases put_eq_some hg with ⟨rfl, rfl⟩ | ⟨hm, hg'⟩
    · exact ⟨⟨⟨_, hk.step (hclean.onTime e) hr⟩, hlands.clean, hlands.inFlight⟩, hlt⟩
    · obtain ⟨⟨hk', hclean', hin'⟩, hlt'⟩ := hfit m g hg'
      refine ⟨⟨hk', hclean', hin'.pwriteAll fun i hi hgi => ?_⟩, hlt'⟩
      exact ho.apart n m i (Ne.symm hm) (covered_iff.mpr ⟨h, hn, Handle.step_puts hin hr hi⟩)
        (covered_iff.mpr ⟨g, hg', hgi⟩)
  · have hcovers : ∀ i, Covered (ws.map Write.range) i ↔ ∃ v ∈ ws, v.Covers i := by
      intro i
      constructor
      · rintro ⟨p, hp, hi⟩
        obtain ⟨v, hv, rfl⟩ := List.mem_map.mp hp
        exact ⟨v, hv, hi⟩
      · rintro ⟨v, hv, hi⟩
        exact ⟨v.range, List.mem_map_of_mem hv, hi⟩
    refine ho.change (n := n) ?_ (fun i hi => ?_) (fun m hm => ?_) fun m i hm hi hmi => ?_
    · rw [windows_of_some (put_self s n q), windows_of_some hn]
      exact hview
    · rw [windows_of_some (put_self s n q), Handle.covered_windows] at hi
      rw [windows_of_some hn, Handle.covered_windows, hcovers]
      exact hws.covers i hi
    · rw [windows, windows, put_of_ne s q hm]
    · obtain ⟨v, hv, hvi⟩ := (hcovers i).mp hi
      obtain ⟨g, hg, hgi⟩ := covered_iff.mp hmi
      exact happart v (hws.mine v hv) m g hm hg i hvi hgi

/-- A handle nobody writes to goes on. -/
theorem put_step_quiet (hfit : s.Fit) (ho : Overlaid s.windows s.peer file)
    (hn : s.handles n = some h) (hok : e.succeeds = true) (hq : h.Quiet) (he : e.writes = false)
    (hr : h.step o e = some q) :
    (s.put n q).Fit ∧ Overlaid (s.put n q).windows (s.put n q).peer file ∧ ∀ i, q.1.Covers i →
    h.Covers i := by
  have hplacing := hq.placing he
  obtain ⟨hfit, ws, hws, ho⟩ := put_step hfit ho hn hok (hq.undisturbed e) hr
    fun v hv => absurd hv (by rw [hplacing]; simp)
  have hnone : ∀ v, v ∉ ws := by
    intro v hv
    have := hws.mine v hv
    rw [hplacing] at this
    cases this
  obtain rfl := eq_nil_iff_forall_not_mem.mpr hnone
  exact ⟨hfit, ho, fun i hi => (hws.covers i hi).resolve_right fun ⟨v, hv, _⟩ => hnone v hv⟩

/-- No write is in progress, and the handles are working towards `file`. -/
structure Calm (file : List UInt8) (s : Shared) : Prop where
  fit : s.Fit
  quiet : ∀ n h, s.handles n = some h → h.Quiet
  overlaid : Overlaid s.windows s.peer file

/-- Something other than a write happens to a handle. -/
theorem Calm.put (hc : Calm file s) (hn : s.handles n = some h) (hok : e.succeeds = true)
    (he : e.writes = false) (hr : h.step o e = some q) : Calm file (s.put n q) := by
  have hq := hc.quiet n h hn
  obtain ⟨hfit, ho, -⟩ := put_step_quiet hc.fit hc.overlaid hn hok hq he hr
  refine ⟨hfit, fun m g hg => ?_, ho⟩
  rcases put_eq_some hg with ⟨-, rfl⟩ | ⟨-, hg'⟩
  · exact hq.step he hr
  · exact hc.quiet m g hg'

/-- What is settled stays settled meanwhile. -/
theorem Calm.put_settled (hc : Calm file s) (hn : s.handles n = some h) (hok : e.succeeds = true)
    (he : e.writes = false) (hr : h.step o e = some q) (hset : ∀ g, s.handles m = some g →
      g.Settled) :
    ∀ g, (s.put n q).handles m = some g → g.Settled := by
  intro g hg
  rcases put_eq_some hg with ⟨rfl, rfl⟩ | ⟨-, hg'⟩
  · exact (hset h hn).step (hc.fit m h hn).1.kept.choose_spec (hc.quiet m h hn) he hr
      (((hc.put hn hok he hr).fit m q.1 (put_self s m q)).1.kept.choose_spec.sound)
  · exact hset g hg'

/-- The file with the write in it, if it has been placed. -/
def withWrite (file : List UInt8) (w : Write) (placed : List Write) : List UInt8 :=
  if w ∈ placed then pwrite file w.off w.data else file

theorem pwriteAll_withWrite {placed ws : List Write} (hws : ∀ v ∈ ws, v = w) :
    pwriteAll (withWrite file w placed) (ws.map Write.range) = withWrite file w (placed ++ ws) := by
  have hagain : ∀ vs : List Write, (∀ v ∈ vs, v = w) →
      pwriteAll (pwrite file w.off w.data) (vs.map Write.range) = pwrite file w.off w.data := by
    intro vs
    induction vs with
    | nil => exact fun _ => rfl
    | cons v vs ih =>
      intro hvs
      obtain rfl := hvs v mem_cons_self
      rw [map_cons, pwriteAll_cons]
      have := pwrite_pwrite_self file v.off v.data
      rw [show pwrite (pwrite file v.off v.data) v.range.1 v.range.2 = _ from this]
      exact ih fun u hu => hvs u (mem_cons_of_mem _ hu)
  unfold withWrite
  by_cases hp : w ∈ placed
  · rw [if_pos hp, if_pos (mem_append_left _ hp)]
    exact hagain ws hws
  · rw [if_neg hp]
    cases ws with
    | nil => rw [if_neg (by simpa using hp)]; rfl
    | cons v ws =>
      obtain rfl := hws v mem_cons_self
      rw [if_pos (mem_append_right _ mem_cons_self), map_cons, pwriteAll_cons]
      exact hagain ws fun u hu => hws u (mem_cons_of_mem _ hu)

/-- The write `w` is in progress on the handle `n`, and no other one is. -/
structure InWrite (file : List UInt8) (s : Shared) (n : ℕ) (w : Write) : Prop where
  fit : s.Fit
  opened : n ∈ s.opened
  handle : ∃ h, s.handles n = some h ∧ h.Writers (· = w) ∧ h.Parked w ∧
    Overlaid s.windows s.peer (withWrite file w h.books.placed)
  others : ∀ m g, m ≠ n → s.handles m = some g → g.Quiet ∧ ∀ i, w.Covers i → ¬ g.Covers i

/-- The write itself goes on, or something else on its handle. -/
theorem InWrite.put_self (hi : InWrite file s n w) (hn : s.handles n = some h)
    (hok : e.succeeds = true) (he : (h.frameOf e).isSome = true) (hr : h.step o e = some q) :
    InWrite file (s.put n q) n w := by
  obtain ⟨h', hn', hw, hp, ho⟩ := hi.handle
  obtain rfl : h = h' := mem_unique hn hn'
  have hk := (hi.fit n h hn).1.kept.choose_spec
  have hwe := Handle.writes_of_frameOf he
  have hplacing := Handle.Parked.placing hw hwe
  obtain ⟨hfit, ws, hws, ho'⟩ := put_step hi.fit ho hn hok (hp.undisturbed hw hk e) hr
    fun v hv m g hm hg => by
      rw [hplacing v hv]
      exact (hi.others m g hm hg).2
  refine ⟨hfit, hi.opened, ⟨q.1, Shared.put_self s n q, ?_, ?_, ?_⟩, fun m g hm hg => ?_⟩
  · refine hw.step (fun off data heq => ?_) hr
    rw [heq] at hwe
    simp [Event.writes] at hwe
  · unfold Handle.step at hr
    split at hr
    · next t f hfo => exact hp.went hw hk (Handle.frameOf_eq_some hfo).1 (Handle.goOn_went hr)
    · next hfo =>
      rw [hfo] at he
      cases he
  · rw [hws.placed, ← pwriteAll_withWrite fun v hv => hplacing v (hws.mine v hv)]
    exact ho'
  · rw [put_of_ne s q hm] at hg
    exact hi.others m g hm hg

/-- Something goes on at another handle. -/
theorem InWrite.put_of_ne {g : Handle} (hi : InWrite file s n w) (hm : m ≠ n)
    (hg : s.handles m = some g) (hok : e.succeeds = true) (he : (g.frameOf e).isSome = true)
    (hr : g.step o e = some q) : InWrite file (s.put m q) n w := by
  obtain ⟨h, hn, hw, hp, ho⟩ := hi.handle
  obtain ⟨hq, hclear⟩ := hi.others m g hm hg
  have hwe := Handle.writes_of_frameOf he
  obtain ⟨hfit, ho', hcovers⟩ := put_step_quiet hi.fit ho hg hok hq hwe hr
  refine ⟨hfit, hi.opened, ⟨h, (Shared.put_of_ne s q (Ne.symm hm)).trans hn, hw, hp, ho'⟩,
    fun l k hl hk => ?_⟩
  rcases put_eq_some hk with ⟨rfl, rfl⟩ | ⟨-, hk'⟩
  · exact ⟨hq.step hwe hr, fun i hi' hki => hclear i hi' (hcovers i hki)⟩
  · exact hi.others l k hl hk'

/-- The write arrives. -/
theorem InWrite.start {off : ℕ} {data : List UInt8} (hc : Calm file s) (hopen : n ∈ s.opened)
    (hn : s.handles n = some h) (hr : h.step o (.write off data) = some q)
    (hclear : ∀ m g, m ≠ n → s.handles m = some g →
      ∀ i, Write.Covers ⟨h.books.next, off, data⟩ i → ¬ g.Covers i) :
    InWrite file (s.put n q) n ⟨h.books.next, off, data⟩ := by
  have hq := hc.quiet n h hn
  have hk := (hc.fit n h hn).1.kept.choose_spec
  obtain ⟨hfit, ws, hws, ho⟩ := put_step hc.fit hc.overlaid hn rfl (hq.undisturbed _) hr
    fun v hv => by
      obtain rfl : _ = v := some.inj (show some _ = some v from hv)
      exact hclear
  have hnew : (⟨h.books.next, off, data⟩ : Write) ∉ h.books.placed := fun hp =>
    absurd (hk.numbered _ (hk.requested _ hp)) (Nat.lt_irrefl _)
  refine ⟨hfit, hopen, ⟨q.1, Shared.put_self s n q, ?_, ?_, ?_⟩, fun m g hm hg => ?_⟩
  · refine .step (fun t f v hf hv => ?_) (fun _ _ heq => ?_) hr
    · exact absurd hv (by rw [Caller.write_eq_none (hq t f hf)]; simp)
    · obtain ⟨rfl, rfl⟩ := Event.write.inj heq
      rfl
  · obtain rfl := some.inj (show some (.doWrite o (h.number.request _) _, []) = some q from hr)
    exact (Handle.Parked.turn _).doWrite (h := h.number.request ⟨h.books.next, off, data⟩)
      ⟨Nat.lt_succ_self _, hk.sound.fresh _ (le_refl _)⟩
  · rw [hws.placed, ← pwriteAll_withWrite fun v hv => ?_]
    · rw [show withWrite file _ h.books.placed = file from if_neg hnew]
      exact ho
    · exact (some.inj (show some _ = some v from hws.mine v hv)).symm
  · rw [Shared.put_of_ne s q hm] at hg
    exact ⟨hc.quiet m g hg, hclear m g hm hg⟩

/-! ## The request being served -/

/-- How far the request has come, while the answered ones make `file`. -/
def Progress (file : List UInt8) (s : Shared) : Option Request → Prop
  | none => Calm file s
  | some (.write n w) => InWrite file s n w
  | some (.flush n t) => Calm file s ∧ ∃ h, s.handles n = some h ∧ h.Settling t
  | some (.release n t) => Calm file s ∧ ∃ h, s.handles n = some h ∧ h.Settling t
  | some (.setAttr _ n t) => (Calm file s ∧ ∃ h, s.handles n = some h ∧ h.Settling t) ∧
      ∀ m, m < n → ∀ g, s.handles m = some g → g.Settled

/-- A released handle holds nothing back, once the release has been answered. -/
def Released (s : Shared) : Prop :=
  ∀ n h, s.handles n = some h → n ∉ s.opened → h.Settled ∨ ∃ t, s.current = some (.release n t)

/-- No released handle holds anything back. -/
def Spent (s : Shared) : Prop := ∀ n h, s.handles n = some h → n ∉ s.opened → h.Settled

/-- The coroutine of the request being served is suspended. -/
def Suspended (s : Shared) : Prop :=
  ∀ r, s.current = some r → ∃ h, s.handles r.handle = some h ∧ (h.frames r.task).isSome = true

/-- Handles are numbered from one. -/
def FromOne (s : Shared) : Prop := 0 < s.next ∧ s.handles 0 = none

theorem FromOne.put (hpos : FromOne s) (hn : s.handles n = some h)
    (q : Handle × List (ℕ × List UInt8)) : FromOne (s.put n q) := by
  refine ⟨hpos.1, (put_of_ne s q ?_).trans hpos.2⟩
  rintro rfl
  rw [hpos.2] at hn
  cases hn

/-- The peer file, with what the handles hold back, is the plain file. -/
structure Coherent (file : List UInt8) (s : Shared) : Prop where
  progress : Progress (s.log.foldl Op.apply file) s s.current
  released : Released s
  suspended : Suspended s
  pos : FromOne s

variable {r : Option Request}

theorem Progress.fit (hp : Progress file s r) : s.Fit := by
  match r, hp with
  | none, hp => exact Calm.fit hp
  | some (.write _ _), hp => exact InWrite.fit hp
  | some (.flush _ _), hp | some (.release _ _), hp => exact hp.1.fit
  | some (.setAttr _ _ _), hp => exact hp.1.1.fit

/-- Only an open handle is written to. -/
theorem Progress.quiet (hp : Progress file s r) (hn : s.handles n = some h) (hrel : n ∉ s.opened) :
    h.Quiet := by
  match r, hp with
  | none, hp => exact Calm.quiet hp n h hn
  | some (.write m _), hp =>
    refine (InWrite.others hp n h ?_ hn).1
    rintro rfl
    exact hrel (InWrite.opened hp)
  | some (.flush _ _), hp | some (.release _ _), hp => exact hp.1.quiet n h hn
  | some (.setAttr _ _ _), hp => exact hp.1.1.quiet n h hn

theorem Progress.handle {r : Request} (hp : Progress file s (some r)) :
    ∃ h, s.handles r.handle = some h := by
  match r, hp with
  | .write _ _, hp =>
    obtain ⟨h, hn, -⟩ := InWrite.handle hp
    exact ⟨h, hn⟩
  | .flush _ _, ⟨_, h, hn, _⟩ | .release _ _, ⟨_, h, hn, _⟩ | .setAttr _ _ _, ⟨⟨_, h, hn, _⟩, _⟩ =>
    exact ⟨h, hn⟩

/-- Which request is being served is not read. -/
theorem Progress.serving (hp : Progress file s r) (r' : Option Request) :
    Progress file (s.serving r') r := by
  have hcalm : Calm file s → Calm file (s.serving r') := fun hc => { hc with }
  match r, hp with
  | none, hp => exact hcalm hp
  | some (.write n w), hp =>
    have hi : InWrite file s n w := hp
    exact { hi with }
  | some (.flush _ _), hp | some (.release _ _), hp => exact ⟨hcalm hp.1, hp.2⟩
  | some (.setAttr _ _ _), hp => exact ⟨⟨hcalm hp.1.1, hp.1.2⟩, hp.2⟩

/-- A flush on its way stays so when something goes on, at its handle or another. -/
theorem Calm.put_settling (hc : Calm file s) (hn : s.handles n = some h) (he : e.writes = false)
    (hr : h.step o e = some q) (hset : ∃ g, s.handles m = some g ∧ g.Settling t) :
    ∃ g, (s.put n q).handles m = some g ∧ g.Settling t := by
  obtain ⟨g, hg, hset⟩ := hset
  by_cases hm : m = n
  · subst hm
    obtain rfl : h = g := mem_unique hn hg
    exact ⟨q.1, Shared.put_self s m q, hset.step (hc.fit m h hn).1.kept.choose_spec
      (hc.quiet m h hn) he hr⟩
  · exact ⟨g, (Shared.put_of_ne s q hm).trans hg, hset⟩

/-- **A suspended coroutine goes on.** -/
theorem Progress.put (hp : Progress file s r) (hn : s.handles n = some h)
    (hok : e.succeeds = true) (he : (h.frameOf e).isSome = true) (hr : h.step o e = some q) :
    Progress file (s.put n q) r := by
  have hwe := Handle.writes_of_frameOf he
  match r, hp with
  | none, hp => exact Calm.put hp hn hok hwe hr
  | some (.write m w), hp =>
    by_cases hm : n = m
    · subst hm
      exact .put_self hp hn hok he hr
    · exact .put_of_ne hp hm hn hok he hr
  | some (.flush m t), ⟨hc, hset⟩ | some (.release m t), ⟨hc, hset⟩ =>
    exact ⟨hc.put hn hok hwe hr, hc.put_settling hn hwe hr hset⟩
  | some (.setAttr size m t), ⟨⟨hc, hset⟩, hbelow⟩ =>
    exact ⟨⟨hc.put hn hok hwe hr, hc.put_settling hn hwe hr hset⟩,
      fun l hl => hc.put_settled hn hok hwe hr (hbelow l hl)⟩

theorem Released.put (hrel : Released s) (hp : Progress file s s.current)
    (hn : s.handles n = some h) (hok : e.succeeds = true) (he : (h.frameOf e).isSome = true)
    (hr : h.step o e = some q) : Released (s.put n q) := by
  intro m g hg hm
  rcases put_eq_some hg with ⟨rfl, rfl⟩ | ⟨-, hg'⟩
  · refine (hrel m h hn hm).imp_left fun hset => ?_
    exact hset.step (hp.fit m h hn).1.kept.choose_spec (hp.quiet hn hm)
      (Handle.writes_of_frameOf he) hr
      (((hp.put hn hok he hr).fit m q.1 (Shared.put_self s m q)).1.kept.choose_spec.sound)
  · exact hrel m g hg' hm

/-! ## Truncation -/

/-- A handle that `nextPendingOn` skips holds nothing back. -/
theorem settled_of_not_holds (hn : s.handles n = some h) (hh : s.holds n = false) : h.Settled := by
  rw [holds, hn, Bool.or_eq_false_iff, decide_eq_false_iff_not, not_not] at hh
  exact hh

theorem Calm.eq_peer (hc : Calm file s) (hset : ∀ n h, s.handles n = some h → h.Settled) :
    file = s.peer ∧ ∀ n, ∀ p ∈ s.windows n, p.2 = [] := by
  have hwin : ∀ n, ∀ p ∈ s.windows n, p.2 = [] := by
    intro n p hp
    cases hn : s.handles n with
    | none =>
      rw [windows, hn] at hp
      cases hp
    | some h =>
      rw [windows_of_some hn] at hp
      exact (hset n h hn).windows (hc.fit n h hn).1.kept.choose_spec.sound p hp
  exact ⟨hc.overlaid.eq_base hwin, hwin⟩

/-- **The peer file is cut while nothing is held back.** -/
theorem Calm.truncateTo (hc : Calm file s) (hset : ∀ n h, s.handles n = some h → h.Settled)
    (size : ℕ) : Calm (truncate file size) (s.truncateTo size) := by
  obtain ⟨rfl, hwin⟩ := hc.eq_peer hset
  refine ⟨fun n h hn => ?_, hc.quiet, .of_empty hwin _⟩
  obtain ⟨⟨⟨sent, hk⟩, hclean, -⟩, hlt⟩ := hc.fit n h hn
  refine ⟨⟨⟨sent, hk⟩, hclean, fun t c base length stage hf => ?_⟩, hlt⟩
  exact absurd hf ((hset n h hn).not_flight hk.sound)

theorem foldl_record (s : Shared) (op : Op) (file : List UInt8) :
    (s.record op).log.foldl Op.apply file = op.apply (s.log.foldl Op.apply file) := by
  rw [Shared.record, foldl_append]
  rfl

theorem Calm.record (hc : Calm file s) (op : Op) : Calm file (s.record op) :=
  { hc with }

/-- **`flushPath` flushes what is held back, and then the file is cut.** -/
theorem flushPath_coherent {size after : ℕ} {fuel : ℕ} (hfuel : 0 < fuel)
    (hc : Calm (s.log.foldl Op.apply file) s) (hset : ∀ m, m ≤ after → ∀ g, s.handles m = some g →
      g.Settled) (hrel : s.Spent) (hpos : FromOne s) :
      Coherent file (s.flushPath o size fuel after) := by
  obtain ⟨fuel, rfl⟩ := Nat.exists_eq_succ_of_ne_zero hfuel.ne'
  rw [Shared.flushPath]
  -- what is not picked holds nothing back
  have hskip : ∀ m g, s.handles m = some g →
      (!(decide (after < m) && s.holds m)) = true → g.Settled := by
    intro m g hg hm
    rcases Nat.lt_or_ge after m with hlt | hge
    · refine settled_of_not_holds hg ?_
      simpa [hlt] using hm
    · exact hset m hge g hg
  split
  · next hnone =>
    have hall : ∀ n h, s.handles n = some h → h.Settled := fun n h hn =>
      hskip n h hn (find?_range_eq_none.mp hnone n (hc.fit n h hn).2)
    refine ⟨?_, fun n h hn _ => .inl (hall n h hn), fun r hr => absurd hr (by simp [serving]), hpos⟩
    have hcut : Calm (((s.truncateTo size).record (.truncate size)).log.foldl Op.apply file)
        ((s.truncateTo size).record (.truncate size)) := by
      rw [foldl_record]
      exact (hc.truncateTo hall size).record _
    exact .serving (r := none) hcut none
  · next n hsome =>
    obtain ⟨hpick, hmem, hfirst⟩ := find?_range_eq_some.mp hsome
    rw [Bool.and_eq_true] at hpick
    split
    · next hnone =>
      have := hpick.2
      rw [holds, hnone] at this
      exact absurd this (by decide)
    · next h hn =>
      have hbusy : ¬ h.Settled := by
        intro hset'
        have := hpick.2
        rw [holds, hn] at this
        simp [hset'.1, hset'.2] at this
      obtain ⟨⟨⟨sent, hk⟩, hclean, -⟩, -⟩ := hc.fit n h hn
      have hstep : h.step o .path = some (h.number.callFlush o h.books.next .path, []) := rfl
      obtain ⟨f, hf, -⟩ := Handle.Waits.of_callFlush (o := o) (c := .path) hk hclean.ok hbusy
      simp only [Handle.pathResult, hf, isSome_some, if_true]
      have hput := hc.put hn rfl rfl hstep
      refine ⟨.serving (r := some (.setAttr size n h.books.next))
        ⟨⟨hput, _, Shared.put_self s n _, .call hk hclean.ok rfl⟩, fun m hm g hg => ?_⟩ _,
        fun m g hg hm => ?_, fun r hr => ?_, hpos.put hn _⟩
      · have hg' : s.handles m = some g := (Shared.put_of_ne s _ (Nat.ne_of_lt hm)).symm.trans hg
        exact hskip m g hg' (hfirst m hm)
      · rcases put_eq_some hg with ⟨rfl, rfl⟩ | ⟨-, hg'⟩
        · exact absurd (hrel m h hn hm) hbusy
        · exact .inl (hrel m g hg' hm)
      · obtain rfl : _ = r := some.inj hr
        exact ⟨_, Shared.put_self s n _, by rw [Request.task, hf]; rfl⟩

/-! ## Answers -/

/-- A coroutine that has ended leaves its handle settled, when it was a flush. -/
theorem settled_of_ended (hset : h.Settling t) (hend : (h.frames t).isSome ≠ true) : h.Settled := by
  rcases hset with ⟨⟨f, hf, -⟩, -⟩ | hset
  · exact absurd (by rw [hf]; rfl) hend
  · exact hset

/-- A write that has ended: it was acknowledged if it was placed, and no other one is in
progress. -/
theorem InWrite.ended (hi : InWrite file s n w) (hn : s.handles n = some h)
    (hend : (h.frames w.id).isSome ≠ true) :
    Calm (if w ∈ h.books.acked then pwrite file w.off w.data else file) s := by
  obtain ⟨h', hn', hw, -, ho⟩ := hi.handle
  obtain rfl : h = h' := mem_unique hn hn'
  obtain ⟨⟨⟨sent, hk⟩, hclean, -⟩, -⟩ := hi.fit n h hn
  have hnone : ∀ t f v, h.frames t = some f → f.caller.write ≠ some v := by
    intro t f v hf hv
    obtain rfl := hw t f v hf hv
    obtain rfl := hk.caller_id hf hv
    exact hend (by rw [hf]; rfl)
  have hfile : withWrite file w h.books.placed =
      if w ∈ h.books.acked then pwrite file w.off w.data else file := by
    unfold withWrite
    by_cases hp : w ∈ h.books.placed
    · rw [if_pos hp, if_pos]
      rcases hk.answered w hp with h₁ | h₁ | h₁ | ⟨t, ph, h₁⟩
      · cases h₁
      · exact h₁
      · exact absurd h₁ (by rw [hclean.ok]; decide)
      · exact absurd rfl (hnone t _ w h₁)
    · rw [if_neg hp]
      split_ifs with ha
      · rw [(hk.acked w ha).resolve_right hp, pwrite_nil]
      · rfl
  rw [← hfile]
  refine ⟨hi.fit, fun m g hg => ?_, ho⟩
  by_cases hm : m = n
  · subst hm
    obtain rfl : h = g := mem_unique hn hg
    exact Handle.quiet_iff.mpr fun t f v hf hv => hnone t f v hf hv
  · exact (hi.others m g hm hg).1

/-- **The request being served goes on, or is answered.** -/
theorem answer_coherent (hp : Progress (s.log.foldl Op.apply file) s s.current)
    (hrel : Released s) (hpos : FromOne s) : Coherent file (s.answer o) := by
  unfold answer
  split
  · next hnone => exact ⟨hp, hrel, fun r hr => absurd hr (by rw [hnone]; simp), hpos⟩
  · next r hr =>
    rw [hr] at hp
    obtain ⟨h, hn⟩ := hp.handle
    rw [hn]
    simp only
    split_ifs with hend
    · exact ⟨by rw [hr]; exact hp, hrel, fun r' hr' => by
        obtain rfl : r = r' := mem_unique hr hr'
        exact ⟨h, hn, hend⟩, hpos⟩
    -- the coroutine has ended; what it leaves depends on the request
    have hother : (∀ n t, r ≠ .release n t) → s.Spent := by
      intro hne n h hn hm
      refine (hrel n h hn hm).resolve_right ?_
      rintro ⟨t, ht⟩
      exact hne n t (mem_unique hr ht)
    have hserve : ∀ {g} {s'}, g = s'.log.foldl Op.apply file → Calm g s' → s'.Spent → FromOne s' →
        Coherent file (s'.serving none) := by
      rintro g s' rfl hc hrel' hpos'
      exact ⟨.serving (r := none) hc none, fun n h hn hm => .inl (hrel' n h hn hm),
        fun r hr => absurd hr (by simp [serving]), hpos'⟩
    cases r with
    | write n w =>
      have hc := InWrite.ended hp hn hend
      have hset := hother fun _ _ => by simp
      show Coherent file (if w ∈ h.books.acked then (s.record (.write w.off w.data)).serving none
        else s.serving none)
      split_ifs at hc ⊢
      · refine hserve ?_ (hc.record (.write w.off w.data)) hset hpos
        rw [foldl_record]
        rfl
      · exact hserve rfl hc hset hpos
    | flush n t => exact hserve rfl hp.1 (hother fun _ _ => by simp) hpos
    | release n t =>
      obtain ⟨hc, h', hn', hset⟩ := hp
      obtain rfl : h = h' := mem_unique hn hn'
      refine hserve rfl hc (fun m g hg hm => ?_) hpos
      rcases hrel m g hg hm with hg' | ⟨u, hu⟩
      · exact hg'
      · obtain ⟨rfl, -⟩ := Request.release.inj (mem_unique hr hu)
        obtain rfl : h = g := mem_unique hn hg
        exact settled_of_ended hset hend
    | setAttr size n t =>
      obtain ⟨⟨hc, h', hn', hset⟩, hbelow⟩ := hp
      obtain rfl : h = h' := mem_unique hn hn'
      have hok : h.pathResult t = some true := by
        have hend' : ¬ (h.frames t).isSome = true := hend
        rw [Handle.pathResult, if_neg hend', decide_eq_true ((hc.fit n h hn).1.clean.answers t)]
      show Coherent file (if h.pathResult t = some true then flushPath o size s.next n s
        else s.serving none)
      rw [if_pos hok]
      refine flushPath_coherent hpos.1 hc (fun m hm g hg => ?_) (hother fun _ _ => by simp) hpos
      rcases Nat.lt_or_ge m n with hlt | hge
      · exact hbelow m hlt g hg
      · obtain rfl : m = n := by omega
        obtain rfl : h = g := mem_unique hn hg
        exact settled_of_ended hset hend

/-- A handle with a suspended coroutine is not idle. -/
theorem idle_eq_false (hs : h.Sound) (ht : (h.frames t).isSome = true) : h.idle = false := by
  obtain ⟨f, hf⟩ := isSome_iff_exists.mp ht
  rw [← Bool.not_eq_true, Handle.idle, List.all_eq_true]
  intro hall
  have := hall t (mem_range.mpr (hs.lt_next hf))
  rw [hf] at this
  cases this

theorem handles_of_sweep {n : ℕ} (hn : s.sweep.handles n = some h) : s.handles n = some h :=
  (filter_eq_some_iff.mp hn).1

theorem sweep_handles {n : ℕ} (hn : s.handles n = some h) (hor : n ∈ s.opened ∨ h.idle = false) :
    s.sweep.handles n = some h := by
  refine filter_eq_some_iff.mpr ⟨hn, ?_⟩
  rcases hor with hm | hi
  · rw [decide_eq_true hm, Bool.true_or]
  · rw [hi, Bool.not_false, Bool.or_true]

section

variable (hc : Coherent file s)
include hc

/-- What the request waits on is not idle. -/
theorem Coherent.busy {r : Request} (hr : s.current = some r) (hn : s.handles r.handle = some h) :
    h.idle = false := by
  obtain ⟨h', hn', ht⟩ := hc.suspended r hr
  obtain rfl : h = h' := mem_unique hn hn'
  exact idle_eq_false (hc.progress.fit _ h hn).1.kept.choose_spec.sound ht

/-- A handle that is closed had nothing left in its windows. -/
theorem Coherent.windows_sweep (n : ℕ) :
    s.sweep.windows n = s.windows n ∨
    ((∀ p ∈ s.windows n, p.2 = []) ∧ ∀ p ∈ s.sweep.windows n, p.2 = []) := by
  cases hn : s.handles n with
  | none =>
    left
    have hs : s.sweep.handles n = none := by
      show (s.handles n).filter _ = none
      rw [hn]
      rfl
    rw [windows, windows, hn, hs]
  | some h =>
    by_cases hor : n ∈ s.opened ∨ h.idle = false
    · left
      rw [windows_of_some hn, windows_of_some (sweep_handles hn hor)]
    · right
      obtain ⟨hm, hidle⟩ := not_or.mp hor
      have hset : h.Settled := by
        refine (hc.released n h hn hm).resolve_right ?_
        rintro ⟨t, ht⟩
        exact hidle (hc.busy ht hn)
      have hempty := hset.windows (hc.progress.fit n h hn).1.kept.choose_spec.sound
      refine ⟨?_, fun p hp => ?_⟩
      · rw [windows_of_some hn]
        exact hempty
      · cases hs : s.sweep.handles n with
        | none =>
          rw [windows, hs] at hp
          cases hp
        | some g =>
          obtain rfl : h = g := some.inj (hn.symm.trans (handles_of_sweep hs))
          rw [windows_of_some hs] at hp
          exact hempty p hp

/-- **Closing what is released and idle loses nothing.** -/
theorem Coherent.sweep : Coherent file s.sweep := by
  have hcalm : ∀ {f}, Calm f s → Calm f s.sweep := fun h =>
    ⟨fun n g hg => h.fit n g (handles_of_sweep hg), fun n g hg => h.quiet n g (handles_of_sweep hg),
      h.overlaid.congr hc.windows_sweep⟩
  have hsettling : ∀ {r t}, s.current = some r → (∃ h, s.handles r.handle = some h ∧ h.Settling t) →
      ∃ h, s.sweep.handles r.handle = some h ∧ h.Settling t := by
    rintro r t hr ⟨h, hn, hset⟩
    exact ⟨h, sweep_handles hn (.inr (hc.busy hr hn)), hset⟩
  refine ⟨?_, fun n h hn hm => hc.released n h (handles_of_sweep hn) hm, fun r hr => ?_,
    hc.pos.1, ?_⟩
  · have hp := hc.progress
    show Progress (s.log.foldl Op.apply file) s.sweep s.current
    cases hcur : s.current with
    | none =>
      rw [hcur] at hp
      exact hcalm hp
    | some r =>
      rw [hcur] at hp
      cases r with
      | write n w =>
        obtain ⟨hfit', hopen, ⟨h, hn, hw, hpk, ho⟩, hothers⟩ := (hp : InWrite _ s n w)
        exact ⟨fun m g hg => hfit' m g (handles_of_sweep hg), hopen,
          ⟨h, sweep_handles hn (.inl hopen), hw, hpk, ho.congr hc.windows_sweep⟩,
          fun m g hm hg => hothers m g hm (handles_of_sweep hg)⟩
      | flush n t | release n t => exact ⟨hcalm hp.1, hsettling hcur hp.2⟩
      | setAttr size n t =>
        exact ⟨⟨hcalm hp.1.1, hsettling hcur hp.1.2⟩, fun m hm g hg =>
          hp.2 m hm g (handles_of_sweep hg)⟩
  · obtain ⟨h, hn, ht⟩ := hc.suspended r hr
    exact ⟨h, sweep_handles hn (.inr (hc.busy hr hn)), ht⟩
  · show (s.handles 0).filter _ = none
    rw [hc.pos.2]
    rfl

/-! ## Requests -/

theorem Coherent.calm (hcur : s.current.isSome ≠ true) :
    Calm (s.log.foldl Op.apply file) s ∧ s.Spent := by
  have hnone : s.current = none := by simpa using hcur
  have hp := hc.progress
  rw [hnone] at hp
  refine ⟨hp, fun n h hn hm => (hc.released n h hn hm).resolve_right ?_⟩
  rintro ⟨t, ht⟩
  rw [hnone] at ht
  cases ht

end

/-- A request has put a handle to work. -/
theorem coherent_of_request {req : Request}
    (hp : Progress (s.log.foldl Op.apply file) (s.put n q) (some req))
    (hrel : ∀ m g, m ≠ n → s.handles m = some g → m ∉ s.opened → g.Settled)
    (hn : n ∉ s.opened → ∃ t, req = .release n t) (hpos : FromOne (s.put n q)) :
    Coherent file (((s.put n q).serving (some req)).answer o).sweep := by
  refine .sweep (answer_coherent (hp.serving _) (fun m g hg hm => ?_) hpos)
  rcases put_eq_some hg with ⟨rfl, -⟩ | ⟨hne, hg'⟩
  · obtain ⟨t, ht⟩ := hn hm
    exact .inr ⟨t, congrArg some ht⟩
  · exact .inl (hrel m g hne hg' hm)

/-- `doFlush` and `doRelease` call `flushPending` on their handle. -/
theorem Calm.call (hc : Calm file s) (hn : s.handles n = some h) (he : e.writes = false)
    (hcw : c.writes = false) (hok : e.succeeds = true)
    (hr : h.step o e = some (h.number.callFlush o h.books.next c, [])) :
    Calm file (s.put n (h.number.callFlush o h.books.next c, [])) ∧
      ∃ g, (s.put n (h.number.callFlush o h.books.next c, [])).handles n = some g ∧
        g.Settling h.books.next := by
  obtain ⟨⟨⟨sent, hk⟩, hclean, -⟩, -⟩ := hc.fit n h hn
  exact ⟨hc.put hn hok he hr, _, Shared.put_self s n _, .call hk hclean.ok hcw⟩

/-- A file is opened. -/
theorem Calm.addFile (hc : Calm file s) (page : ℕ) (writable : Bool) :
    Calm file (s.addFile { file := { page, writable } }) := by
  have hcases : ∀ {m g}, (s.addFile { file := { page, writable } }).handles m =
      some g → (m = s.next ∧ g = { file := { page, writable } }) ∨
        (m ≠ s.next ∧ s.handles m = some g) := by
    intro m g hg
    by_cases hm : m = s.next
    · rw [hm, show (s.addFile _).handles s.next = _ from update_self ..] at hg
      exact .inl ⟨hm, (some.inj hg).symm⟩
    · rw [show (s.addFile _).handles m = s.handles m from update_of_ne hm ..] at hg
      exact .inr ⟨hm, hg⟩
  refine ⟨fun m g hg => ?_, fun m g hg => ?_, hc.overlaid.congr fun m => ?_⟩
  · rcases hcases hg with ⟨rfl, rfl⟩ | ⟨-, hg'⟩
    · exact ⟨.opened page writable _, Nat.lt_succ_self _⟩
    · exact ⟨(hc.fit m g hg').1, Nat.lt_succ_of_lt (hc.fit m g hg').2⟩
  · rcases hcases hg with ⟨-, rfl⟩ | ⟨-, hg'⟩
    · exact nofun
    · exact hc.quiet m g hg'
  · by_cases hm : m = s.next
    · subst hm
      right
      have hnone : s.handles s.next = none := by
        cases hn : s.handles s.next with
        | none => rfl
        | some g => exact absurd (hc.fit _ g hn).2 (Nat.lt_irrefl _)
      refine ⟨fun p hp => ?_, fun p hp => ?_⟩
      · rw [windows, hnone] at hp
        cases hp
      · rw [windows_of_some (show (s.addFile _).handles s.next = _ from update_self ..)] at hp
        rcases mem_cons.mp hp with rfl | hp
        · rfl
        · obtain rfl := mem_singleton.mp hp
          rfl
    · left
      rw [windows, windows, show (s.addFile _).handles m = s.handles m from update_of_ne hm ..]

theorem coherent_of_addFile (hc : Calm (s.log.foldl Op.apply file) s) (hcur : s.current = none)
    (hset : s.Spent) (hpos : FromOne s) (page : ℕ) (writable : Bool) :
    Coherent file (s.addFile { file := { page, writable } }) := by
  refine ⟨?_, fun n h hn hm => ?_, fun r hr => ?_, Nat.succ_pos _, ?_⟩
  · rw [show (s.addFile _).current = none from hcur]
    exact hc.addFile page writable
  · obtain ⟨hne, hm'⟩ := not_or.mp fun h => hm (mem_cons.mpr h)
    rw [show (s.addFile _).handles n = s.handles n from update_of_ne hne ..] at hn
    exact .inl (hset n h hn hm')
  · rw [show (s.addFile _).current = none from hcur] at hr
    cases hr
  · exact (update_of_ne hpos.1.ne _ _).trans hpos.2

/-- What a request touches is not held back: a write meets nothing unsent of another handle,
and an open with `O_TRUNC` meets nothing unsent at all. -/
def InOrder (s : Shared) : Action → Prop
  | .openFile _ writable trunc =>
    writable = true → trunc = true → ∀ m < s.next, ∀ h ∈ s.handles m, h.Settled
  | .write n off data =>
    ∀ m < s.next, m ≠ n → ∀ h ∈ s.handles m, ∀ i < data.length, ¬ h.Covers (off + i)
  | _ => True

instance (h : Handle) : Decidable h.Settled := inferInstanceAs (Decidable (_ ∧ _))

instance (h : Handle) (i : ℕ) : Decidable (h.Covers i) := inferInstanceAs (Decidable (_ ∨ _))

instance (s : Shared) (a : Action) : Decidable (s.InOrder a) := by
  unfold InOrder
  split <;> infer_instance

/-- A request on an open handle arrives while none is being served. -/
theorem Coherent.requested {s₁ s' : Shared} {req : ℕ → Request} (hc : Coherent file s)
    (hs : (if s.current.isSome ∨ n ∉ s.opened then none else s₁.request o n e req) = some s')
    (hgo : ∀ h q, n ∈ s.opened → Calm (s.log.foldl Op.apply file) s → s.Spent →
      s₁.handles n = some h → h.step o e = some q →
      Coherent file (((s₁.put n q).serving (some (req h.books.next))).answer o).sweep) :
      Coherent file s' := by
  obtain ⟨hcur, hs⟩ := ite_none_left_eq_some.mp hs
  obtain ⟨hcur, hopen⟩ := not_or.mp hcur
  obtain ⟨h, hn, hs⟩ := bind_eq_some_iff.mp hs
  obtain ⟨q, hr, rfl⟩ := map_eq_some_iff.mp hs
  exact hgo h q (not_not.mp hopen) (hc.calm hcur).1 (hc.calm hcur).2 hn hr

/-- **One step keeps the peer file, with what is held back, equal to the plain file.** -/
theorem Coherent.step {a : Action} {s' : Shared} (hc : Coherent file s)
    (ha : s.InOrder a ∧ a.succeeds = true) (hs : s.step o a = some s') : Coherent file s' := by
  cases a with
  | openFile page writable trunc =>
    simp only [Shared.step] at hs
    split_ifs at hs with hcur htr
    all_goals
      obtain ⟨hcalm, hset⟩ := hc.calm hcur
      have hnone : s.current = none := by simpa using hcur
      rw [← some.inj hs]
    · rw [Bool.and_eq_true] at htr
      have hall : ∀ n h, s.handles n = some h → h.Settled := fun n h hn =>
        ha.1 htr.1 htr.2 n (hcalm.fit n h hn).2 h hn
      refine coherent_of_addFile (s := (s.truncateTo 0).record (.truncate 0)) ?_ hnone hset hc.pos
        page writable
      rw [foldl_record]
      exact (hcalm.truncateTo hall 0).record _
    · exact coherent_of_addFile hcalm hnone hset hc.pos page writable
  | write n off data =>
    refine hc.requested hs fun h q hopen hcalm hset hn hr => ?_
    refine coherent_of_request (.start hcalm hopen hn hr ?_)
      (fun m g _ hg hm => hset m g hg hm) (fun hm => absurd hopen hm) (hc.pos.put hn _)
    intro m g hm hg i hi hgi
    have := ha.1 m (hcalm.fit m g hg).2 hm g hg (i - off)
    rw [Write.Covers] at hi
    simp only at hi
    exact this (by omega) (by rwa [Nat.add_sub_cancel' hi.1])
  | flush n sync =>
    refine hc.requested hs fun h q hopen hcalm hset hn hr => ?_
    obtain rfl := some.inj
      (show some (h.number.callFlush o h.books.next (.flush sync h.books.acked), []) =
      some q from hr)
    have hp : Progress _ _ (some (.flush n h.books.next)) := hcalm.call hn rfl rfl rfl hr
    exact coherent_of_request hp
      (fun m g _ hg hm => hset m g hg hm) (fun hm => absurd hopen hm) (hc.pos.put hn _)
  | release n =>
    refine hc.requested hs fun h q _ hcalm hset hn hr => ?_
    obtain rfl := some.inj
      (show some (h.number.callFlush o h.books.next .path, []) = some q from hr)
    have hcalm' : Calm ((s.doom n).log.foldl Op.apply file) (s.doom n) :=
      { hcalm with }
    have hp : Progress _ _ (some (.release n h.books.next)) := hcalm'.call hn rfl rfl rfl hr
    refine coherent_of_request hp
      (fun m g hm hg hdoom => hset m g hg fun hmem => hdoom ?_) (fun _ => ⟨_, rfl⟩)
      (.put (s := s.doom n) hc.pos hn _)
    exact mem_filter.mpr ⟨hmem, by simpa using hm⟩
  | setAttr size =>
    simp only [Shared.step] at hs
    split_ifs at hs with hcur
    obtain ⟨hcalm, hset⟩ := hc.calm hcur
    rw [← some.inj hs]
    refine .sweep (flushPath_coherent hc.pos.1 hcalm (fun m hm g hg => ?_) hset hc.pos)
    rw [Nat.le_zero.mp hm, hc.pos.2] at hg
    cases hg
  | goOn n e =>
    simp only [Shared.step] at hs
    obtain ⟨h, hn, hs⟩ := bind_eq_some_iff.mp hs
    split_ifs at hs with he
    obtain ⟨q, hr, rfl⟩ := map_eq_some_iff.mp hs
    exact .sweep (answer_coherent (hc.progress.put hn ha.2 he hr)
      (hc.released.put hc.progress hn ha.2 he hr) (hc.pos.put hn q))

/-- A path with no open file. -/
def closed (file : List UInt8) : Shared := { peer := file }

theorem Coherent.closed (file : List UInt8) : Coherent file (Shared.closed file) where
  progress := ⟨fun _ _ hn => absurd hn (by simp [Shared.closed]),
    fun _ _ hn => absurd hn (by simp [Shared.closed]), .of_empty (fun _ _ hp => absurd hp (by
      simp [Shared.windows, Shared.closed])) file⟩
  released _ _ hn := absurd hn (by simp [Shared.closed])
  suspended _ hr := absurd hr (by simp [Shared.closed])
  pos := ⟨Nat.one_pos, rfl⟩

/-- **Requests through several handles keep their order.**  Files are opened on one path, with
or without `O_TRUNC`, and written, flushed, cut and released, each request when the one before
it has been answered; nothing fails.  When every handle has been released the peer file is the
one the answered requests make, carried out in turn: in every run in which no write meets bytes
that another handle holds back, and no open with `O_TRUNC` meets any. -/
theorem released_file_in_order {as : List Action} {s : Shared}
    (hok : ∀ a ∈ as, a.succeeds = true) (hu : Runs.Meets (step o) InOrder (closed file) as)
    (hrun : Runs.exec (step o) (closed file) as = some s) (hreleased : s.opened = [])
    (hanswered : s.current = none) : s.peer = s.log.foldl Op.apply file := by
  have hc : Coherent file s :=
    Runs.exec_invariant (I := Coherent file) Coherent.step (.closed file) (hu.and_events hok) hrun
  obtain ⟨hcalm, hset⟩ := hc.calm (by rw [hanswered]; simp)
  exact (hcalm.eq_peer fun n h hn => hset n h hn (by rw [hreleased]; simp)).1.symm

/-- Two handles write next to each other, and are released in the other order. -/
def besideEachOther : List Action :=
  [.openFile 4 true false, .openFile 4 true true, .write 1 0 [1, 1], .write 2 4 [2], .release 2,
    .goOn 2 (.session 1 (some 4)), .goOn 2 (.wrote 1 true 0), .setAttr 6,
    .goOn 1 (.session 1 (some 4)), .goOn 1 (.wrote 1 true 0), .release 1]

theorem released_file_in_order_beside_each_other :
    ∃ s, Runs.exec (step ⟨100⟩) (closed [7]) besideEachOther = some s ∧
      s.log = [.truncate 0, .write 0 [1, 1], .write 4 [2], .truncate 6] ∧
      s.peer = s.log.foldl Op.apply [7] := by
  have hok : ∀ a ∈ besideEachOther, a.succeeds = true := by decide
  have hu : Runs.Meets (step ⟨100⟩) InOrder (closed [7]) besideEachOther := by decide
  exact ⟨_, rfl, rfl, released_file_in_order hok hu rfl rfl rfl⟩

/-- **A release reverses two writes.**  Two handles write the same byte; the one that wrote it
last is released first, so that the peer ends with the byte of the other. -/
theorem release_reverses_writes :
    ∃ s, Runs.exec (step ⟨100⟩) (closed [])
        [.openFile 4 true false, .openFile 4 true false, .write 1 0 [1], .write 2 0 [2],
          .release 2, .goOn 2 (.session 1 (some 4)), .goOn 2 (.wrote 1 true 0),
          .release 1, .goOn 1 (.session 1 (some 4)), .goOn 1 (.wrote 1 true 0)] = some s ∧
      s.opened = [] ∧ s.current = none ∧ s.log = [.write 0 [1], .write 0 [2]] ∧
      s.peer = [1] ∧ s.peer ≠ s.log.foldl Op.apply [] :=
  ⟨_, rfl, rfl, rfl, rfl, rfl, by decide⟩

end Shared

end Rail.Fuse
