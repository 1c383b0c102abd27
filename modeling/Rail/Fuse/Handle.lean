import Rail.Foundation.ByteFile
import Rail.Foundation.Runs
import Mathlib.Logic.Function.Basic

/-!
# The write side of an open file

`src/fuse/mount.cc`: `doWrite`, `doFlush`, `flushPending`, `flushOnce` and `drainPending`,
for one open `File` of `include/rail/fuse/files.h`, with the `Gate` of
`include/rail/vfs/remotes.h` they queue at.

The functions are coroutines.  Between two suspension points a coroutine runs alone, so a
step of the model is one such stretch: from the arrival of a request, or from the answer
a suspended coroutine waits for, to the next suspension.  What a coroutine keeps while it
is suspended is its `Frame`: who called `flushPending` (`Caller`), and how far that call
has come (`Phase`).  The events carry everything the program does not decide: which
requests arrive, in which order suspended coroutines go on, and what the peer answers.

`reserve` never fails for want of memory, since `AddressSpace::claim` falls back to the
heap; it fails only where the window holds bytes and is too small.  A `Space` is therefore
its number of pages, their size, and the bytes in use (`PendingLen`, `DrainingLen`).

`Books` is not state of the program.  It records which writes have their bytes in which
window and what was answered, so that properties of whole runs can be stated; no decision
of the model reads it, apart from the number of a new task.  What the peer was given is
recorded where it is given, in `Mounted.step`.
-/

namespace Rail.Fuse

open Function ByteFile

/-- The mount options the write path reads. -/
structure Options where
  /-- `WriteChunk`: a window with this many bytes is flushed. -/
  writeChunk : ℕ

/-- A write request, numbered by its arrival. -/
structure Write where
  id : ℕ
  off : ℕ
  data : List UInt8
  deriving DecidableEq

/-- An `AddressSpace` used as a write window: its pages, and the bytes in use. -/
structure Space where
  pages : ℕ := 0
  pageSize : ℕ := 0
  bytes : List UInt8 := []
  deriving DecidableEq

/-- `AddressSpace::capacity`. -/
def Space.capacity (s : Space) : ℕ := s.pages * s.pageSize

/-- `AddressSpace::claim` of `count` pages, which drops what the space held. -/
def Space.claim (pageSize count : ℕ) : Space :=
  if pageSize = 0 ∨ count = 0 then {} else ⟨count, pageSize, []⟩

/-- The fields of `File` that the write path reads. -/
structure File where
  page : ℕ
  writable : Bool := true
  writeFailed : Bool := false
  flushing : Bool := false
  writeBase : ℕ := 0
  pending : Space := {}
  draining : Space := {}
  deriving DecidableEq

/-- `Gate`: the coroutines waiting for it, in order. -/
structure Gate where
  held : Bool := false
  waiting : List ℕ := []
  deriving DecidableEq

/-- Who called `flushPending`, and so what is done when it returns. -/
inductive Caller where
  /-- `doWrite`, whose offset does not continue the window. -/
  | move (w : Write)
  /-- `doWrite`, for which the window has no room. -/
  | room (w : Write)
  /-- `doWrite`, whose bytes are in, with both windows busy. -/
  | full (w : Write)
  /-- `drainPending`. -/
  | drain
  /-- `doFlush`; `before` are the writes acknowledged when it was requested. -/
  | flush (sync : Bool) (before : List Write)
  /-- `flushPath` or `doRelease`, which go on elsewhere. -/
  | path
  deriving DecidableEq

/-- How far `flushOnce` has come. -/
inductive Stage where
  /-- Waiting for a session. -/
  | session
  /-- In `storeFrom`, with the ranges of the window that have reached the peer. -/
  | streamed (slice : ℕ) (arrived : List (ℕ × ℕ))
  /-- In the loop of ranged writes, with `Done` bytes accepted. -/
  | ranged (slice done : ℕ)
  deriving DecidableEq

/-- How far a call of `flushPending` has come. -/
inductive Phase where
  /-- Waiting at the gate. -/
  | queued
  /-- Handed the gate, and scheduled. -/
  | woken
  /-- In `flushOnce`, with the `Base` and `Length` it was called with. -/
  | flight (base length : ℕ) (stage : Stage)
  /-- `doFlush` past its flush, waiting for `fsync`. -/
  | syncing
  deriving DecidableEq

/-- A suspended coroutine. -/
structure Frame where
  caller : Caller
  phase : Phase
  deriving DecidableEq

/-- What a request was answered. -/
inductive Reply where
  | wrote (w : Write)
  | refused (w : Write)
  /-- `doFlush` answered success; `before` as in `Caller.flush`, and what the peer has
  accepted by now. -/
  | flushed (task : ℕ) (before accepted : List Write)
  | flushFailed (task : ℕ)
  | pathFlushed (task : ℕ) (ok : Bool)
  deriving DecidableEq

/-- The record of a run. -/
structure Books where
  /-- The number of the next task. -/
  next : ℕ := 0
  requested : List Write := []
  acked : List Write := []
  /-- The writes whose bytes are in the pending window, in the one being flushed, and in
  windows whose flush has succeeded. -/
  pending : List Write := []
  draining : List Write := []
  accepted : List Write := []
  /-- Every write whose bytes went into a window, in that order. -/
  placed : List Write := []
  /-- Where the window being flushed starts. -/
  drainBase : ℕ := 0
  replies : List Reply := []
  deriving DecidableEq

/-- One open file, with the coroutines suspended on it. -/
structure Handle where
  file : File
  gate : Gate := {}
  frames : ℕ → Option Frame := fun _ => none
  books : Books := {}

namespace Handle

/-! ## Pieces of the state -/

variable (h : Handle)

/-- A new task takes the next number. -/
def number : Handle := { h with books := { h.books with next := h.books.next + 1 } }

def request (w : Write) : Handle :=
  { h with books := { h.books with requested := h.books.requested ++ [w] } }

def reply (r : Reply) : Handle :=
  { h with books := { h.books with replies := h.books.replies ++ [r] } }

/-- `fuse_reply_write`. -/
def acknowledge (w : Write) : Handle :=
  { h with books := { h.books with
    acked := h.books.acked ++ [w], replies := h.books.replies ++ [.wrote w] } }

def park (t : ℕ) (f : Frame) : Handle :=
  { h with frames := Function.update h.frames t (some f) }

def unpark (t : ℕ) : Handle :=
  { h with frames := Function.update h.frames t none }

@[simp] theorem park_frames_self (t : ℕ) (f : Frame) : (h.park t f).frames t = some f := by
  unfold park
  exact update_self ..

variable {t u : ℕ}

theorem park_frames_of_ne (f : Frame) (hu : u ≠ t) : (h.park t f).frames u = h.frames u := by
  unfold park
  exact update_of_ne hu ..

@[simp] theorem unpark_frames_self (t : ℕ) : (h.unpark t).frames t = none := by
  unfold unpark
  exact update_self ..

theorem unpark_frames_of_ne (hu : u ≠ t) : (h.unpark t).frames u = h.frames u := by
  unfold unpark
  exact update_of_ne hu ..

variable {h}

/-- After parking a coroutine a frame is the one parked, or another's. -/
theorem park_frames_eq_some {f g : Frame} (hu : (h.park t f).frames u = some g) :
    (u = t ∧ g = f) ∨ (u ≠ t ∧ h.frames u = some g) := by
  by_cases hut : u = t
  · rw [hut, park_frames_self] at hu
    exact .inl ⟨hut, (Option.some.inj hu).symm⟩
  · rw [park_frames_of_ne _ f hut] at hu
    exact .inr ⟨hut, hu⟩

/-- After a coroutine has left, a frame is another's. -/
theorem unpark_frames_eq_some {g : Frame} (hu : (h.unpark t).frames u = some g) :
    u ≠ t ∧ h.frames u = some g := by
  by_cases hut : u = t
  · rw [hut, unpark_frames_self] at hu
    cases hu
  · rw [unpark_frames_of_ne _ hut] at hu
    exact ⟨hut, hu⟩

variable (h)

/-- `WriteFailed = true`. -/
def fail : Handle := { h with file := { h.file with writeFailed := true } }

/-- `WriteBase = Off`. -/
def rebase (off : ℕ) : Handle := { h with file := { h.file with writeBase := off } }

/-- `Gate::take` by a coroutine that does not wait for it. -/
def grab : Handle := { h with gate := { h.gate with held := true } }

/-- `Gate::take` by a coroutine that does. -/
def enqueue (t : ℕ) : Handle :=
  { h with gate := { h.gate with waiting := h.gate.waiting ++ [t] } }

/-- `Gate::give`: the gate goes to the first waiter, or is free. -/
def give : Handle :=
  match h.gate.waiting with
  | [] => { h with gate := { h.gate with held := false } }
  | t :: ts =>
    { h with
      gate := { h.gate with waiting := ts }
      frames := Function.update h.frames t
        ((h.frames t).map fun f => { f with phase := .woken }) }

/-! ## `flushPending` -/

/-- The windows change places, and the new pending one starts where the other ends. -/
def swap : Handle :=
  { h with
    file := { h.file with
      pending := { h.file.draining with bytes := [] }
      draining := h.file.pending
      writeBase := h.file.writeBase + h.file.pending.bytes.length
      flushing := true }
    books := { h.books with
      pending := [], draining := h.books.pending, drainBase := h.file.writeBase } }

/-- What follows `flushOnce`, up to giving the gate back. -/
def settle (ok : Bool) : Handle :=
  { h with
    file := { h.file with
      draining := { h.file.draining with bytes := [] }
      flushing := false
      writeFailed := h.file.writeFailed || !ok }
    books := { h.books with
      draining := []
      accepted := if ok then h.books.accepted ++ h.books.draining else h.books.accepted } }

/-- `flushPending` from the gate on.  `some ok` is a return, `none` a suspension in
`flushOnce` with the windows swapped. -/
def takeWindow (t : ℕ) (c : Caller) : Handle × Option Bool :=
  if h.file.pending.bytes = [] then (h.grab.give, some true)
  else (h.grab.swap.park t ⟨c, .flight h.file.writeBase h.file.pending.bytes.length .session⟩, none)

variable {h} in
theorem takeWindow_of_nil (hp : h.file.pending.bytes = []) (t : ℕ) (c : Caller) :
    h.takeWindow t c = (h.grab.give, some true) := if_pos hp

variable {h} in
theorem takeWindow_of_ne_nil (hp : h.file.pending.bytes ≠ []) (t : ℕ) (c : Caller) :
    h.takeWindow t c = (h.grab.swap.park t
      ⟨c, .flight h.file.writeBase h.file.pending.bytes.length .session⟩, none) := if_neg hp

/-- `flushPending` from its start. -/
def startFlush (t : ℕ) (c : Caller) : Handle × Option Bool :=
  if h.file.writeFailed then (h, some false)
  else if h.file.pending.bytes = [] ∧ h.file.flushing = false then (h, some true)
  else if h.gate.held then ((h.enqueue t).park t ⟨c, .queued⟩, none)
  else h.takeWindow t c

/-- `flushPending` after `flushOnce` has returned `ok`. -/
def finishFlush (t : ℕ) (ok : Bool) : Handle := ((h.unpark t).settle ok).give

/-! ## `doWrite` -/

/-- The pending window gets new pages. -/
def claim (space : Space) : Handle :=
  { h with file := { h.file with pending := space } }

/-- The bytes of a write go into the pending window, behind those it holds. -/
def put (w : Write) : Handle :=
  { h with
    file := { h.file with
      pending := { h.file.pending with bytes := h.file.pending.bytes ++ w.data } }
    books := { h.books with
      pending := h.books.pending ++ [w], placed := h.books.placed ++ [w] } }

variable (o : Options) (h : Handle)

/-- `reserve(*F, F->Pending, WriteChunk + Wrote, F->PendingLen)`. -/
def reserve (w : Write) : Handle × Bool :=
  let room := o.writeChunk + w.data.length
  if room ≤ h.file.pending.capacity ∧ h.file.pending.pageSize = h.file.page then (h, true)
  else if h.file.pending.bytes ≠ [] then (h, false)
  else
    let space := Space.claim h.file.page ((room + h.file.page - 1) / h.file.page)
    (h.claim space, room ≤ space.capacity)

/-- `spawn(M, drainPending(M, Handle))`: a new coroutine, run up to its first suspension. -/
def spawnDrain : Handle :=
  match h.number.startFlush h.books.next .drain with
  | (h, some false) => h.fail
  | (h, _) => h

/-- The end of `doWrite`, with the bytes in the window. -/
def afterAppend (w : Write) : Handle :=
  if o.writeChunk ≤ h.file.pending.bytes.length then
    if h.file.flushing then
      match h.startFlush w.id (.full w) with
      | (h, some true) => h.acknowledge w
      | (h, some false) => h.reply (.refused w)
      | (h, none) => h
    else h.spawnDrain.acknowledge w
  else h.acknowledge w

/-- `append`, which fails where the window ends.  A write of nothing leaves no bytes to
keep books of. -/
def appendData (w : Write) : Handle :=
  if w.data = [] then h.afterAppend o w
  else if h.file.pending.bytes.length + w.data.length ≤ h.file.pending.capacity then
    (h.put w).afterAppend o w
  else h.reply (.refused w)

/-- `doWrite` after the flush that was to make room. -/
def afterRoom (w : Write) : Handle :=
  match (h.rebase w.off).reserve o w with
  | (h, true) => h.appendData o w
  | (h, false) => h.reply (.refused w)

/-- `doWrite` from its first `reserve` on. -/
def reserveAppend (w : Write) : Handle :=
  match h.reserve o w with
  | (h, true) => h.appendData o w
  | (h, false) =>
    match h.startFlush w.id (.room w) with
    | (h, some true) => h.afterRoom o w
    | (h, some false) => h.reply (.refused w)
    | (h, none) => h

/-- `doWrite`. -/
def doWrite (w : Write) : Handle :=
  if h.file.writable = false ∨ h.file.writeFailed then h.reply (.refused w)
  else if h.file.pending.bytes = [] then (h.rebase w.off).reserveAppend o w
  else if w.off ≠ h.file.writeBase + h.file.pending.bytes.length then
    match h.startFlush w.id (.move w) with
    | (h, some true) => (h.rebase w.off).reserveAppend o w
    | (h, some false) => h.reply (.refused w)
    | (h, none) => h
  else h.reserveAppend o w

/-- What the caller of `flushPending` does with its result. -/
def resume (t : ℕ) (ok : Bool) : Caller → Handle
  | .move w => if ok then (h.rebase w.off).reserveAppend o w else h.reply (.refused w)
  | .room w => if ok then h.afterRoom o w else h.reply (.refused w)
  | .full w => if ok then h.acknowledge w else h.reply (.refused w)
  | .drain => if ok then h else h.fail
  | .flush sync before =>
    if ok then
      if sync ∧ h.file.writable then h.park t ⟨.flush sync before, .syncing⟩
      else h.reply (.flushed t before h.books.accepted)
    else h.reply (.flushFailed t)
  | .path => h.reply (.pathFlushed t ok)

/-- Call `flushPending` and go on with its result when it returns at once. -/
def callFlush (t : ℕ) (c : Caller) : Handle :=
  match h.startFlush t c with
  | (h, some ok) => h.resume o t ok c
  | (h, none) => h

end Handle

/-! ## Steps -/

/-- What happens next: a request arrives, or an answer reaches a suspended coroutine. -/
inductive Event where
  | write (off : ℕ) (data : List UInt8)
  | flush (sync : Bool)
  | path
  /-- The loop resumes the coroutine that was handed the gate. -/
  | wake (t : ℕ)
  /-- `heldFor` answers: a session, with its `maxTransfer`, or an error. -/
  | session (t : ℕ) (slice : Option ℕ)
  /-- A part of a streamed store reaches the peer. -/
  | arrive (t k n : ℕ)
  /-- `storeFrom` returns. -/
  | stored (t : ℕ) (ok : Bool)
  /-- A ranged write returns; of one that fails, the peer has put `part` bytes. -/
  | wrote (t : ℕ) (ok : Bool) (part : ℕ)
  /-- `heldFor` and `fsync` of `doFlush` return. -/
  | synced (t : ℕ) (ok : Bool)
  deriving DecidableEq

/-- No answer of the event is a failure. -/
def Event.succeeds : Event → Bool
  | .session _ slice => slice.isSome
  | .stored _ ok | .wrote _ ok _ | .synced _ ok => ok
  | _ => true

/-- The ranges cover `[0, length)`: what a store that is answered with success has put. -/
def covered (arrived : List (ℕ × ℕ)) (length : ℕ) : Bool :=
  (List.range length).all fun i => arrived.any fun r => r.1 ≤ i && i < r.1 + r.2

namespace Handle

variable (h : Handle)

/-- The length of the next ranged write: never more than a transfer, what is left, or the
rest of the page it starts in (`AddressSpace::at`). -/
def piece (length slice done : ℕ) : ℕ :=
  min (min slice (length - done)) (h.file.draining.pageSize - done % h.file.draining.pageSize)

variable (o : Options)

/-- `flushOnce` has returned to the task that called `flushPending`. -/
def land (t : ℕ) (c : Caller) (ok : Bool) : Handle :=
  (h.finishFlush t ok).resume o t ok c

/-- One step of `flushOnce`, and what it puts on the peer. -/
def flushStep (t : ℕ) (c : Caller) (base length : ℕ) :
    Stage → Event → Option (Handle × List (ℕ × List UInt8))
  | .session, .session _ none => some (h.land o t c false, [])
  | .session, .session _ (some slice) =>
    let stage := if 2 * slice ≤ length then .streamed slice [] else .ranged slice 0
    some (h.park t ⟨c, .flight base length stage⟩, [])
  | .streamed slice arrived, .arrive _ k n =>
    some (h.park t ⟨c, .flight base length (.streamed slice (arrived ++ [(k, n)]))⟩,
      [(base + k, window k n)])
  | .streamed _ arrived, .stored _ true =>
    if covered arrived length then some (h.land o t c true, []) else none
  | .streamed slice _, .stored _ false =>
    some (h.park t ⟨c, .flight base length (.ranged slice 0)⟩, [])
  | .ranged slice done, .wrote _ ok part =>
    if h.file.draining.capacity ≤ done then some (h.land o t c false, [])
    else
      let n := h.piece length slice done
      if ok then
        some (if length ≤ done + n then h.land o t c true
          else h.park t ⟨c, .flight base length (.ranged slice (done + n))⟩,
          [(base + done, window done n)])
      else some (h.land o t c false, [(base + done, (window done n).take part)])
  | _, _ => none
where
  /-- A range of the window being flushed. -/
  window (k n : ℕ) : List UInt8 := slice h.file.draining.bytes k n

/-- The coroutine an event resumes. -/
def frameOf : Event → Option (ℕ × Frame)
  | .wake t | .session t _ | .arrive t _ _ | .stored t _ | .wrote t _ _ | .synced t _ =>
    (h.frames t).map fun f => (t, f)
  | _ => none

/-- A suspended coroutine goes on. -/
def goOn (t : ℕ) (f : Frame) (e : Event) : Option (Handle × List (ℕ × List UInt8)) :=
  match f.phase with
  | .queued => none
  | .woken =>
    match e with
    | .wake _ =>
      match (h.unpark t).takeWindow t f.caller with
      | (h, some ok) => some (h.resume o t ok f.caller, [])
      | (h, none) => some (h, [])
    | _ => none
  | .flight base length stage => h.flushStep o t f.caller base length stage e
  | .syncing =>
    match f.caller, e with
    | .flush _ before, .synced _ ok =>
      let h := h.unpark t
      some (h.reply (if ok then .flushed t before h.books.accepted else .flushFailed t), [])
    | _, _ => none

/-- A request arrives and runs to its first suspension. -/
def arrive : Event → Option Handle
  | .write off data =>
    some ((h.number.request ⟨h.books.next, off, data⟩).doWrite o ⟨h.books.next, off, data⟩)
  | .flush sync => some (h.number.callFlush o h.books.next (.flush sync h.books.acked))
  | .path => some (h.number.callFlush o h.books.next .path)
  | _ => none

/-- One step of the handle: its new state, and what was put on the peer. -/
def step (e : Event) : Option (Handle × List (ℕ × List UInt8)) :=
  match h.frameOf e with
  | some (t, f) => h.goOn o t f e
  | none => (h.arrive o e).map fun h => (h, [])

end Handle

/-! ## The handle and its peer file -/

/-- An open file and the file of the peer behind it, with what the peer was given so far. -/
structure Mounted where
  handle : Handle
  peer : List UInt8
  taken : List (ℕ × List UInt8) := []

namespace Mounted

/-- The peer takes what a step puts on it. -/
def step (o : Options) (s : Mounted) (e : Event) : Option Mounted :=
  (s.handle.step o e).map fun r => ⟨r.1, pwriteAll s.peer r.2, s.taken ++ r.2⟩

/-- A file just opened for writing. -/
def opened (page : ℕ) (peer : List UInt8) : Mounted := ⟨{ file := { page } }, peer, []⟩

end Mounted

end Rail.Fuse
