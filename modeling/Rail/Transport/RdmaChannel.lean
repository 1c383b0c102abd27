import Rail.Foundation.Wire
import Rail.Foundation.Runs
import Mathlib.Logic.Function.Basic

/-!
# The RDMA data channel

`RdmaDataChannel` of `src/transport/rdma-data-channel.cc`, for one direction: this side receives and
the peer sends.

A receive takes a slot and writes a clear-to-send record, which names its page, into the peer's ring
at that slot.  The peer is told by a completion, copies the record out of its ring when it polls the
completion (`offered`), and holds it until it has a page to send under that key (`harvest`).  It
writes the page where the record says, with the slot as immediate data, and the completion of that
write marks the slot as done.  The receive then returns and the slot is free again.

Writes go out on any of the rails.  A rail keeps the order of the writes in each direction and of
the completions at each end, and two rails have no order between them.  The other direction uses the
same rails with rings, slots and pages of its own; what this one sees of it are writes and
completions that are not for it.

Failures are part of the model: a completion with an error takes the queue pair of its rail down and
sets `Failure`, `close` sets it too, the peer may be gone, and a completion queue may refuse to be
armed.  Each of these ends a receive that waits (`until`), which then frees its slot and hands back
its page.
-/

namespace Rail.Transport.Rdma

open Wire

/-- `Cts`: where the page for a key goes.  The receive it is from is not in the record; it is kept
to tell the receives apart. -/
structure Cts where
  key : UInt64
  /-- `Addr` and `Rkey`. -/
  page : ℕ
  length : ℕ
  slot : ℕ
  owner : ℕ
  deriving DecidableEq, Inhabited

/-- One rail, `Rail` of the source.  A write or a completion of the other direction is `none`. -/
structure Line where
  /-- Records on their way to the peer. -/
  there : List (Option Cts) := []
  /-- Pages on their way from the peer, each with the record it follows. -/
  back : List (Option (Cts × Bytes)) := []
  /-- Completions that the peer has not polled; a record is told by its slot. -/
  peerQueue : List (Option ℕ) := []
  /-- Completions that this side has not polled; a page is told by its slot. -/
  queue : List (Option ℕ) := []
  /-- The queue pair is not in error. -/
  up : Bool := true
  deriving DecidableEq

namespace Line

def postThere (w : Option Cts) (l : Line) : Line :=
  if l.up then { l with there := l.there ++ [w] } else l

def postBack (w : Option (Cts × Bytes)) (l : Line) : Line :=
  if l.up then { l with back := l.back ++ [w] } else l

/-- A completion with an error: what was on its way does not come, what has completed is still in
the queues. -/
def fail (l : Line) : Line := { l with there := [], back := [], up := false }

end Line

/-- How a receive ended. -/
inductive Ending where
  | landed (bytes : Bytes)
  | failed
  deriving DecidableEq

structure Receive where
  key : UInt64
  length : ℕ
  page : ℕ
  slot : ℕ
  ending : Option Ending := none
  deriving DecidableEq

/-- A page that was sent, and the receive whose record it followed. -/
structure Sent where
  owner : ℕ
  key : UInt64
  bytes : Bytes
  deriving DecidableEq

structure State where
  /-- `Free`, with its back at the head. -/
  free : List ℕ
  /-- `Lines`. -/
  lines : List Line
  /-- `Landing[slot].Done`. -/
  done : ℕ → Bool := fun _ => false
  receives : List Receive := []
  /-- The peer's ring, as far as this side writes it. -/
  ring : ℕ → Cts := fun _ => default
  /-- `Held` of the peer: all keys in one list, in the order the records were copied. -/
  held : List Cts := []
  /-- The pages of the pool. -/
  memory : ℕ → Bytes := fun _ => []
  /-- Every page that was sent. -/
  sends : List Sent := []
  /-- `Failure` is set. -/
  failed : Bool := false
  /-- The peer has closed its end of the control channel. -/
  gone : Bool := false

inductive Event where
  /-- `posted`: the record could be posted. -/
  | recv (key : UInt64) (length page rail : ℕ) (posted : Bool)
  /-- The peer sends a page for a key that it holds a record of; `posted` as above. -/
  | send (key : UInt64) (bytes : Bytes) (rail : ℕ) (posted : Bool)
  /-- A write reaches the peer, or this side. -/
  | toPeer (rail : ℕ)
  | toHere (rail : ℕ)
  /-- The peer polls a completion, or this side does. -/
  | pollPeer (rail : ℕ)
  | poll (rail : ℕ)
  /-- `until` of a receive finds that its page has landed. -/
  | finish (k : ℕ)
  /-- It finds a failure, or the peer gone, or cannot ask for events (`armed`). -/
  | giveUp (k : ℕ) (armed : Bool)
  /-- A write of the other direction. -/
  | foreignThere (rail : ℕ)
  | foreignBack (rail : ℕ)
  /-- Whoever has a page writes into it. -/
  | fill (page : ℕ) (bytes : Bytes)
  /-- A completion with an error. -/
  | error (rail : ℕ)
  | close
  | vanish
  deriving DecidableEq

namespace State

/-- `start`, with the slots and the rails. -/
def start (slots rails : ℕ) : State where
  free := List.range slots
  lines := List.replicate rails {}

variable (s : State)

/-- The page belongs to a receive that has not returned. -/
def lent (page : ℕ) : Bool := s.receives.any fun r => r.ending.isNone && r.page = page

def onLine (i : ℕ) (f : Line → Line) : State := { s with lines := s.lines.modify i f }

/-- What a write puts at the start of a page. -/
def overwrite (old bytes : Bytes) : Bytes := bytes ++ old.drop bytes.length

/-- `recv` up to its wait. -/
def recv (key : UInt64) (length page rail : ℕ) (posted : Bool) : Option State :=
  match s.free with
  | [] => none
  | slot :: rest =>
    if s.lent page = false ∧ rail < s.lines.length then
      let r : Receive := { key, length, page, slot }
      let c : Cts := { key, page, length, slot, owner := s.receives.length }
      if posted then
        some ({ s with free := rest, done := Function.update s.done slot false, receives :=
          s.receives ++ [r] }.onLine rail (.postThere (some c)))
      else some { s with receives := s.receives ++ [{ r with ending := some .failed }] }
    else none

/-- `send` once `claim` has a record: a page that is too large for the room, or that cannot be
posted, is not sent, and the record is gone. -/
def send (key : UInt64) (bytes : Bytes) (rail : ℕ) (posted : Bool) : Option State :=
  if rail < s.lines.length then
    (s.held.find? fun c => c.key = key).map fun c =>
      let held := s.held.eraseP fun c => c.key = key
      if bytes.length ≤ c.length ∧ posted = true then
        { s with held, sends := s.sends ++ [Sent.mk c.owner key bytes] }.onLine rail
          (.postBack (some (c, bytes)))
      else { s with held }
  else none

def toPeer (i : ℕ) : Option State :=
  (s.lines[i]?).bind fun l =>
    match l.there with
    | [] => none
    | none :: rest =>
        some (s.onLine i fun l => { l with there := rest, peerQueue := l.peerQueue ++ [none] })
    | some c :: rest =>
      some ({ s with ring := Function.update s.ring c.slot c }.onLine i fun l =>
        { l with there := rest, peerQueue := l.peerQueue ++ [some c.slot] })

def toHere (i : ℕ) : Option State :=
  (s.lines[i]?).bind fun l =>
    match l.back with
    | [] => none
    | none :: rest => some (s.onLine i fun l => { l with back := rest, queue := l.queue ++ [none] })
    | some (c, bytes) :: rest =>
      some ({ s with memory := Function.update s.memory c.page (overwrite (s.memory c.page) bytes)
        }.onLine i fun l =>
        { l with back := rest, queue := l.queue ++ [some c.slot] })

/-- `driveOne` of the peer, and `offered`: the record is what the ring holds now. -/
def pollPeer (slots : ℕ) (s : State) (i : ℕ) : Option State :=
  (s.lines[i]?).bind fun l =>
    match l.peerQueue with
    | [] => none
    | note :: rest =>
      let t := s.onLine i fun l => { l with peerQueue := rest }
      match note with
      | some slot => some (if slot < slots then { t with held := t.held ++ [t.ring slot] } else t)
      | none => some t

/-- `driveOne` of this side. -/
def poll (slots : ℕ) (s : State) (i : ℕ) : Option State :=
  (s.lines[i]?).bind fun l =>
    match l.queue with
    | [] => none
    | note :: rest =>
      let t := s.onLine i fun l => { l with queue := rest }
      match note with
      | some slot =>
          some (if slot < slots then { t with done := Function.update t.done slot true } else t)
      | none => some t

/-- `freeSlot`, and the end of the receive. -/
def finishWith (k : ℕ) (r : Receive) (e : Ending) : State :=
  { s with
    free := r.slot :: s.free
    done := Function.update s.done r.slot false
    receives := s.receives.modify k fun r => { r with ending := some e } }

def finish (k : ℕ) : Option State :=
  (s.receives[k]?).bind fun r =>
    if r.ending = none ∧ s.done r.slot = true then
      some (s.finishWith k r (.landed ((s.memory r.page).take r.length)))
    else none

/-- `until` looks for the page before it looks for a failure, and does not when the peer is gone. -/
def giveUp (k : ℕ) (armed : Bool) : Option State :=
  (s.receives[k]?).bind fun r =>
    if r.ending = none ∧ (s.gone = true ∨ (s.failed = true ∨ armed = false) ∧
      s.done r.slot = false) then
      some (s.finishWith k r .failed)
    else none

def step (slots : ℕ) (s : State) : Event → Option State
  | .recv key length page rail posted => s.recv key length page rail posted
  | .send key bytes rail posted => s.send key bytes rail posted
  | .toPeer i => s.toPeer i
  | .toHere i => s.toHere i
  | .pollPeer i => s.pollPeer slots i
  | .poll i => s.poll slots i
  | .finish k => s.finish k
  | .giveUp k armed => s.giveUp k armed
  | .foreignThere i => some (s.onLine i (.postThere none))
  | .foreignBack i => some (s.onLine i (.postBack none))
  | .fill page bytes =>
      if s.lent page then none else some { s with memory := Function.update s.memory page bytes }
  | .error i => some { s.onLine i .fail with failed := true }
  | .close => some { s with failed := true }
  | .vanish => some { s with gone := true }

end State
end Rail.Transport.Rdma
