import Rail.Foundation.Wire
import Rail.Foundation.Runs
import Mathlib.Data.List.Nodup

/-!
# The TCP data channel

`TcpDataChannel` of `src/transport/tcp-data-channel.cc`.  Payloads share one connection: each is
sent in a frame with its key and its length, and a receiver asks for a key.

There is no task of its own that reads.  Whichever receiver finds nobody reading takes the socket on
and hands every frame to whoever posted its key, until its own has landed; then it gives the socket
up and wakes everyone.  A frame whose key nobody has posted holds the reader up, and a receiver that
posts one wakes it.

A receiver is always at one place: it drives the socket, it is parked (`idle`, or inside
`deliverUntil`), it is scheduled, or it has returned.  The places are kept in its post; the order in
which the loop resumes what is scheduled is left open.
-/

namespace Rail.Transport

open Wire

structure Frame where
  key : UInt64
  payload : Bytes
  deriving DecidableEq

/-- `kHeaderSize`: key and length. -/
def headerSize : ℕ := 12

/-- What `send` writes; the length is cut to 32 bits. -/
def Frame.bytes (f : Frame) : Bytes :=
  List.flatten [Put.u64 f.key, Put.u32 (UInt32.ofNat f.payload.length), f.payload]

/-- What `message` says of an error that `failMessage` makes. -/
def protocolError (context : String) : String := context ++ ": Protocol error"

/-- What `recv` returns; of an error, its `message`. -/
inductive Outcome where
  | landed
  | failed (why : String)
  deriving DecidableEq

/-- Where the coroutine of a receive is. -/
inductive Place where
  /-- In `Idlers`, from the loop of `recv`. -/
  | idle
  /-- Woken there, or about to go round the loop for the first time. -/
  | scheduled
  /-- Reading a header, with what there is of it. -/
  | header (got : Bytes)
  /-- In `Idlers` inside `deliverUntil`, or woken there: the key of the frame was not posted. -/
  | seek (key : UInt64) (length : ℕ) (woken : Bool)
  /-- Reading the payload for one of the receives. -/
  | payload (k : ℕ)
  | returned (r : Outcome)
  deriving DecidableEq

namespace Place

/-- Inside `deliverUntil`. -/
def drives : Place → Bool
  | header _ => true
  | seek _ _ _ => true
  | payload _ => true
  | _ => false

def isReturned : Place → Bool
  | returned _ => true
  | _ => false

/-- Among what the loop resumes. -/
def isScheduled : Place → Bool
  | scheduled => true
  | seek _ _ woken => woken
  | _ => false

/-- What `wakeReaders` does. -/
def woken : Place → Place
  | idle => scheduled
  | seek key length _ => seek key length true
  | p => p

end Place

/-- `Posted`, with what has been read into the buffer, and the place of its receive. -/
structure Posted where
  key : UInt64
  room : ℕ
  into : Bytes := []
  done : Bool := false
  place : Place := .scheduled
  deriving DecidableEq

/-- Both ends of one direction of a connection. -/
structure Channel where
  /-- Senders that wait for their turn. -/
  queue : List Frame := []
  /-- What the one whose turn it is has not written yet. -/
  writing : Bytes := []
  /-- Written and not read. -/
  pipe : Bytes := []
  posts : List Posted := []
  /-- `Reading`, and by which receive. -/
  reader : Option ℕ := none
  failure : Option String := none
  /-- The connection has not been closed or lost. -/
  up : Bool := true
  /-- Every frame given to `send`. -/
  sent : List Frame := []
  deriving DecidableEq

inductive Event where
  | send (f : Frame)
  /-- The next sender has its turn. -/
  | start
  /-- The socket takes some bytes. -/
  | write (n : ℕ)
  | recv (key : UInt64) (length capacity : ℕ)
  /-- The socket gives the reader some bytes. -/
  | read (n : ℕ)
  /-- The loop resumes a receive. -/
  | resume (k : ℕ)
  /-- The reader's socket fails, or ends. -/
  | lose (why : String)
  | close
  deriving DecidableEq

/-- What the channel does by itself: senders write, the reader reads, the loop resumes. -/
def Event.internal : Event → Bool
  | start => true
  | write _ => true
  | read _ => true
  | resume _ => true
  | _ => false

/-- The length of the frame fits its header. -/
def Event.fits : Event → Prop
  | send f => f.payload.length < 2 ^ 32
  | _ => True

instance (e : Event) : Decidable e.fits := by
  cases e <;> unfold Event.fits <;> infer_instance

namespace Channel

variable (s : Channel)

def wake : Channel :=
  { s with posts := s.posts.mapIdx fun _ p => { p with place := p.place.woken } }

def alter (k : ℕ) (f : Posted → Posted) : Channel :=
  { s with posts := s.posts.mapIdx fun j p => if j = k then f p else p }

def moveTo (k : ℕ) (a : Place) : Channel := s.alter k fun p => { p with place := a }

/-- `Waiting.find`: a post is taken out when its receive returns. -/
def waiting (key : UInt64) : Option (Posted × ℕ) :=
  s.posts.zipIdx.find? fun e => e.1.key = key && !e.1.place.isReturned

/-- Once round the loop of `recv`. -/
def pass (k : ℕ) (done : Bool) : Channel :=
  if done then s.moveTo k (.returned .landed)
  else
    match s.failure with
    | some why => s.moveTo k (.returned (.failed (protocolError why)))
    | none =>
      match s.reader with
      | none => { s with reader := some k }.moveTo k (.header [])
      | some _ => s.moveTo k .idle

/-- `deliverUntil` returns to `recv`, which gives the socket up and returns as well: with an error,
or because its own frame has landed. -/
def stop (k : ℕ) (r : Outcome) : Channel := ({ s with reader := none }.wake).moveTo k (.returned r)

/-- `fail`, for the receive that reads. -/
def fail (k : ℕ) (why : String) : Channel :=
  ({ s with failure := some why }.wake).stop k (.failed why)

/-- The frame for `t` has been read by `k`. -/
def land (k t : ℕ) : Channel :=
  if t = k then (s.alter t fun p => { p with done := true }).stop k .landed
  else (s.alter t fun p => { p with done := true }).wake.moveTo k (.header [])

def mismatch (key : UInt64) (length room : ℕ) : String :=
  protocolError s!"frame for key {key} carries {length} bytes against the {room} posted for it"

/-- The rest of `deliverUntil` after a header. -/
def look (k : ℕ) (key : UInt64) (length : ℕ) : Channel :=
  match s.waiting key with
  | none => s.moveTo k (.seek key length false)
  | some (p, t) =>
    if length ≠ p.room then s.fail k (mismatch key length p.room)
    else if length = 0 then (s.alter t fun p => { p with into := [] }).land k t
    else (s.alter t fun p => { p with into := [] }).moveTo k (.payload t)

def start : Option Channel :=
  match s.writing, s.queue with
  | [], f :: rest => some { s with writing := f.bytes, queue := rest }
  | _, _ => none

def write (n : ℕ) : Option Channel :=
  if 0 < n ∧ n ≤ s.writing.length then
    some { s with pipe := s.pipe ++ s.writing.take n, writing := s.writing.drop n }
  else none

def post (key : UInt64) (length : ℕ) : Channel :=
  { s with posts := s.posts ++ [{ key, room := length }] }

/-- A receive of more than its page holds is refused, and so is a second one for a key. -/
def recv (key : UInt64) (length capacity : ℕ) : Channel :=
  if capacity < length then s
  else if (s.waiting key).isSome then s
  else (s.post key length).wake.pass s.posts.length false

/-- `readExact` gets some of the bytes it asks for. -/
def read (n : ℕ) : Option Channel :=
  if s.up = true ∧ 0 < n ∧ n ≤ s.pipe.length then
    s.reader.bind fun k =>
    (s.posts[k]?).bind fun r =>
      match r.place with
      | .header got =>
        if got.length + n < headerSize then
          some ({ s with pipe := s.pipe.drop n }.moveTo k (.header (got ++ s.pipe.take n)))
        else if got.length + n = headerSize then
          let h := got ++ s.pipe.take n
          some ({ s with pipe := s.pipe.drop n }.look k (UInt64.ofNat (ofLE (h.take 8)))
            (ofLE ((h.drop 8).take 4)))
        else none
      | .payload t =>
        (s.posts[t]?).bind fun p =>
          let s' := { s with pipe := s.pipe.drop n }.alter t fun p =>
            { p with into := p.into ++ s.pipe.take n }
          if p.into.length + n < p.room then some s'
          else if p.into.length + n = p.room then some (s'.land k t)
          else none
      | _ => none
  else none

def resume (k : ℕ) : Option Channel :=
  (s.posts[k]?).bind fun p =>
    match p.place with
    | .scheduled => some (s.pass k p.done)
    | .seek key length true => some (s.look k key length)
    | _ => none

def lose (why : String) : Option Channel :=
  s.reader.bind fun k =>
  (s.posts[k]?).bind fun p =>
    match p.place with
    | .header _ => some ({ s with up := false }.fail k why)
    | .payload _ => some ({ s with up := false }.fail k why)
    | _ => none

def close : Channel :=
  { s with failure := some (s.failure.getD "channel closed"), up := false }.wake

def step : Event → Option Channel
  | .send f => some { s with queue := s.queue ++ [f], sent := s.sent ++ [f] }
  | .start => s.start
  | .write n => s.write n
  | .recv key length capacity => some (s.recv key length capacity)
  | .read n => s.read n
  | .resume k => s.resume k
  | .lose why => s.lose why
  | .close => some s.close

/-- The keys of the receives are distinct, and those of the frames are. -/
def distinct : Event → Prop
  | .send f => f.key ∉ s.sent.map Frame.key
  | .recv key _ _ => key ∉ s.posts.map Posted.key
  | _ => True

instance (s : Channel) (e : Event) : Decidable (s.distinct e) := by
  cases e <;> unfold distinct <;> infer_instance

end Channel
end Rail.Transport
