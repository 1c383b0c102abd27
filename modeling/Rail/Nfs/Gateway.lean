import Rail.Foundation.Runs
import Rail.Memory.Window
import Mathlib.Logic.Function.Basic

/-!
# The read windows of the NFS gateway

`src/nfs/server.cc`, one `Session`: `onRead`, `onWindowedRead` and `fillWindow`, with `windowFor`
and `forget`, and the handlers that change a file, `onWrite`, `onSetAttr` with a size and
`onCreate`.

The handlers of a session are coroutines that run beside each other, and a step of the model is one
stretch of one of them, or one moment at which the daemon serves a request.  The daemon gives each
name a file and each file its successive contents, so that what was read can be told from what is
there now; which name means which file may change at any time, by the handlers that are not modelled
here.  What a suspended handler keeps is its `Frame`.

A window belongs to a path.  It has two buffers: a fill goes into the one behind and then swaps
them, so that replies can still be sent out of the one in front.  A reply points into the buffer's
memory until it has been sent, so it is read out of it only then (`sent`), and a fill waits until
nothing is being sent from the buffer it fills.  `Users` and `Sending` are counts in the code; here
they are the lists of the calls that are counted.

`known`, `settled`, `acked`, `reads` and the tags record where bytes come from and which changes had
been answered when a read arrived.  No decision of the model depends on them.
-/

namespace Rail.Nfs

open ByteFile Memory

/-- `Readahead`, the largest transfer of a session, and `readCeiling`. -/
structure ExportOptions where
  readahead : ℕ
  transfer : ℕ
  ceiling : ℕ

/-- A read by the daemon: the name, the file it was, and its content then. -/
structure Tag where
  path : String
  file : ℕ
  version : ℕ
  content : List UInt8
  deriving DecidableEq

/-- A change made by the daemon: the file, and which of its contents was the result. -/
structure Change where
  file : ℕ
  version : ℕ
  deriving DecidableEq

/-- What WRITE, SETATTR and CREATE ask for. -/
inductive ChangeOp where
  | write (off : ℕ) (data : List UInt8)
  | resize (n : ℕ)
  | create
  deriving DecidableEq

def ChangeOp.apply (content : List UInt8) : ChangeOp → List UInt8
  | .write off data => pwrite content off data
  | .resize n => truncate content n
  | .create => []

/-- A READ, with the changes answered before it arrived. -/
structure ReadCall where
  path : String
  off : ℕ
  count : ℕ
  known : List Change
  deriving DecidableEq

/-- The bytes of a reply, its `eof`, and the read they are from; none where the daemon was not
asked. -/
structure Answer where
  bytes : List UInt8
  eof : Bool
  tag : Option Tag
  deriving DecidableEq

structure Replied where
  call : ReadCall
  answer : Answer
  deriving DecidableEq

/-! ## Buffers and windows -/

structure Buffer where
  window : Window := {}
  sending : List ℕ := []
  tag : Option Tag := none
  deriving DecidableEq

def Buffer.forget (b : Buffer) : Buffer :=
  { b with window := { b.window with valid := 0, path := "" } }

/-- The window of one file.  `last` is the field `End`; `filling` is the call that holds the gate
`Filling`. -/
structure Cached where
  path : String := ""
  last : ℕ := 0
  used : ℕ := 0
  users : List ℕ := []
  filling : Option ℕ := none
  waiting : List ℕ := []
  left : Buffer := {}
  right : Buffer := {}
  front : Bool := false
  deriving DecidableEq

namespace Cached

variable (c : Cached)

def buffer (side : Bool) : Buffer := if side then c.right else c.left

def setBuffer (side : Bool) (b : Buffer) : Cached :=
  if side then { c with right := b } else { c with left := b }

def window (c : Cached) : Window := (c.buffer c.front).window

def forget (c : Cached) : Cached := { c with left := c.left.forget, right := c.right.forget }

/-- Give the gate to the next call that waits for it. -/
def give : Cached :=
  match c.waiting with
  | [] => { c with filling := none }
  | k :: rest => { c with filling := some k, waiting := rest }

def leave (k : ℕ) : Cached := { c with users := c.users.erase k }

end Cached

/-- A suspended handler. -/
inductive Frame where
  /-- `onRead`, waiting for a session or for the daemon. -/
  | direct (r : ReadCall)
  /-- `onRead`, sending its reply out of the scratch window. -/
  | served (r : ReadCall) (scratch : Window) (a : Answer)
  /-- `onWindowedRead`, at the gate. -/
  | queued (r : ReadCall) (e : ℕ)
  /-- `fillWindow`, waiting for a session, for its buffer or for the daemon. -/
  | filling (r : ReadCall) (e : ℕ)
  /-- `fillWindow`, whose read the daemon has served. -/
  | answered (r : ReadCall) (e bytes start : ℕ) (tag : Tag)
  /-- `onWindowedRead`, sending `mine` bytes from `into` on out of a buffer. -/
  | sending (r : ReadCall) (e : ℕ) (side : Bool) (into mine : ℕ) (eof : Bool) (tag : Option Tag)
  /-- A handler that changes a file, before the daemon has served it. -/
  | change (path : String) (op : ChangeOp)
  | applied (path : String) (c : Change)
  /-- The windows have been told to forget the file, and the reply is on its way. -/
  | settled (c : Change)
  deriving DecidableEq

/-- What a read of the daemon meets: what the allocator finds for the page, how many bytes the
daemon returns, what a direct receive leaves behind them, and whether the read succeeds. -/
structure Luck where
  found : Found
  count : ℕ
  rest : List UInt8 := []
  ok : Bool := true

structure Gateway where
  names : String → Option ℕ
  hist : ℕ → List (List UInt8)
  windows : List Cached
  ticks : ℕ := 0
  scratches : List Window := []
  frames : ℕ → Option Frame := fun _ => none
  next : ℕ := 0
  settled : List Change := []
  acked : List Change := []
  reads : List Tag := []
  replies : List Replied := []

inductive Event where
  | read (path : String) (off count : ℕ)
  | change (path : String) (op : ChangeOp)
  /-- The daemon serves a plain read, into the scratch window `i`. -/
  | serveRead (k i : ℕ) (luck : Luck)
  | serveFill (k : ℕ) (luck : Luck)
  /-- The answer to a fill arrives. -/
  | install (k : ℕ)
  /-- A call that was handed the gate goes on. -/
  | wake (k : ℕ)
  | serveChange (k : ℕ)
  /-- The answer to a change arrives. -/
  | complete (k : ℕ)
  | sent (k : ℕ)
  | fail (k : ℕ)
  /-- Names change at the daemon. -/
  | rebind (names : String → Option ℕ)
  /-- A handler that changed a name tells the windows. -/
  | forgets (path : String)

namespace Gateway

variable (s : Gateway)

def put (k : ℕ) (f : Option Frame) : Gateway :=
  { s with frames := Function.update s.frames k f }

def setEntry (e : ℕ) (c : Cached) : Gateway :=
  { s with windows := s.windows.set e c }

/-- The newest content of the file a name means. -/
def current (path : String) : Option Tag :=
  (s.names path).bind fun f =>
    ((s.hist f).getLast?).map fun content => ⟨path, f, (s.hist f).length - 1, content⟩

/-! ## The windows of a session -/

def forget (s : Gateway) (path : String) : Gateway :=
  { s with windows := s.windows.map fun c => if c.path = path then { c.forget with
    last := 0 } else c }

/-- The window least recently used of those nobody uses, from the `i`-th on. -/
def coldest : ℕ → Option (ℕ × ℕ) → List Cached → Option ℕ
  | _, best, [] => best.map Prod.fst
  | i, best, c :: cs =>
    if c.users.isEmpty && (best.all fun b => decide (c.used < b.2)) then
      coldest (i + 1) (some (i, c.used)) cs
    else coldest (i + 1) best cs

/-- The window a file is read through, taken from a file that nobody reads if it has none. -/
def windowFor (path : String) : Gateway × Option ℕ :=
  match s.windows.findIdx? fun c => c.path = path with
  | some e =>
    ({ s with
      ticks := s.ticks + 1
      windows := s.windows.modify e fun c => { c with used := s.ticks + 1 } }, some e)
  | none =>
    match coldest 0 none s.windows with
    | some e =>
      ({ s with
        ticks := s.ticks + 1
        windows := s.windows.modify e fun c =>
          { c.forget with path, last := 0, used := s.ticks + 1 } }, some e)
    | none => (s, none)

/-! ## Reads -/

/-- The end of `onWindowedRead`: the reply is made from the buffer in front. -/
def respond (k : ℕ) (r : ReadCall) (e : ℕ) (c : Cached) : Gateway :=
  let b := c.buffer c.front
  let into := r.off - b.window.start
  let mine := if into < b.window.valid then min r.count (b.window.valid - into) else 0
  (s.setEntry e (c.setBuffer c.front { b with sending := k :: b.sending })).put k
    (some (.sending r e c.front into mine (decide (b.window.fileSize ≤ r.off + mine)) b.tag))

/-- `onWindowedRead`, up to where it first waits. -/
def onWindowedRead (k : ℕ) (r : ReadCall) (e : ℕ) (c : Cached) : Gateway :=
  let c := { c with users := k :: c.users }
  if c.window.covers r.path r.off r.count then s.respond k r e c
  else
    match c.filling with
    | none => (s.setEntry e { c with filling := some k }).put k (some (.filling r e))
    | some _ => (s.setEntry e { c with waiting := c.waiting ++ [k] }).put k (some (.queued r e))

variable (o : ExportOptions) (s : Gateway)

/-- `onRead`, up to where it first waits. -/
def onRead (path : String) (off count : ℕ) : Option Gateway :=
  let k := s.next
  let r : ReadCall := ⟨path, off, count, s.acked⟩
  let found := { s with next := s.next + 1 }.windowFor path
  match found.2 with
  | none => some (found.1.put k (some (.direct r)))
  | some e =>
    (found.1.windows[e]?).map fun c =>
      let c' := { c with last := (off + count) % 2 ^ 64 }
      if off = c.last ∧ count < o.readahead then found.1.onWindowedRead k r e c'
      else (found.1.setEntry e c').put k (some (.direct r))

/-- A plain read into a scratch window: the page's capacity, where one is offered, is what the
daemon is asked for. -/
def plain (w : Window) (r : ReadCall) (l : Luck) (t : Tag) : Refill :=
  let want := min r.count o.ceiling
  ⟨want, l.found, slice t.content r.off (min l.count (w.fits want l.found)), l.rest, l.ok⟩

/-- The bytes a plain read replies with. -/
def plainBytes (w : Window) (f : Refill) : List UInt8 :=
  match (w.page f.want f.found).2 with
  | some _ => slice (w.refill f).store 0 f.read.length
  | none => slice (w.refill f).data 0 f.read.length

/-- The rest of `onRead`, with the scratch window `i`, or a new one. -/
def serveRead (k i : ℕ) (l : Luck) : Option Gateway :=
  match s.frames k with
  | some (.direct r) =>
    let w := (s.scratches[i]?).getD {}
    let s := { s with scratches := s.scratches.eraseIdx i }
    if min r.count o.ceiling = 0 then some (s.put k (some (.served r w ⟨[], false, none⟩)))
    else
      (s.current r.path).map fun t =>
        let f := plain o w r l t
        let s := { s with reads := t :: s.reads }
        if l.ok then
          s.put k (some (.served r (w.refill f) ⟨plainBytes w f,
            decide (t.content.length ≤ r.off + f.read.length), some t⟩))
        else { s with scratches := w.refill f :: s.scratches }.put k none
  | _ => none

/-- The room of a fill, and where it starts. -/
def fillStart (off : ℕ) : ℕ :=
  let room := min o.readahead o.transfer
  if 0 < room then off / room * room else off

/-- A fill of the buffer `b` from the daemon. -/
def fill (b : Buffer) (r : ReadCall) (l : Luck) (t : Tag) : Refill :=
  let room := min o.readahead o.transfer
  ⟨room, l.found, slice t.content (fillStart o r.off)
    (min l.count (b.forget.window.fits room l.found)), l.rest, l.ok⟩

/-- The buffer after the daemon has served the fill. -/
def filled (b : Buffer) (r : ReadCall) (l : Luck) (t : Tag) : Buffer :=
  { b with window := b.forget.window.refill (fill o b r l t) }

/-- A failed fill gives the gate back and answers with an error. -/
def failFill (k e : ℕ) (c : Cached) : Gateway :=
  (s.setEntry e (c.give.leave k)).put k none

/-- The daemon serves a fill, once nothing is being sent from the buffer behind. -/
def serveFill (k : ℕ) (l : Luck) : Option Gateway :=
  match s.frames k with
  | some (.filling r e) =>
    (s.windows[e]?).bind fun c =>
      (s.current r.path).bind fun t =>
        let b := c.buffer (!c.front)
        if b.sending = [] then
          let c := c.setBuffer (!c.front) (filled o b r l t)
          let s := { s with reads := t :: s.reads }
          if l.ok then
            some ((s.setEntry e c).put k
              (some (.answered r e (fill o b r l t).read.length (fillStart o r.off) t)))
          else some (s.failFill k e c)
        else none
  | _ => none

/-- The end of `fillWindow`: the buffer behind is the window now, and comes to the front. -/
def install (k : ℕ) : Option Gateway :=
  match s.frames k with
  | some (.answered r e n start t) =>
    (s.windows[e]?).map fun c =>
      let b := c.buffer (!c.front)
      let c := c.setBuffer (!c.front) { b with
        window := { b.window with
          path := r.path, start, fileSize := t.content.length, valid := n }
        tag := some t }
      s.respond k r e { c with front := !c.front }.give
  | _ => none

/-- A call goes on with the gate: another may have filled the window meanwhile. -/
def wake (k : ℕ) : Option Gateway :=
  match s.frames k with
  | some (.queued r e) =>
    (s.windows[e]?).bind fun c =>
      if c.filling = some k then
        if c.window.covers r.path r.off r.count then some (s.respond k r e c.give)
        else some (s.put k (some (.filling r e)))
      else none
  | _ => none

/-! ## Changes -/

/-- The daemon makes a change. -/
def serveChange (k : ℕ) : Option Gateway :=
  match s.frames k with
  | some (.change path op) =>
    (s.names path).map fun f =>
      { s with
        hist := Function.update s.hist f
          (s.hist f ++ [op.apply ((s.hist f).getLast?.getD [])]) }.put k
        (some (.applied path ⟨f, (s.hist f).length⟩))
  | _ => none

/-- The answer to a change arrives: the windows forget the path. -/
def complete (k : ℕ) : Option Gateway :=
  match s.frames k with
  | some (.applied path c) =>
    some ({ s.forget path with settled := c :: s.settled }.put k (some (.settled c)))
  | _ => none

/-- A reply has been sent. -/
def sent (k : ℕ) : Option Gateway :=
  match s.frames k with
  | some (.served r w a) =>
    some { s.put k none with
      scratches := w :: s.scratches
      replies := s.replies ++ [⟨r, a⟩] }
  | some (.sending r e side into mine eof tag) =>
    (s.windows[e]?).map fun c =>
      let b := c.buffer side
      { (s.setEntry e ((c.setBuffer side { b with sending := b.sending.erase k }).leave k)).put k
          none with
        replies := s.replies ++ [⟨r, ⟨slice b.window.store into mine, eof, tag⟩⟩] }
  | some (.settled c) => some { s.put k none with acked := c :: s.acked }
  | _ => none

/-- A handler fails and answers with an error. -/
def fail (k : ℕ) : Option Gateway :=
  match s.frames k with
  | some (.filling _ e) | some (.answered _ e _ _ _) =>
      (s.windows[e]?).map fun c => s.failFill k e c
  | some (.direct _) | some (.change _ _) | some (.applied _ _) | some (.settled _) =>
    some (s.put k none)
  | _ => none

def step : Event → Option Gateway
  | .read path off count => s.onRead o path off count
  | .change path op => some ({ s with next := s.next + 1 }.put s.next (some (.change path op)))
  | .serveRead k i l => s.serveRead o k i l
  | .serveFill k l => s.serveFill o k l
  | .install k => s.install k
  | .wake k => s.wake k
  | .serveChange k => s.serveChange k
  | .complete k => s.complete k
  | .sent k => s.sent k
  | .fail k => s.fail k
  | .rebind names => some { s with names }
  | .forgets path => some (s.forget path)

/-- A session that has just been opened, with its windows empty. -/
def opened (names : String → Option ℕ) (contents : ℕ → List UInt8) (windows : ℕ) : Gateway :=
  { names := names
    hist := fun f => [contents f]
    windows := List.replicate windows {} }

end Gateway
end Rail.Nfs
