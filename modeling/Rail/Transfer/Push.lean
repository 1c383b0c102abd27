import Rail.Session.InStep
import Rail.Transfer.Receive

/-!
# Pushing files

`Push` of `src/session-push.cc`: the sending end.  A file goes out whole, its pages read ahead
through the ring and sent as their reads end, or by the instructions of the differ.  What is on its
way is in two queues: `Prefetch`, the reads, and `InFlight`, the sends.

The geometry is what `withGeometry` and the constructor of `Push` make of the options.
-/

namespace Rail.Transfer

open ByteFile Coroutine
open Client.Keys (tagSpan)
open Delta (Signature Instruction)
open Receive (FileHeader noSignature)
open Session (DeltaPolicy shouldUseDelta receiptWindow)

namespace Push

export Receive (Message)

/-! ## The geometry -/

/-- What of `SyncOptions` decides on the geometry. -/
structure SyncOptions where
  pageSize : ℕ := 0
  pageCount : ℕ := 0
  windowPages : ℕ := 0
  deriving DecidableEq

/-- The loop of `withGeometry`, for at most so many doublings. -/
def pageBytes (bytes : ℕ) : (passes page : ℕ) → ℕ
  | 0, page => page
  | passes + 1, page =>
      if page < 2 ^ 26 ∧ page * 4 < bytes then pageBytes bytes passes (page * 2) else page

variable (o : SyncOptions)

def withGeometry (bytes : ℕ) : SyncOptions :=
  let windowPages := if o.windowPages = 0 then 2 else o.windowPages
  let pageCount := if o.pageCount = 0 then (windowPages + 4) % 2 ^ 64 else o.pageCount
  -- six doublings take the smallest page to the largest
  { pageSize := if o.pageSize = 0 then pageBytes bytes 6 (2 ^ 20) else o.pageSize
    pageCount := max 2 pageCount
    windowPages := windowPages }

/-- `Push::Window`. -/
def window (maxInFlight : ℕ) : ℕ := max 1 (min o.windowPages (min maxInFlight (o.pageCount - 1)))

/-- `Push::ReadWindow`, with the depth of the ring. -/
def readWindow (maxInFlight depth : ℕ) : ℕ :=
  max 1 (min (o.pageCount - window o maxInFlight) depth)

/-! ## What is pushed -/

/-- What the options and the channel say. -/
structure Config (δ : Type) where
  policy : DeltaPolicy
  isRdma : Bool
  wantsPeerEndpoint : Bool
  flipOneLiteralBit : Bool
  pageSize : ℕ
  window : ℕ
  readWindow : ℕ
  sum : Bytes → δ

/-- One entry of the transfer. -/
structure Item (ν : Type) where
  name : ν
  directory : Bool := false
  link : Bool := false
  /-- `Target` is not empty. -/
  target : Bool := true
  /-- The size of the file when it was opened. -/
  size : ℕ := 0
  /-- The file system grants direct reads. -/
  granted : Bool := false
  /-- What the differ makes of the file with a signature, and whether it comes to an end. -/
  scan : Signature → List Instruction × Bool := fun _ => ([], true)

/-- `Push::Reading`. -/
structure Reading where
  id : ℕ
  offset : ℕ
  length : ℕ
  deriving DecidableEq

end Push

/-- The members of `Push`. -/
structure Push where
  inFlight : List ℕ := []
  prefetch : List Push.Reading := []
  /-- The cursor of `sendWholeFile`. -/
  offset : ℕ := 0
  whole : Bytes := []
  corrupted : Bool := false
  /-- The counters of `File`. -/
  literalBytes : ℕ := 0
  matchedBytes : ℕ := 0
  /-- `AwaitingReceipt`: the counters of files that were confirmed. -/
  awaiting : List (ℕ × ℕ) := []
  tagBase : ℕ := 0
  deriving DecidableEq

namespace Push

section Code

variable {π ν γ δ : Type} (c : Config δ)

/-- `Streaming`. -/
def Config.streaming : Bool := c.policy = .never && c.isRdma

/-- `static_cast<uint32_t>(min(capacity, Left))`. -/
def Config.take (left : ℕ) : ℕ := min c.pageSize left % 2 ^ 32

/-- The pages in the queues. -/
def held (s : Push) : ℕ := s.prefetch.length + s.inFlight.length

def popInFlight (s : Push) : Push := { s with inFlight := s.inFlight.tail }

/-- A read has been submitted. -/
def asked (offset length id : ℕ) (s : Push) : Push :=
  { s with prefetch := s.prefetch ++ [⟨id, offset, length⟩], offset := s.offset + length }

/-- A page has been hashed. -/
def hashed (bytes : Bytes) (s : Push) : Push := { s with whole := s.whole ++ bytes }

/-- A send has been started. -/
def sent (id : ℕ) (s : Push) : Push := { s with inFlight := s.inFlight ++ [id] }

/-- The front of `Prefetch` is being sent. -/
def shipped (length id : ℕ) (s : Push) : Push :=
  { s with
    prefetch := s.prefetch.tail, inFlight := s.inFlight ++ [id], literalBytes :=
      s.literalBytes + length }

/-- `Push::awaitSends`. -/
def awaitSends (keep : ℕ) : Pipe π (Message ν δ) γ Push Unit :=
  Pipe.drainTo (·.inFlight) popInFlight .send keep

/-- `Push::negotiate`: the greetings are not looked into. -/
def negotiate : Pipe π (Message ν δ) γ Push Unit := do
  Pipe.orFail Pipe.open_ .memory
  Pipe.orFail (Pipe.tell .other) .control
  match ← Pipe.hear with
  | some .other =>
    Pipe.orFail Pipe.open_ .refused
    if c.wantsPeerEndpoint then
      Pipe.orFail Pipe.open_ .control
      Pipe.orFail (Pipe.tell .other) .control
    else return ()
  | some _ => Co.fail .unexpected
  | none => Co.fail .control

/-- `corruptOnceIfAsked`, and the send. -/
def launchSend (dst : ℕ) (page : Bytes) (push : ℕ → Push → Push) :
    Pipe π (Message ν δ) γ Push Unit := do
  let s ← Co.read
  let spoil := c.flipOneLiteralBit && !s.corrupted
  Co.modify fun s => { s with corrupted := s.corrupted || spoil }
  Pipe.launch
    (.send ((s.tagBase + dst) % 2 ^ 64) (if spoil then page.modify 0 (· ^^^ 1) else page)) push

/-- A page is announced unless the receiver knows. -/
def announce (offset length : ℕ) : Pipe π (Message ν δ) γ Push Unit :=
  if c.streaming then Co.pure () else Pipe.orFail (Pipe.tell (.literal offset length)) .control

/-! ### Whole files -/

/-- One pass of `fill`. -/
def fillPass (size : ℕ) (aligned : Bool) : Pipe π (Message ν δ) γ Push Unit := do
  Pipe.orFail (Pipe.acquire held) .memory
  let s ← Co.read
  let length := c.take (size - s.offset)
  let ask := if aligned then min (alignUp length) c.pageSize else length
  Pipe.orFail (Pipe.submit (.read s.offset ask) (asked s.offset length)) .submit

/-- `Push::fill`. -/
def fill (size : ℕ) (aligned : Bool) : Pipe π (Message ν δ) γ Push Unit :=
  Co.loop (fun s => s.prefetch.length < c.readWindow && s.offset < size) (fillPass c size aligned)
    (c.readWindow + 1)

/-- `Push::shipReady`.  The page stays at the front until it is sent. -/
def shipReady : Pipe π (Message ν δ) γ Push Unit := do
  match (← Co.read).prefetch with
  | [] => return ()
  | ready :: _ =>
    match ← Pipe.awaited ready.id with
    | .failed => Co.fail .read
    | .done bytes =>
      if bytes.length < ready.length then Co.fail .shortRead
      else
        Co.modify (hashed (bytes.take ready.length))
        announce c ready.offset ready.length
        launchSend c ready.offset (bytes.take ready.length) (shipped ready.length)

/-- The loop of `sendWholeFile`. -/
def wholeLoop (size : ℕ) (aligned : Bool) : (fuel : ℕ) → Pipe π (Message ν δ) γ Push Unit
  | 0 => Co.hang
  | fuel + 1 => do
      let s ← Co.read
      if s.offset < size || !s.prefetch.isEmpty then
        fill c size aligned
        if (← Co.read).prefetch.isEmpty then return ()
        else
          awaitSends (c.window - 1)
          shipReady c
          wholeLoop size aligned fuel
      else return ()

/-- `Push::sendWholeFile`. -/
def sendWholeFile (fuel size : ℕ) (aligned : Bool) : Pipe π (Message ν δ) γ Push Unit := do
  Co.modify fun s => { s with offset := 0 }
  wholeLoop c size aligned fuel

/-! ### Instructions -/

/-- `Push::sendPage`. -/
def sendPage (src dst left : ℕ) : Pipe π (Message ν δ) γ Push ℕ := do
  Pipe.orFail (Pipe.acquire held) .memory
  match ← Pipe.consult src (min c.pageSize left) with
  | none => Co.fail .read
  | some got =>
    let page := got.take (min c.pageSize left)
    if page.length = 0 then Co.fail .shortRead
    else
      Co.modify (hashed page)
      announce c dst (page.length % 2 ^ 32)
      launchSend c dst page sent
      return page.length

/-- `Push::sendLiteral`, from a byte on. -/
def sendLiteral : (fuel src dst left : ℕ) → Pipe π (Message ν δ) γ Push Unit
  | 0, _, _, _ => Co.hang
  | fuel + 1, src, dst, left => do
      if 0 < left then
        awaitSends (c.window - 1)
        let n ← sendPage c src dst left
        sendLiteral fuel (src + n) (dst + n) (left - n)
      else return ()

/-- The sink of `sendDelta`, and what the differ counts. -/
def deliver (fuel : ℕ) (ins : Instruction) : Pipe π (Message ν δ) γ Push Unit := do
  match ins.kind with
  | .literal =>
    Co.modify fun s => { s with literalBytes := s.literalBytes + ins.length }
    sendLiteral c fuel ins.srcOffset ins.dstOffset ins.length
  | .copy =>
    Co.modify fun s => { s.hashed ins.bytes with matchedBytes := s.matchedBytes + ins.length }
    Pipe.orFail (Pipe.tell (.copy ins.blockIndex ins.dstOffset)) .control

/-- `Push::sendDelta`, from an instruction on. -/
def sendDelta (fuel : ℕ) (ends : Bool) : List Instruction → Pipe π (Message ν δ) γ Push Unit
  | [] => if ends then Co.pure () else Co.fail .read
  | ins :: rest => do
      deliver c fuel ins
      sendDelta fuel ends rest

/-! ### Files -/

/-- One pass of `reapReceipts`. -/
def reapPass : Pipe π (Message ν δ) γ Push Unit := do
  match ← Pipe.hear with
  | some (.receipt literal matched) =>
    let s ← Co.read
    Co.modify fun s => { s with awaiting := s.awaiting.tail }
    if s.awaiting.head? = some (literal, matched) then return () else Co.fail .mismatch
  | some _ => Co.fail .unexpected
  | none => Co.fail .control

/-- `Push::reapReceipts`. -/
def reapReceipts (keep : ℕ) : Pipe π (Message ν δ) γ Push Unit := do
  Co.loop (fun s => keep < s.awaiting.length) reapPass ((← Co.read).awaiting.length + 1)

/-- `Push::exchangeHeader`. -/
def exchangeHeader (it : Item ν) : Pipe π (Message ν δ) γ Push Signature := do
  Pipe.orFail (Pipe.tell (.fileHeader
    { name := it.name, size := it.size, streamed := c.streaming, wantSignature :=
    c.policy ≠ .never })) .control
  if c.policy = .never then return noSignature
  else
    reapReceipts 0
    match ← Pipe.hear with
    | some (.signature sig) => return sig
    | some _ => Co.fail .unexpected
    | none => Co.fail .control

/-- `Push::confirm`. -/
def confirm : Pipe π (Message ν δ) γ Push Unit := do
  let s ← Co.read
  Pipe.orFail (Pipe.tell (.done (c.sum s.whole))) .control
  Co.modify fun s => { s with awaiting := s.awaiting ++ [(s.literalBytes, s.matchedBytes)] }
  reapReceipts receiptWindow

/-- What `pushOne` resets. -/
def reset (s : Push) : Push :=
  { s with whole := [], corrupted := false, literalBytes := 0, matchedBytes := 0 }

/-- The payload of a file. -/
def payload (fuel : ℕ) (it : Item ν) (sig : Signature) : Pipe π (Message ν δ) γ Push Unit :=
  if shouldUseDelta sig it.size c.policy then sendDelta c fuel (it.scan sig).2 (it.scan sig).1
  else sendWholeFile c fuel it.size (c.streaming && it.granted)

/-- `Push::pushOne`, `sendDirectory` and `sendLink`. -/
def pushOne (fuel : ℕ) (it : Item ν) : Pipe π (Message ν δ) γ Push Unit := do
  if it.directory then
    Pipe.orFail (Pipe.tell
      (.fileHeader { name := it.name, size := 0, directory := true, target := false })) .control
  else if it.link then
    Pipe.orFail (Pipe.tell
      (.fileHeader { name := it.name, size := 0, link := true, target := it.target })) .control
  else
    Pipe.orFail Pipe.open_ .read
    Co.modify reset
    let sig ← exchangeHeader c it
    payload c fuel it sig
    awaitSends 0
    confirm c
    Co.modify fun s => { s with tagBase := (s.tagBase + tagSpan it.size c.pageSize) % 2 ^ 64 }

/-- The loop of `carry`. -/
def carryItems (fuel : ℕ) : List (Item ν) → Pipe π (Message ν δ) γ Push Unit
  | [] => Co.pure ()
  | it :: items => do
      pushOne c fuel it
      carryItems fuel items

/-- `Push::carry`. -/
def carry (fuel : ℕ) (items : List (Item ν)) : Pipe π (Message ν δ) γ Push Unit := do
  negotiate c
  carryItems c fuel items
  reapReceipts 0
  Pipe.orFail (Pipe.tell .end_) .control

/-- `Push::push`. -/
def push (fuel : ℕ) (items : List (Item ν)) : Pipe π (Message ν δ) γ Push Unit := do
  let outcome ← Co.outcome (carry c fuel items)
  Pipe.close
  match outcome with
  | .error f => Co.fail f
  -- `Kid.wait`
  | .ok _ => Pipe.orFail Pipe.open_ .remote

/-- `Push::quiesce`: the sends, and not the reads. -/
def quiesce : Pipe π (Message ν δ) γ Push Unit := Pipe.quiesceQueue (·.inFlight) popInFlight

/-- `Push::run`. -/
def run (fuel : ℕ) (items : List (Item ν)) : Pipe π (Message ν δ) γ Push Unit := do
  let outcome ← Co.outcome (push c fuel items)
  quiesce
  match outcome with
  | .ok _ => return ()
  | .error f => Co.fail f

end Code

/-! ## What a push keeps -/

section Keeps

variable {π ν γ δ : Type} [DecidableEq π] (e : Env (Message ν δ)) (c : Config δ)
  (ok : Io π (Message ν δ) γ → Call π (Message ν δ) γ → Prop)
  (I R E : Push → Io π (Message ν δ) γ → Prop)

/-- What is neither a page nor an operation on one. -/
def Talk : Call π (Message ν δ) γ → Prop
  | .acquire _ | .start _ | .submit _ => False
  | _ => True

/-- It is about the two queues and the operations; on the way out there is `E`. -/
structure Steady : Prop where
  stable : Stable (io e) I
  same : ∀ {s s' w w'}, s'.prefetch = s.prefetch → s'.inFlight = s.inFlight → w'.ops = w.ops →
    I s w → I s' w'
  error : ∀ s w, I s w → E s w
  talks : ∀ w o, Talk o → ok w o

namespace Steady

variable {e ok I E} (h : Steady e ok I E) {c : Config δ} {fuel : ℕ}

/-- The queue of pages that are read ahead is as it was. -/
theorem front (h : Steady e ok I E) (q : List Reading) :
    Steady e ok (fun s w => I s w ∧ s.prefetch = q) E where
  stable _ _ _ hs hd := ⟨h.stable _ _ _ hs.1 hd, hs.2⟩
  same hp hi ho hs := ⟨h.same hp hi ho hs.1, hp.trans hs.2⟩
  error s w hs := h.error s w hs.1
  talks := h.talks

/-- What has ended has ended. -/
theorem ended (h : Steady e ok I E) (id : ℕ) (r : Outcome) :
    Steady e ok (fun s w => I s w ∧ ∃ work, w.ops[id]? = some ⟨work, some r⟩) E where
  stable _ _ _ hs hd := ⟨h.stable _ _ _ hs.1 hd, hs.2.imp fun _ => ended_of_drift hd⟩
  same hp hi ho hs := ⟨h.same hp hi ho hs.1, ho ▸ hs.2⟩
  error s w hs := h.error s w hs.1
  talks := h.talks

include h

theorem ask {o : Call π (Message ν δ) γ} (ho : Talk o) :
    Keeps (ε := Fault) (io e) ok I E (Co.ask o) := by
  refine .ask h.stable (fun _ w _ => h.talks w o ho) fun s w a w' hs hperform => ?_
  refine h.same rfl rfl (ops_of_perform hperform ?_ ?_) hs
  all_goals
    rintro work rfl
    exact ho

theorem modify {f : Push → Push} (hp : ∀ s, (f s).prefetch = s.prefetch)
    (hi : ∀ s, (f s).inFlight = s.inFlight) : Keeps (ε := Fault) (io e) ok I E (Co.modify f) :=
  .modify fun s _ hs => h.same (hp s) (hi s) rfl hs

theorem tell (m : Message ν δ) (f : Fault) : Keeps (io e) ok I E (Pipe.orFail (Pipe.tell m) f) :=
  Pipe.orFail_keeps h.error (h.ask trivial)

theorem opened (f : Fault) : Keeps (io e) ok I E (Pipe.orFail Pipe.open_ f) :=
  Pipe.orFail_keeps h.error (h.ask trivial)

theorem hear : Keeps (io e) ok I E Pipe.hear := h.ask trivial

theorem announce {offset length : ℕ} : Keeps (io e) ok I E (Push.announce c offset length) :=
  .ite .pure (h.tell _ _)

theorem negotiate : Keeps (io e) ok I E (Push.negotiate c) := by
  rw [Push.negotiate]
  refine (h.opened _).bind fun _ => (h.tell _ _).bind fun _ => h.hear.bind fun m => ?_
  cases m with
  | none => exact .fail h.error
  | some m =>
    cases m with
    | other => exact (h.opened _).bind fun _ => .ite ((h.opened _).bind fun _ => h.tell _ _) .pure
    | _ => exact .fail h.error

theorem reapReceipts {keep : ℕ} : Keeps (io e) ok I E (Push.reapReceipts keep) := by
  rw [Push.reapReceipts]
  refine .read fun s => .loop ?_ _
  rw [reapPass]
  refine h.hear.bind fun m => ?_
  cases m with
  | none => exact .fail h.error
  | some m =>
    cases m with
    | receipt literal matched =>
      exact .read fun s => .bind (h.modify (fun _ => rfl) fun _ => rfl) fun _ =>
        .ite .pure (.fail h.error)
    | _ => exact .fail h.error

theorem exchangeHeader {it : Item ν} : Keeps (io e) ok I E (Push.exchangeHeader c it) := by
  rw [Push.exchangeHeader]
  refine (h.tell _ _).bind fun _ => .ite .pure (h.reapReceipts.bind fun _ => h.hear.bind
    fun m => ?_)
  cases m with
  | none => exact .fail h.error
  | some m =>
    cases m with
    | signature sig => exact .pure
    | _ => exact .fail h.error

theorem confirm : Keeps (io e) ok I E (Push.confirm c) := by
  rw [Push.confirm]
  exact .read fun s => (h.tell _ _).bind fun _ =>
    .bind (h.modify (fun _ => rfl) fun _ => rfl) fun _ => h.reapReceipts

theorem sendDelta (hliteral : ∀ src dst left, Keeps (io e) ok I E (sendLiteral c fuel src dst left))
    (ends : Bool) (is : List Instruction) :
    Keeps (io e) ok I E (Push.sendDelta c fuel ends is) := by
  induction is with
  | nil => exact .ite .pure (.fail h.error)
  | cons ins rest ih =>
    refine .bind ?_ fun _ => ih
    rw [deliver]
    cases ins.kind with
    | literal => exact .bind (h.modify (fun _ => rfl) fun _ => rfl) fun _ => hliteral _ _ _
    | copy => exact .bind (h.modify (fun _ => rfl) fun _ => rfl) fun _ => h.tell _ _

/-- What the payloads of the files keep, the whole session keeps. -/
theorem carry (hsends : Keeps (io e) ok I E (awaitSends 0))
    (hpayload : ∀ it sig, Keeps (io e) ok I E (payload c fuel it sig)) (items : List (Item ν)) :
    Keeps (io e) ok I E (Push.carry c fuel items) := by
  have hone : ∀ it : Item ν, Keeps (io e) ok I E (pushOne c fuel it) := by
    intro it
    rw [pushOne]
    refine .ite (h.tell _ _) (.ite (h.tell _ _) ?_)
    exact (h.opened _).bind fun _ => .bind (h.modify (fun _ => rfl) fun _ => rfl) fun _ =>
      h.exchangeHeader.bind fun sig =>
        (hpayload it sig).bind fun _ => hsends.bind fun _ => h.confirm.bind fun _ =>
          h.modify (fun _ => rfl) fun _ => rfl
  have hitems : Keeps (io e) ok I E (carryItems c fuel items) := by
    induction items with
    | nil => exact .pure
    | cons it items ih => exact (hone it).bind fun _ => ih
  exact h.negotiate.bind fun _ => hitems.bind fun _ => h.reapReceipts.bind fun _ => h.tell _ _

end Steady

/-- What keeps `I` going: one condition for each thing the code does.  `R` is what holds when there
is room for another send, and `E` when the push gives up. -/
structure Tends : Prop where
  base : Steady e ok I E
  room : Steady e ok R E
  out : Steady e ok E E
  starts : ∀ w work, ok w (.start work) ∧ ok w (.submit work)
  acquires : ∀ {s w}, I s w → s.prefetch.length < c.readWindow → ok w (.acquire s.held)
  acquires_one : ∀ {s w}, R s w → ok w (.acquire s.held)
  clear : ∀ {s w}, I s w → s.inFlight.length ≤ c.window - 1 → R s w
  loose : ∀ {s w}, R s w → I s w
  asked : ∀ {s w} work length, I s w → s.prefetch.length < c.readWindow →
    I (s.asked s.offset length w.ops.length) (w.begin_ work)
  refused : ∀ {s w} left, I s w → E s { w with left }
  popped : ∀ {s w id rest work r}, I s w → s.inFlight = id :: rest →
    w.ops[id]? = some ⟨work, some r⟩ → I s.popInFlight w
  shipped : ∀ {s w ready rest work r} send, R s w → s.prefetch = ready :: rest →
    w.ops[ready.id]? = some ⟨work, some r⟩ → I (s.shipped ready.length w.ops.length) (w.begin_ send)
  sent : ∀ {s w} send, R s w → I (s.sent w.ops.length) (w.begin_ send)

namespace Tends

variable {e c ok I R E} (h : Tends e c ok I R E) {fuel size keep : ℕ} {aligned : Bool}
include h

theorem awaitSends (q : List Reading) : Triple (io e) ok (fun s w => I s w ∧ s.prefetch = q)
    (awaitSends keep) (fun _ s w => (I s w ∧ s.prefetch = q) ∧ s.inFlight.length ≤ keep)
    fun _ => E :=
  Pipe.drainTo_spec (h.base.front q).stable (fun _ _ w _ => h.base.talks w _ trivial)
    (fun _ _ _ _ _ _ hs hq hended => ⟨h.popped hs.1 hq hended, hs.2⟩)
    fun _ _ _ _ _ hs hq hended => h.base.error _ _ (h.popped hs.1 hq hended)

theorem makeRoom (q : List Reading) : Triple (io e) ok (fun s w => I s w ∧ s.prefetch = q)
    (Push.awaitSends (c.window - 1)) (fun _ s w => R s w ∧ s.prefetch = q) fun _ => E :=
  (h.awaitSends q).conseq (fun _ _ hs => hs) (fun _ _ _ hs => ⟨h.clear hs.1.1 hs.2, hs.1.2⟩)
    fun _ _ _ hs => hs

theorem launchSend {P Q : Push → Io π (Message ν δ) γ → Prop} (hP : Steady e ok P E) {dst : ℕ}
    {page : Bytes} {push : ℕ → Push → Push}
    (hpush : ∀ s w send, P s w → Q (push w.ops.length s) (w.begin_ send)) :
    Triple (io e) ok P (launchSend c dst page push) (fun _ => Q) fun _ => E := by
  rw [Push.launchSend]
  refine .readThen fun s₀ => .pre (P := P) ?_ fun _ _ hs => hs.2
  exact .bind (hP.modify (fun _ => rfl) fun _ => rfl) fun _ =>
    Pipe.launch_spec hP.stable (fun _ w _ => (h.starts w _).1) fun s w hs => hpush s w _ hs

theorem fillPass : Triple (io e) ok (fun s w => I s w ∧ s.prefetch.length < c.readWindow)
    (fillPass c size aligned) (fun _ => I) fun _ => E := by
  have hstable : Stable (io e) fun s w => I s w ∧ s.prefetch.length < c.readWindow :=
    fun _ _ _ hs hd => ⟨h.base.stable _ _ _ hs.1 hd, hs.2⟩
  rw [Push.fillPass]
  refine Triple.bind (Pipe.acquire_spec hstable (fun _ _ hs => h.acquires hs.1 hs.2)
    fun _ _ hs => h.base.error _ _ hs.1) fun _ => .readThen fun s₀ => ?_
  dsimp only
  refine Pipe.orFail_spec (Pipe.submit_spec (fun s w w' hs hd => ⟨hs.1, hstable s w w' hs.2 hd⟩)
    (fun _ w _ => (h.starts w _).2) (fun s w left hs => h.refused left hs.2.1) ?_)
  rintro s w ⟨rfl, hs, hlt⟩
  exact h.asked _ _ hs hlt

theorem shipReady : Triple (io e) ok R (shipReady c) (fun _ => I) fun _ => E := by
  rw [Push.shipReady]
  refine .readThen fun s₀ => ?_
  cases hq : s₀.prefetch with
  | nil => exact .pure fun _ _ hs => h.loose hs.2
  | cons ready rest =>
    -- the front is there until it is sent, and its read has ended
    have hP := (h.room.front (ready :: rest)).ended ready.id
    refine .bind (M := fun r s w => (R s w ∧ s.prefetch = ready :: rest) ∧
      ∃ work, w.ops[ready.id]? = some ⟨work, some r⟩) (.ask ?_ ?_ ?_) fun out => ?_
    · exact fun s w w' hs hd => ⟨hs.1, h.room.stable s w w' hs.2 hd⟩
    · exact fun _ w _ => h.room.talks w _ trivial
    · rintro s w r w' ⟨rfl, hs⟩ ⟨hended, rfl⟩
      exact ⟨⟨hs, hq⟩, hended⟩
    cases out with
    | failed => exact .fail (hP .failed).error
    | done bytes =>
      refine .ite (fun _ => .fail (hP _).error) fun _ =>
        .bind ((hP _).modify (fun _ => rfl) fun _ => rfl) fun _ =>
        .bind (hP _).announce fun _ => h.launchSend (hP _) ?_
      rintro s w send ⟨⟨hs, hfront⟩, work, hended⟩
      exact h.shipped send hs hfront hended

/-- A whole file leaves nothing that is being read. -/
theorem wholeLoop (fuel : ℕ) : Triple (io e) ok I (wholeLoop c size aligned fuel)
    (fun _ s w => I s w ∧ s.prefetch = []) fun _ => E := by
  induction fuel with
  | zero => exact .hang
  | succ fuel ih =>
    rw [Push.wholeLoop]
    refine .readThen fun s₀ => .ite (fun _ => ?_) fun hstop => .pure ?_
    · refine .bind (M := fun _ => I) ?_ fun _ => .readThen fun s₁ => .ite (fun hnil => .pure ?_)
        fun _ => .bind ((h.makeRoom s₁.prefetch).pre ?_) fun _ =>
          .bind (h.shipReady.pre fun _ _ hs => hs.1) fun _ => ih
      · refine (Triple.loop (h.fillPass.pre fun s w hs => ⟨hs.1, ?_⟩) _).conseq
          (fun _ _ hs => hs.2) (fun _ _ _ hs => hs.1) fun _ _ _ hs => hs
        have hcond := hs.2
        rw [Bool.and_eq_true, decide_eq_true_eq] at hcond
        exact hcond.1
      · rintro s w ⟨rfl, hs⟩
        exact ⟨hs, List.isEmpty_iff.mp hnil⟩
      · rintro s w ⟨rfl, hs⟩
        exact ⟨hs, rfl⟩
    · rintro s w ⟨rfl, hs⟩
      simp only [Bool.or_eq_true, decide_eq_true_eq, Bool.not_eq_true', not_or, Bool.not_eq_false,
        List.isEmpty_iff] at hstop
      exact ⟨hs, hstop.2⟩

theorem sendPage {src dst left : ℕ} : Triple (io e) ok (fun s w => R s w ∧ s.prefetch = [])
    (sendPage c src dst left) (fun _ s w => I s w ∧ s.prefetch = []) fun _ => E := by
  have hP := h.room.front []
  rw [Push.sendPage]
  refine .bind (Pipe.acquire_spec hP.stable (fun _ _ hs => h.acquires_one hs.1) hP.error)
    fun _ => .bind (hP.ask trivial) fun got => ?_
  cases got with
  | none => exact .fail hP.error
  | some got =>
    refine .ite (fun _ => .fail hP.error) fun _ =>
      .bind (hP.modify (fun _ => rfl) fun _ => rfl) fun _ => .bind hP.announce fun _ =>
      .bind (h.launchSend hP (Q := fun s w => I s w ∧ s.prefetch = []) ?_) fun _ =>
        .pure fun _ _ hs => hs
    exact fun s w send hs => ⟨h.sent send hs.1, hs.2⟩

theorem sendLiteral (fuel src dst left : ℕ) :
    Keeps (io e) ok (fun s w => I s w ∧ s.prefetch = []) E (sendLiteral c fuel src dst left) := by
  induction fuel generalizing src dst left with
  | zero => exact .hang
  | succ fuel ih =>
    rw [Push.sendLiteral]
    exact .ite (Triple.bind (h.makeRoom []) fun _ => Triple.bind h.sendPage fun n => ih _ _ _) .pure

/-- **Between files nothing is being read**, and whatever makes the push give up leaves `E`. -/
theorem push {items : List (Item ν)} : Keeps (io e) ok (fun s w => I s w ∧ s.prefetch = []) E
    (push c fuel items) := by
  have hP := h.base.front []
  have hcarry := hP.carry (c := c)
    ((h.awaitSends []).conseq (fun _ _ hs => hs) (fun _ _ _ hs => hs.1) fun _ _ _ hs => hs)
    (fun it sig => .ite (hP.sendDelta (h.sendLiteral fuel) _ _) (.bind
      (hP.modify (fun _ => rfl) fun _ => rfl) fun _ => (h.wholeLoop fuel).pre fun _ _ hs => hs.1))
    items
  rw [Push.push]
  let M : Except Fault Unit → Push → Io π (Message ν δ) γ → Prop
    | .ok _, s, w => I s w ∧ s.prefetch = []
    | .error _, s, w => E s w
  refine Triple.bind (M := M) (.outcome hcarry) fun r => ?_
  cases r with
  | ok _ => exact .bind (hP.ask trivial) fun _ => hP.opened _
  | error f => exact .bind (h.out.ask trivial) fun _ => .fail fun _ _ hs => hs

end Tends

end Keeps

end Push

end Rail.Transfer
