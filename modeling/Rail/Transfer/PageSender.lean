import Rail.Client.Receiving
import Rail.Transfer.Io

/-!
# Sending a stream of pages

`PageSender` of `src/stream/page-stream.cc`.  A sender keeps reads ahead of it (`Prefetch`) and
sends behind it (`InFlight`).  It leaves by many ways, and waits for whatever it has started before
it returns.

* `PageSender.Inv`: it names every operation that has not ended; and while nothing has failed, what
  it has hashed is what the source has, with the pages read ahead going on from there.  Every part
  of the code keeps it.
* `PageSender.stream_spec`: a stream returns with nothing outstanding, and one that returns without
  an error has hashed the range it was asked for.

Lengths of pages have 32 bits, offsets 64.  A loop that cannot be seen to end is followed for `fuel`
passes.
-/

namespace Rail.Transfer

open List Option ByteFile Coroutine
open Client (Geometry)

/-- `kDirectAlignment`. -/
def directAlignment : ℕ := 4096

/-- `alignUp`, and `roundUp` of the writer. -/
def alignUp (n : ℕ) : ℕ := (n + directAlignment - 1) / directAlignment * directAlignment

theorem le_alignUp (n : ℕ) : n ≤ alignUp n := by
  have h := Nat.div_add_mod (n + directAlignment - 1) directAlignment
  have hlt := Nat.mod_lt (n + directAlignment - 1) (show 0 < directAlignment by decide)
  rw [alignUp, Nat.mul_comm]
  rw [show directAlignment = 4096 from rfl] at *
  omega

theorem alignUp_of_aligned {n : ℕ} (h : n % directAlignment = 0) : alignUp n = n := by
  rw [alignUp, show directAlignment = 4096 from rfl] at *
  omega

/-- What of the channel and the session a stream goes by. -/
structure Streaming where
  pageSize : ℕ
  geometry : Geometry
  tagBase : ℕ := 0

/-- `Offset + Length`, in 64 bits. -/
def pastEnd (offset length : ℕ) : ℕ := (offset + length) % 2 ^ 64

theorem pastEnd_of_lt {offset length : ℕ} (h : offset + length < 2 ^ 64) :
    pastEnd offset length = offset + length :=
  Nat.mod_eq_of_lt h

variable (c : Streaming)

/-- `TagBase + Key`, in 64 bits. -/
def Streaming.key (offset : ℕ) : ℕ := (c.tagBase + offset) % 2 ^ 64

/-- `static_cast<uint32_t>(min(PageBytes, End - At))`. -/
def Streaming.take (left : ℕ) : ℕ := min c.pageSize left % 2 ^ 32

theorem Streaming.take_le (left : ℕ) : c.take left ≤ left :=
  (Nat.mod_le _ _).trans (min_le_right _ _)

theorem Streaming.take_le_page (left : ℕ) : c.take left ≤ c.pageSize :=
  (Nat.mod_le _ _).trans (min_le_left _ _)

variable {π μ γ : Type}

/-- Where the bytes of a page come from. -/
inductive Origin where
  /-- `Direct`: the source's own page. -/
  | own (bytes : Bytes)
  /-- A read that was submitted. -/
  | reading (id : ℕ)
  /-- `Failed`: no read was submitted. -/
  | failed
  deriving DecidableEq

/-- `PageSender::Reading`. -/
structure Reading where
  key : ℕ
  length : ℕ
  origin : Origin := .failed
  deriving DecidableEq

/-- The read to wait for. -/
def Reading.id (r : Reading) : Option ℕ :=
  match r.origin with
  | .reading id => some id
  | _ => none

def Reading.own (r : Reading) : Option Bytes :=
  match r.origin with
  | .own bytes => some bytes
  | _ => none

theorem Reading.id_of_own {r : Reading} {bytes : Bytes} (h : r.own = some bytes) : r.id = none := by
  rw [Reading.own] at h
  rw [Reading.id]
  cases ho : r.origin <;> simp_all

/-- `PageSource`, and what the tests inject. -/
structure Source where
  /-- Reads have to be aligned. -/
  direct : Bool := false
  /-- The source's own registered page for these bytes. -/
  sending : (offset length : ℕ) → Option Bytes := fun _ _ => none
  abortAfterPages : ℕ := 0
  refuseSendAfterPages : ℕ := 0

structure PageSender where
  cursor : ℕ := 0
  prefetch : List Reading := []
  inFlight : List ℕ := []
  /-- What has been hashed. -/
  whole : Bytes := []
  failure : Option Fault := none
  leftUnsent : Bool := false
  flipOneBit : Bool := false
  pooled : ℕ := 0
  shipped : ℕ := 0
  deriving DecidableEq

namespace PageSender

section Code

variable (c : Streaming) (src : Source)

/-- `Prefetch.push_back`, and the cursor behind it. -/
def push (r : Reading) (past : ℕ) (s : PageSender) : PageSender :=
  { s with prefetch := s.prefetch ++ [r], cursor := s.cursor + past }

/-- `markFailed`, with the first failure kept. -/
def pushFailed (f : Fault) (r : Reading) (s : PageSender) : PageSender :=
  { s.push r r.length with failure := s.failure <|> some f }

def popPrefetch (s : PageSender) : PageSender := { s with prefetch := s.prefetch.tail }

def popInFlight (s : PageSender) : PageSender := { s with inFlight := s.inFlight.tail }

/-- The pages in the queues; one of the source's own is not the pool's, but is counted. -/
def held (s : PageSender) : ℕ := s.prefetch.length + s.inFlight.length

/-- One pass of `fill`. -/
def fillPass (end_ : ℕ) : Pipe π μ γ PageSender Unit := do
  let s ← Co.read
  let take := min c.pageSize (end_ - s.cursor)
  match if s.flipOneBit then none else src.sending s.cursor take with
  | some bytes =>
    Co.modify (push { key := s.cursor, length := take % 2 ^ 32, origin := .own bytes } take)
  | none =>
    Pipe.orFail (Pipe.acquire held) .memory
    let page : Reading := { key := s.cursor, length := c.take (end_ - s.cursor) }
    Co.modify fun s => { s with pooled := s.pooled + 1 }
    if 0 < src.abortAfterPages ∧
      src.abortAfterPages ≤ s.pooled then Co.modify (pushFailed .aborted page)
    else
      let ask := if src.direct then min (alignUp page.length) c.pageSize else page.length
      if ← Pipe.submit (.read page.key ask) fun id =>
        push { page with origin := .reading id } page.length then return ()
      else Co.modify (pushFailed .submit page)

/-- `PageSender::fill`. -/
def fill (end_ : ℕ) : Pipe π μ γ PageSender Unit :=
  Co.loop (fun s => s.prefetch.length < c.geometry.readAhead && s.cursor < end_)
    (fillPass c src end_) (c.geometry.readAhead + 1)

/-- `readOrZero`, and the page taken off `Prefetch`. -/
def readOrZero (r : Reading) : Pipe π μ γ PageSender Bytes := do
  match r.id with
  | none =>
    Co.modify popPrefetch
    return List.replicate r.length 0
  | some id =>
    match ← Pipe.retire id popPrefetch with
    | .done bytes => return bytes
    | .failed =>
      Co.modify fun s => { s with failure := s.failure <|> some .read }
      return List.replicate r.length 0

/-- `Buf.bytes()[7] ^= 0x01`. -/
def flipped (bytes : Bytes) : Bytes := bytes.modify 7 (· ^^^ 1)

/-- The page is hashed and sent. -/
def ship (r : Reading) (page : Bytes) : Pipe π μ γ PageSender Unit := do
  Co.modify fun s => { s with whole := s.whole ++ page }
  let s ← Co.read
  let flip := s.flipOneBit && r.own.isNone && 8 < page.length
  Co.modify fun s => { s with flipOneBit := s.flipOneBit && !flip }
  Pipe.launch (.send (c.key r.key) (if flip then flipped page else page)) fun id s =>
    { s with inFlight := s.inFlight ++ [id] }

/-- `PageSender::shipReady`. -/
def shipReady : Pipe π μ γ PageSender Unit := do
  let s ← Co.read
  match s.prefetch with
  | [] => return ()
  | ready :: _ =>
    if 0 < src.refuseSendAfterPages ∧ src.refuseSendAfterPages ≤ s.shipped then Co.fail .refused
    else
      Co.modify fun s => { s with shipped := s.shipped + 1 }
      match ready.own with
      | some bytes =>
        Co.modify popPrefetch
        ship c ready bytes
      | none =>
        let got ← readOrZero ready
        ship c ready (got.take ready.length)

/-- `PageSender::drain`. -/
def drain (keep : ℕ) : Pipe π μ γ PageSender Unit :=
  Pipe.drainTo (·.inFlight) popInFlight .send keep

/-- What fails here leaves pages unsent. -/
def orGiveUp (m : Pipe π μ γ PageSender Unit) : Pipe π μ γ PageSender Unit := do
  match ← Co.outcome m with
  | .ok _ => return ()
  | .error f =>
    Co.modify fun s => { s with leftUnsent := true }
    Co.fail f

/-- The loop of `run`. -/
def runLoop (end_ : ℕ) : (fuel : ℕ) → Pipe π μ γ PageSender Unit
  | 0 => Co.hang
  | fuel + 1 => do
      let s ← Co.read
      if s.cursor < end_ || !s.prefetch.isEmpty then
        orGiveUp (fill c src end_)
        if (← Co.read).prefetch.isEmpty then return ()
        else
          orGiveUp (drain (c.geometry.window - 1))
          orGiveUp (shipReady c src)
          runLoop end_ fuel
      else return ()

/-- `PageSender::run`. -/
def run (fuel offset length : ℕ) : Pipe π μ γ PageSender ℕ := do
  Co.modify fun s => { s with cursor := offset }
  runLoop c src (pastEnd offset length) fuel
  orGiveUp (drain 0)
  match (← Co.read).failure with
  | some f => Co.fail f
  | none => return length

/-- One pass of the second loop of `quiesce`: a read that was refused is done at once. -/
def quiesceRead : Pipe π μ γ PageSender Unit := do
  match (← Co.read).prefetch with
  | [] => return ()
  | r :: _ =>
    match r.id with
    | none => Co.modify popPrefetch
    | some id =>
      let _ ← Pipe.retire id popPrefetch
      return ()

/-- `PageSender::quiesce`. -/
def quiesce : Pipe π μ γ PageSender Unit := do
  Pipe.quiesceQueue (·.inFlight) popInFlight
  Co.loop (fun s => !s.prefetch.isEmpty) quiesceRead ((← Co.read).prefetch.length + 1)

/-- `PageSender::stream`. -/
def stream (fuel offset length : ℕ) : Pipe π μ γ PageSender ℕ := do
  let outcome ← Co.outcome (run c src fuel offset length)
  quiesce
  match outcome with
  | .ok n => return n
  | .error f => Co.fail f

end Code

/-! ### What each part of the code does -/

section Parts

/-- The fault injector spoils this page. -/
def spoils (s : PageSender) (r : Reading) (page : Bytes) : Bool :=
  s.flipOneBit && r.own.isNone && 8 < page.length

/-- A page has been hashed, and the operation `id` sends it. -/
def handed (s : PageSender) (r : Reading) (page : Bytes) (id : ℕ) : PageSender :=
  { s with
    whole := s.whole ++ page
    flipOneBit := s.flipOneBit && !s.spoils r page
    inFlight := s.inFlight ++ [id] }

/-- What a pass of `fill` puts behind `Prefetch`. -/
inductive Puts (c : Streaming) (src : Source) (end_ : ℕ) (s : PageSender) (w : Io π μ γ) :
    PageSender → Io π μ γ → Prop
  | own {bytes : Bytes} (hflip : s.flipOneBit = false)
      (h : src.sending s.cursor (min c.pageSize (end_ - s.cursor)) = some bytes) :
      Puts c src end_ s w (s.push
        { key := s.cursor, length := min c.pageSize (end_ - s.cursor) % 2 ^ 32,
          origin := .own bytes }
        (min c.pageSize (end_ - s.cursor))) w
  | refused (f : Fault) (left : List Work) :
      Puts c src end_ s w (s.pushFailed f { key := s.cursor, length := c.take (end_ - s.cursor) })
        { w with left }
  | read {ask : ℕ} (h : c.take (end_ - s.cursor) ≤ ask) :
      Puts c src end_ s w (s.push
        { key := s.cursor, length := c.take (end_ - s.cursor), origin := .reading w.ops.length }
        (c.take (end_ - s.cursor))) (w.begin_ (.read s.cursor ask))

/-- The page that is taken off its front, and whether the stream has failed by then. -/
inductive Takes (r : Reading) (w : Io π μ γ) (failure : Option Fault) : Bytes → Option Fault → Prop
  | own {bytes : Bytes} (h : r.own = some bytes) : Takes r w failure bytes failure
  | refused (hown : r.own = none) (hid : r.id = none) :
      Takes r w failure ((List.replicate r.length 0).take r.length) failure
  | read {id : ℕ} {work : Work} {bytes : Bytes} (hown : r.own = none) (hid : r.id = some id)
      (hended : w.ops[id]? = some ⟨work, some (.done bytes)⟩) : Takes r w failure
      (bytes.take r.length) failure
  | failed {id : ℕ} {work : Work} (hid : r.id = some id)
      (hended : w.ops[id]? = some ⟨work, some .failed⟩) :
      Takes r w failure ((List.replicate r.length 0).take r.length) (failure <|> some .read)

/-- What keeps `I` going: one condition for each thing the code does.  `P r page` is what holds when
the page of `r` has been taken off and not been hashed yet, and `E` when the stream gives up. -/
structure Tends [DecidableEq π] (e : Env μ) (c : Streaming) (src : Source) (end_ : ℕ)
    (ok : Io π μ γ → Call π μ γ → Prop) (I E : PageSender → Io π μ γ → Prop)
    (P : Reading → Bytes → PageSender → Io π μ γ → Prop) : Prop where
  stable : Stable (io e) I
  taken_stable : ∀ r page, Stable (io e) (P r page)
  acquires : ∀ {s w}, I s w → s.prefetch.length < c.geometry.readAhead → ok w (.acquire s.held)
  submits : ∀ {s w} work, I s w → ok w (.submit work)
  awaits : ∀ {s w} id, I s w → ok w (.await id)
  starts : ∀ {r page s w} work, P r page s w → ok w (.start work)
  gives : ∀ {s w}, I s w → E s w
  unsent : ∀ {s w}, E s w → E { s with leftUnsent := true } w
  counts : ∀ {s w} pooled shipped, I s w → I { s with pooled, shipped } w
  put : ∀ {s w s' w'}, I s w → s.prefetch.length < c.geometry.readAhead → s.cursor < end_ →
    Puts c src end_ s w s' w' → I s' w'
  take : ∀ {s w r rest page failure}, I s w → s.inFlight.length ≤ c.geometry.window - 1 →
    s.prefetch = r :: rest →
    Takes r w s.failure page failure → P r page { s.popPrefetch with failure } w
  ship : ∀ {r page s w}, P r page s w → I (s.handed r page w.ops.length)
    (w.begin_ (.send (c.key r.key) (if s.spoils r page then flipped page else page)))
  sent : ∀ {s w id rest work bytes}, I s w → s.inFlight = id :: rest →
    w.ops[id]? = some ⟨work, some (.done bytes)⟩ → I s.popInFlight w
  lost : ∀ {s w id rest work}, I s w → s.inFlight = id :: rest →
    w.ops[id]? = some ⟨work, some .failed⟩ → E s.popInFlight w

namespace Tends

variable [DecidableEq π] {e : Env μ} {c : Streaming} {src : Source} {end_ : ℕ}
  {ok : Io π μ γ → Call π μ γ → Prop} {I E : PageSender → Io π μ γ → Prop}
  {P : Reading → Bytes → PageSender → Io π μ γ → Prop}

section

variable (h : Tends e c src end_ ok I E P)
include h

theorem fillPass :
    Triple (io e) ok (fun s w => I s w ∧ s.prefetch.length < c.geometry.readAhead ∧ s.cursor < end_)
    (fillPass c src end_) (fun _ => I) fun _ => E := by
  rw [PageSender.fillPass]
  refine .readThen fun s₀ => ?_
  dsimp only
  cases hown : (if s₀.flipOneBit then none else src.sending s₀.cursor
    (min c.pageSize (end_ - s₀.cursor))) with
  | some bytes =>
    refine .modify ?_
    rintro s w ⟨rfl, hs, hroom, hlt⟩
    split_ifs at hown with hflip
    exact h.put hs hroom hlt (.own (Bool.eq_false_iff.mpr hflip) hown)
  | none =>
    -- the page is asked for and counted with the sender otherwise as it was
    let M (s : PageSender) (w : Io π μ γ) : Prop :=
      s.cursor = s₀.cursor ∧ I s w ∧ s.prefetch.length < c.geometry.readAhead ∧ s.cursor < end_
    have hstable : Stable (io e) M := fun s w w' hs hd => ⟨hs.1, h.stable s w w' hs.2.1 hd, hs.2.2⟩
    have hrefused : ∀ s w f left, M s w →
        I (s.pushFailed f { key := s₀.cursor, length := c.take (end_ - s₀.cursor) })
          { w with left } := by
      rintro s w f left ⟨heq, hs, hroom, hlt⟩
      rw [← heq]
      exact h.put hs hroom hlt (.refused f left)
    refine Triple.bind (M := fun _ => M) ((Pipe.acquire_spec hstable
      (fun _ _ hs => h.acquires hs.2.1 hs.2.2.1) fun _ _ hs => h.gives hs.2.1).pre ?_) fun _ => ?_
    · rintro s w ⟨rfl, hs⟩
      exact ⟨rfl, hs⟩
    refine Triple.bind (M := fun _ => M) (Triple.modify fun s w hs =>
      ⟨hs.1, h.counts _ _ hs.2.1, hs.2.2⟩) fun _ => ?_
    refine .ite (fun _ => .modify fun s w hs => hrefused s w _ _ hs) fun _ => ?_
    refine .bind
      (M := fun done s w => if done then I s w else ∃ u left, w = { u with left } ∧ M s u)
      (Pipe.submit_spec hstable (fun _ _ hs => h.submits _ hs.2.1)
        (fun _ w left hs => ⟨w, left, rfl, hs⟩) ?_) fun done => ?_
    · rintro s w ⟨heq, hs, hroom, hlt⟩
      rw [← heq]
      refine h.put hs hroom hlt (.read ?_)
      split_ifs
      · exact le_min (le_alignUp _) (c.take_le_page _)
      · exact le_rfl
    · cases done with
      | true => exact .pure fun _ _ hs => hs
      | false =>
        refine .modify ?_
        rintro s _ ⟨u, left, rfl, hs⟩
        exact hrefused s u _ left hs

theorem fill : Triple (io e) ok I (fill c src end_)
      (fun _ s w => I s w ∧ (1 ≤ c.geometry.readAhead → s.prefetch = [] → end_ ≤ s.cursor)) fun _ =>
      E := by
  refine (Triple.loop (h.fillPass.pre fun s w hs => ⟨hs.1, ?_⟩) _).conseq (fun _ _ hs => hs)
    (fun _ s w hs => ⟨hs.1, ?_⟩) fun _ _ _ hs => hs
  · simpa using hs.2
  · intro hahead hnil
    have hcond := hs.2
    rw [hnil] at hcond
    simp only [length_nil, Bool.and_eq_false_iff, decide_eq_false_iff_not] at hcond
    omega

/-- A send is started for a page that was taken off. -/
theorem shipped {r : Reading} {page : Bytes} :
    Triple (io e) ok (P r page) (PageSender.ship c r page) (fun _ => I) fun _ => E := by
  rw [PageSender.ship]
  -- the page is hashed and, under the fault injector, spoilt before the world is asked for anything
  refine .bind (M := fun _ t v => ∃ u, P r page u v ∧ t = { u with whole := u.whole ++ page })
    (.modify ?_) fun _ => ?_
  · exact fun s w hs => ⟨s, hs, rfl⟩
  refine .readThen fun s₀ => ?_
  refine .bind (M := fun _ t v => ∃ u, P r page u v ∧ s₀.spoils r page = u.spoils r page ∧
    t = { u with whole := u.whole ++ page, flipOneBit := u.flipOneBit && !u.spoils r page })
    (.modify ?_) fun _ => ?_
  · rintro s w ⟨rfl, u, hu, rfl⟩
    exact ⟨u, hu, rfl, rfl⟩
  refine Pipe.launch_spec ?_ (fun _ _ ⟨_, hu, _⟩ => h.starts _ hu) ?_
  · rintro s w w' ⟨u, hu, hrest⟩ hd
    exact ⟨u, h.taken_stable r page u w w' hu hd, hrest⟩
  · rintro s w ⟨u, hu, hspoil, rfl⟩
    have hship := h.ship hu
    rw [← hspoil] at hship
    exact hship

theorem readOrZero (s₀ : PageSender) {r : Reading} {rest : List Reading}
    (hq : s₀.prefetch = r :: rest) (hroom : s₀.inFlight.length ≤ c.geometry.window - 1)
    (hown : r.own = none) :
    Triple (io e) ok (fun s w => s = s₀ ∧ I s w) (readOrZero r) (fun got => P r (got.take r.length))
    fun _ => E := by
  rw [PageSender.readOrZero]
  cases hid : r.id with
  | none =>
    refine .bind (M := fun _ => P r ((List.replicate r.length 0).take r.length)) (.modify ?_)
      fun _ =>
      .pure fun _ _ hs => hs
    rintro s w ⟨rfl, hs⟩
    exact h.take hs hroom hq (.refused hown hid)
  | some id =>
    let M : Outcome → PageSender → Io π μ γ → Prop
      | .done bytes, s, w => P r (bytes.take r.length) s w
      | .failed, s, w =>
          P r ((List.replicate r.length 0).take r.length)
            { s with failure := s.failure <|> some .read } w
    refine Triple.bind (M := M) (Pipe.retire_spec ?_ (fun _ _ hs => h.awaits _ hs.2) ?_) fun out =>
      ?_
    · exact fun s w w' hs hd => ⟨hs.1, h.stable s w w' hs.2 hd⟩
    · rintro s w out work ⟨rfl, hs⟩ hended
      cases out with
      | failed => exact h.take hs hroom hq (.failed hid hended)
      | done bytes => exact h.take hs hroom hq (.read hown hid hended)
    · cases out with
      | done bytes => exact .pure fun _ _ hs => hs
      | failed =>
        exact .bind (M := fun _ => P r ((List.replicate r.length 0).take r.length))
          (.modify fun _ _ hs => hs) fun _ => .pure fun _ _ hs => hs

theorem shipReady :
    Triple (io e) ok (fun s w => I s w ∧ s.inFlight.length ≤ c.geometry.window - 1)
    (shipReady c src) (fun _ => I) fun _ => E := by
  rw [PageSender.shipReady]
  refine .readThen fun s₀ => ?_
  cases hq : s₀.prefetch with
  | nil => exact .pure fun _ _ hs => hs.2.1
  | cons r rest =>
    refine .ite (fun _ => .fail fun _ _ hs => h.gives hs.2.1) fun _ => ?_
    refine .given (c := s₀.inFlight.length ≤ c.geometry.window - 1) (fun s w hs => hs.1 ▸ hs.2.2)
      fun hroom => ?_
    refine .bind (M := fun _ s w => s = { s₀ with shipped := s₀.shipped + 1 } ∧ I s w) (.modify ?_)
      fun _ => ?_
    · rintro s w ⟨rfl, hs, -⟩
      exact ⟨rfl, h.counts _ _ hs⟩
    · cases hown : r.own with
      | some bytes =>
        refine .bind (M := fun _ => P r bytes) (.modify ?_) fun _ => h.shipped
        rintro s w ⟨rfl, hs⟩
        exact h.take (r := r) hs hroom hq (.own hown)
      | none =>
        exact .bind (h.readOrZero { s₀ with shipped := s₀.shipped + 1 } hq hroom hown) fun _ =>
          h.shipped

/-- What the end of a send keeps, draining keeps. -/
theorem drain (keep : ℕ) :
    Triple (io e) ok I (drain keep) (fun _ s w => I s w ∧ s.inFlight.length ≤ keep) fun _ => E :=
  Pipe.drainTo_spec h.stable (fun id _ _ hs => h.awaits id hs)
    (fun _ _ _ _ _ _ hs hq hended => h.sent hs hq hended) fun _ _ _ _ _ hs hq hended =>
    h.lost hs hq hended

theorem orGiveUp {m : Pipe π μ γ PageSender Unit} {A : PageSender → Io π μ γ → Prop}
    {Q : Unit → PageSender → Io π μ γ → Prop} (hm : Triple (io e) ok A m Q fun _ => E) :
    Triple (io e) ok A (orGiveUp m) Q fun _ => E := by
  let M : Except Fault Unit → PageSender → Io π μ γ → Prop
    | .ok _, s, w => Q () s w
    | .error _, s, w => E s w
  refine .bind (M := M) (.outcome hm) fun r => ?_
  cases r with
  | ok _ => exact .pure fun _ _ hs => hs
  | error f =>
    exact .bind (M := fun _ => E) (.modify fun _ _ hs => h.unsent hs) fun _ =>
      .fail fun _ _ hs => hs

theorem runLoop (fuel : ℕ) : Triple (io e) ok I (runLoop c src end_ fuel)
      (fun _ s w => I s w ∧ (1 ≤ c.geometry.readAhead → s.prefetch = [] ∧ end_ ≤ s.cursor)) fun _ =>
      E := by
  induction fuel with
  | zero => exact .hang
  | succ fuel ih =>
    rw [PageSender.runLoop]
    refine .readThen fun s₀ => .ite (fun _ => ?_) fun hstop => .pure ?_
    · refine .bind (h.orGiveUp (h.fill.pre fun _ _ hs => hs.2)) fun _ => .readThen fun s₁ => ?_
      refine .ite (fun hnil => .pure ?_) fun _ => ?_
      · rintro s w ⟨rfl, hs, hend⟩
        have hnil := List.isEmpty_iff.mp hnil
        exact ⟨hs, fun hahead => ⟨hnil, hend hahead hnil⟩⟩
      · exact .bind (h.orGiveUp ((h.drain _).pre fun _ _ hs => hs.2.1)) fun _ =>
          .bind (h.orGiveUp h.shipReady) fun _ => ih
    · rintro s w ⟨rfl, hs⟩
      refine ⟨hs, fun _ => ?_⟩
      simp only [Bool.or_eq_true, decide_eq_true_eq, Bool.not_eq_true', not_or, Nat.not_lt,
        Bool.not_eq_false, List.isEmpty_iff] at hstop
      exact ⟨hstop.2, hstop.1⟩

end

/-- **A run that ends well** has failed nowhere, and has nothing left to send. -/
theorem run {offset length : ℕ} (h : Tends e c src (pastEnd offset length) ok I E P) (fuel : ℕ) :
    Triple (io e) ok (fun s w => I { s with cursor := offset } w) (run c src fuel offset length)
      (fun n s w => n = length ∧ I s w ∧ s.inFlight = [] ∧ s.failure = none ∧
        (1 ≤ c.geometry.readAhead → s.prefetch = [] ∧ pastEnd offset length ≤ s.cursor)) fun _ =>
        E := by
  rw [PageSender.run]
  refine .bind (M := fun _ => I) (.modify fun _ _ hs => hs) fun _ => .bind (h.runLoop fuel) fun _ =>
    ?_
  refine Triple.bind (h.orGiveUp (Pipe.drainTo_spec ?_ (fun id _ _ hs => h.awaits id hs.1) ?_ ?_))
    fun _ =>
    .readThen fun s₀ => ?_
  · exact fun s w w' hs hd => ⟨h.stable s w w' hs.1 hd, hs.2⟩
  · exact fun s w id rest work bytes hs hq hended => ⟨h.sent hs.1 hq hended, hs.2⟩
  · exact fun s w id rest work hs hq hended => h.lost hs.1 hq hended
  cases hfail : s₀.failure with
  | some f => exact .fail fun s w hs => h.gives hs.2.1.1
  | none =>
    refine .pure ?_
    rintro s w ⟨rfl, ⟨hs, hend⟩, hsent⟩
    exact ⟨rfl, hs, eq_nil_of_length_eq_zero (Nat.le_zero.mp hsent), hfail, hend⟩

end Tends

variable [DecidableEq π] {e : Env μ} {ok : Io π μ γ → Call π μ γ → Prop}
  {J : PageSender → Io π μ γ → Prop}

/-- What the end of each operation keeps, going quiet keeps; and both queues are empty then. -/
theorem quiesce_keeps (hJ : Stable (io e) J) (hok : ∀ id s w, J s w → ok w (.await id))
    (hsent : ∀ s w id rest work out, J s w → s.inFlight = id :: rest →
      w.ops[id]? = some ⟨work, some out⟩ →
      J s.popInFlight w) (hread : ∀ s w r rest, J s w → s.prefetch = r :: rest →
      (∀ id, r.id = some id → ∃ work out, w.ops[id]? = some ⟨work, some out⟩) → J s.popPrefetch w) :
    Triple (io e) ok J (quiesce (π := π) (γ := γ)) (fun _ s w => J s w ∧ s.inFlight = [] ∧
      s.prefetch = []) fun _ _ _ => False := by
  have hpass : Triple (io e) ok (fun s w => J s w ∧ s.inFlight = []) (quiesceRead (π := π) (γ := γ))
      (fun _ s w => J s w ∧ s.inFlight = []) fun _ _ _ => False := by
    rw [quiesceRead]
    refine .readThen fun s₀ => ?_
    cases hq : s₀.prefetch with
    | nil => exact .pure fun s w hs => hs.2
    | cons r rest =>
      dsimp only
      cases hid : r.id with
      | none =>
        refine .modify ?_
        rintro s w ⟨rfl, hs, hnil⟩
        refine ⟨hread s w r rest hs hq fun id hsome => ?_, hnil⟩
        rw [hid] at hsome
        cases hsome
      | some id =>
        refine .bind (M := fun _ s w => J s w ∧ s.inFlight = [])
          (Pipe.retire_spec ?_ (fun s w hs => hok id s w hs.2.1) ?_) fun _ =>
          Triple.pure fun _ _ hs => hs
        · exact fun s w w' hs hd => ⟨hs.1, hJ s w w' hs.2.1 hd, hs.2.2⟩
        · rintro s w out work ⟨rfl, hs, hnil⟩ hended
          refine ⟨hread s w r rest hs hq fun id' hsome => ?_, hnil⟩
          obtain rfl := mem_unique hid hsome
          exact ⟨work, out, hended⟩
  rw [quiesce]
  refine Triple.bind (Pipe.quiesceQueue_spec hJ hok hsent) fun _ => Triple.readThen fun s₀ => ?_
  exact (Triple.loop (hpass.pre fun _ _ hs => hs.1) _).conseq (fun s w hs => hs.2)
    (fun _ s w hs => ⟨hs.1.1, hs.1.2, by simpa using hs.2⟩) fun _ _ _ hs => hs

end Parts

/-! ### What a sender keeps to -/

/-- The operations that the sender has to look after. -/
def ids (s : PageSender) : List ℕ := s.prefetch.filterMap Reading.id ++ s.inFlight

end PageSender

/-- How far a page takes the cursor. -/
def Reading.size (r : Reading) : ℕ := (r.own.map List.length).getD r.length

/-- The pages read ahead follow each other from one offset to another, and none of them has been
given up. -/
def Lined (remote : Bytes) : ℕ → List Reading → ℕ → Prop
  | a, [], b => a = b
  | a, r :: rest, b =>
    (r.key = a ∧ (r.own = none → r.id.isSome) ∧ ∀ bytes, r.own = some bytes →
      bytes = slice remote a bytes.length) ∧
      Lined remote (a + r.size) rest b

variable {q : List Reading}

theorem Lined.le {remote : Bytes} {a b : ℕ} (h : Lined remote a q b) : a ≤ b := by
  induction q generalizing a with
  | nil => exact le_of_eq h
  | cons r rest ih => exact (Nat.le_add_right _ _).trans (ih h.2)

theorem Lined.snoc {remote : Bytes} {a b : ℕ} (h : Lined remote a q b) {r : Reading}
    (hkey : r.key = b) (hid : r.own = none → r.id.isSome) (hown : ∀ bytes, r.own = some bytes →
      bytes = slice remote b bytes.length) :
    Lined remote a (q ++ [r]) (b + r.size) := by
  induction q generalizing a with
  | nil =>
    obtain rfl : a = b := h
    exact ⟨⟨hkey, hid, hown⟩, rfl⟩
  | cons q₀ rest ih => exact ⟨h.1, ih h.2⟩

/-- What is read and what is sent straight from the source are its bytes. -/
structure Source.Faithful (e : Env μ) (src : Source) (remote : Bytes) (offset end_ : ℕ) : Prop where
  reads : ∀ offset length bytes, e.reads offset length bytes → bytes = slice remote offset length
  sending : ∀ offset length bytes, src.sending offset length = some bytes →
    bytes = slice remote offset length
  order : offset ≤ end_
  fits : end_ ≤ remote.length

/-- Whatever was sent is where the source has it. -/
def Sends (c : Streaming) (remote : Bytes) (w : Io π μ γ) : Prop :=
  ∀ key bytes, Work.send key bytes ∈ w.works →
    ∃ offset, key = c.key offset ∧ bytes = slice remote offset bytes.length ∧
    offset + bytes.length ≤ remote.length

namespace PageSender

section Invariant

variable (e : Env μ) (c : Streaming) (src : Source) (w₀ : Io π μ γ) (remote : Bytes)
  (offset end_ : ℕ) (flip : Bool)

/-- While nothing has failed, what was hashed is what the source has, and the pages read ahead go on
from there. -/
structure Sound (whole : Bytes) (prefetch : List Reading) (cursor hashed : ℕ) (w : Io π μ γ) :
    Prop where
  whole : whole = slice remote offset whole.length
  lined : Lined remote (offset + hashed) prefetch cursor
  cursor_le : cursor ≤ end_
  sends : flip = false → Sends c remote w

/-- What a sender keeps to. -/
structure Inv (s : PageSender) (w : Io π μ γ) : Prop where
  held : Held e w₀ s.ids w
  asked : ∀ r ∈ s.prefetch, ∀ id, r.id = some id → ∃ ask, r.length ≤ ask ∧
    w.works[id]? = some (.read r.key ask)
  unflipped : flip = false → s.flipOneBit = false
  sound : src.Faithful e remote offset end_ → s.failure = none →
    Sound c remote offset end_ flip s.whole s.prefetch s.cursor s.whole.length w

/-- A page has been taken off, and not been hashed yet. -/
structure Popped (key : ℕ) (page : Bytes) (s : PageSender) (w : Io π μ γ) : Prop where
  held : Held e w₀ s.ids w
  asked : ∀ r ∈ s.prefetch, ∀ id, r.id = some id → ∃ ask, r.length ≤ ask ∧
    w.works[id]? = some (.read r.key ask)
  unflipped : flip = false → s.flipOneBit = false
  sound : src.Faithful e remote offset end_ → s.failure = none →
    Sound c remote offset end_ flip s.whole s.prefetch s.cursor (s.whole.length + page.length) w ∧
      key = offset + s.whole.length ∧ page = slice remote key page.length

/-- Nothing of the sender's has been started or hashed. -/
structure Fresh (s : PageSender) : Prop where
  prefetch : s.prefetch = []
  inFlight : s.inFlight = []
  whole : s.whole = []
  flip : flip = false → s.flipOneBit = false

/-- What a stream that has returned without an error leaves. -/
def Streamed (s : PageSender) (w : Io π μ γ) : Prop :=
  src.Faithful e remote offset end_ → 1 ≤ c.geometry.readAhead →
    s.prefetch = [] ∧ s.whole = slice remote offset (end_ - offset) ∧
    (flip = false → Sends c remote w)

end Invariant

section Invariant

variable {e : Env μ} {c : Streaming} {src : Source} {w₀ : Io π μ γ} {remote : Bytes}
  {offset end_ : ℕ} {flip : Bool}

variable {w : Io π μ γ} {s : PageSender} {rest : List Reading} {work : Work} {id : ℕ}

theorem sends_of_works {w' : Io π μ γ} (h : Sends c remote w) (hworks : w'.works = w.works) :
    Sends c remote w' := by
  intro key bytes hmem
  rw [hworks] at hmem
  exact h key bytes hmem

theorem sends_begin (h : Sends c remote w) (hwork : ∀ key bytes, work ≠ .send key bytes) :
    Sends c remote (w.begin_ work) := by
  intro key bytes hmem
  rw [works_begin] at hmem
  rcases mem_append.mp hmem with hmem | hmem
  · exact h key bytes hmem
  · exact absurd (mem_singleton.mp hmem).symm (hwork key bytes)

theorem asked_begin (h : ∀ r ∈ q, ∀ id, r.id = some id → ∃ ask, r.length ≤ ask ∧
      w.works[id]? = some (.read r.key ask)) : ∀ r ∈ q, ∀ id, r.id = some id → ∃ ask,
      r.length ≤ ask ∧ (w.begin_ work).works[id]? = some (.read r.key ask) := by
  intro r hr id hid
  obtain ⟨ask, hle, hask⟩ := h r hr id hid
  exact ⟨ask, hle, works_begin_of_some hask⟩

theorem inv_stable [DecidableEq π] : Stable (io e) (Inv e c src w₀ remote offset end_ flip) := by
  intro s w w' h hd
  have hworks := works_of_drift hd
  refine ⟨h.held.drift hd, ?_, h.unflipped, fun hf hn => ?_⟩
  · rw [hworks]
    exact h.asked
  · obtain ⟨hwhole, hlined, hle, hsends⟩ := h.sound hf hn
    exact ⟨hwhole, hlined, hle, fun hflip => sends_of_works (hsends hflip) hworks⟩

variable {page : Bytes}

theorem popped_stable [DecidableEq π] {key : ℕ} :
    Stable (io e) (Popped e c src w₀ remote offset end_ flip key page) := by
  intro s w w' h hd
  have hworks := works_of_drift hd
  refine ⟨h.held.drift hd, ?_, h.unflipped, fun hf hn => ?_⟩
  · rw [hworks]
    exact h.asked
  · obtain ⟨⟨hwhole, hlined, hle, hsends⟩, hpage⟩ := h.sound hf hn
    exact ⟨⟨hwhole, hlined, hle, fun hflip => sends_of_works (hsends hflip) hworks⟩, hpage⟩

theorem ids_subset_push (s : PageSender) (r : Reading) (past : ℕ) :
    s.ids ⊆ (s.push r past).ids := by
  intro i hi
  simp only [ids, push, filterMap_append, mem_append] at hi ⊢
  rcases hi with hi | hi
  · exact .inl (.inl hi)
  · exact .inr hi

section

variable (h : Inv e c src w₀ remote offset end_ flip s w)
include h

/-- A page of the source's own is queued. -/
theorem Inv.push_own {take : ℕ} {bytes : Bytes}
    (hbytes : src.sending s.cursor take = some bytes) (htake : s.cursor + take ≤ end_) :
    Inv e c src w₀ remote offset end_ flip
      (s.push { key := s.cursor, length := take % 2 ^ 32, origin := .own bytes } take) w where
  held := h.held.mono (ids_subset_push s _ _)
  asked := forall_mem_append.mpr ⟨h.asked, forall_mem_singleton.mpr nofun⟩
  unflipped := h.unflipped
  sound := by
    intro hf hn
    obtain ⟨hwhole, hlined, hle, hsends⟩ := h.sound hf hn
    have hslice := hf.sending _ _ _ hbytes
    have hfits := hf.fits
    have hlen : bytes.length = take := by
      rw [hslice, length_slice]
      omega
    refine ⟨hwhole, ?_, htake, hsends⟩
    have hsnoc := hlined.snoc (r :=
      { key := s.cursor, length := take % 2 ^ 32, origin := .own bytes }) rfl
      (fun hnone => by cases hnone) (fun b hb => by cases hb; rw [hlen]; exact hslice)
    rw [show Reading.size _ = bytes.length from rfl, hlen] at hsnoc
    exact hsnoc

/-- A page whose read was submitted is queued. -/
theorem Inv.push_read {take ask : ℕ} (hask : take ≤ ask) (htake : s.cursor + take ≤ end_) :
    Inv e c src w₀ remote offset end_ flip
    (s.push { key := s.cursor, length := take, origin := .reading w.ops.length } take)
    (w.begin_ (.read s.cursor ask)) where
  held := by
    refine h.held.begin _ ?_
    rw [ids, ids, push, filterMap_append]
    exact push_left_subset _ _ _
  asked := by
    refine forall_mem_append.mpr ⟨asked_begin h.asked, forall_mem_singleton.mpr fun id hid => ?_⟩
    obtain rfl : w.ops.length = id := some.inj hid
    exact ⟨ask, hask, works_begin_last w _⟩
  unflipped := h.unflipped
  sound := by
    intro hf hn
    obtain ⟨hwhole, hlined, hle, hsends⟩ := h.sound hf hn
    refine ⟨hwhole, ?_, htake, fun hflip => sends_begin (hsends hflip) fun _ _ hw => by cases hw⟩
    exact hlined.snoc rfl (fun _ => rfl) (fun _ hb => by cases hb)

/-- A page that could not be read is queued all the same, and the stream has failed. -/
theorem Inv.push_failed (f : Fault) (key length : ℕ) (left : List Work) :
    Inv e c src w₀ remote offset end_ flip (s.pushFailed f { key, length }) { w with left } where
  held := (h.held.left left).mono (ids_subset_push s { key, length } length)
  asked := forall_mem_append.mpr ⟨h.asked, forall_mem_singleton.mpr nofun⟩
  unflipped := h.unflipped
  sound := by
    intro _ hn
    rw [pushFailed] at hn
    cases hfail : s.failure <;> rw [hfail] at hn <;> cases hn

end

theorem Inv.pop_inFlight (h : Inv e c src w₀ remote offset end_ flip s w) {rest : List ℕ}
    {r : Outcome} (hq : s.inFlight = id :: rest) (hended : w.ops[id]? = some ⟨work, some r⟩) :
    Inv e c src w₀ remote offset end_ flip s.popInFlight w :=
  { h with held := h.held.drop hended (mem_of_pop_right hq) }

variable {r : Reading}

theorem mem_ids_popPrefetch (hq : s.prefetch = r :: rest) :
    ∀ i ∈ s.ids, r.id = some i ∨ i ∈ s.popPrefetch.ids := by
  intro i hi
  simp only [ids, popPrefetch, hq, mem_append, tail_cons, mem_filterMap, mem_cons] at hi ⊢
  rcases hi with ⟨q, rfl | hq, hid⟩ | hi
  · exact .inl hid
  · exact .inr (.inl ⟨q, hq, hid⟩)
  · exact .inr (.inr hi)

/-- Nothing is let go of with a page that has no read. -/
theorem held_popPrefetch_none (h : Held e w₀ s.ids w) (hq : s.prefetch = r :: rest)
    (hid : r.id = none) : Held e w₀ s.popPrefetch.ids w := by
  refine h.mono fun i hi => (mem_ids_popPrefetch hq i hi).resolve_left ?_
  rw [hid]
  exact fun hnone => by cases hnone

theorem held_popPrefetch_ended (h : Held e w₀ s.ids w) (hq : s.prefetch = r :: rest)
    (hid : r.id = some id) {q : Outcome} (hended : w.ops[id]? = some ⟨work, some q⟩) :
    Held e w₀ s.popPrefetch.ids w := by
  refine h.drop hended fun i hi => (mem_ids_popPrefetch hq i hi).imp_left fun hi => ?_
  rw [hid] at hi
  exact (some.inj hi).symm

/-- The front is taken off: what its page is, while nothing has failed, is for the caller to say. -/
theorem Inv.pop_prefetch (h : Inv e c src w₀ remote offset end_ flip s w)
    (hq : s.prefetch = r :: rest) (hheld : Held e w₀ s.popPrefetch.ids w)
    (hpage : src.Faithful e remote offset end_ → s.failure = none → (r.own = none → r.id.isSome) →
      (∀ bytes, r.own = some bytes → bytes = slice remote r.key bytes.length) →
      r.key + r.size ≤ end_ → page = slice remote r.key r.size) :
      Popped e c src w₀ remote offset end_ flip r.key page s.popPrefetch w where
  held := hheld
  asked := by
    intro q hmem
    refine h.asked q ?_
    rw [hq]
    rw [popPrefetch, hq] at hmem
    exact mem_cons_of_mem _ hmem
  unflipped := h.unflipped
  sound := by
    intro hf hn
    obtain ⟨hwhole, hlined, hle, hsends⟩ := h.sound hf hn
    rw [hq] at hlined
    obtain ⟨⟨hkey, hid, hown⟩, hlined⟩ := hlined
    have hend := hlined.le
    have hfits := hf.fits
    have hslice := hpage hf hn hid (by rw [hkey]; exact hown) (by omega)
    have hlen : page.length = r.size := by
      rw [hslice, length_slice]
      omega
    rw [popPrefetch, hq, tail_cons]
    refine ⟨⟨hwhole, ?_, hle, hsends⟩, hkey, by rw [hlen]; exact hslice⟩
    rw [hlen, ← Nat.add_assoc]
    exact hlined

/-- A page that was taken off is handed to its send. -/
theorem Popped.handed (h : Popped e c src w₀ remote offset end_ flip r.key page s w) :
    Inv e c src w₀ remote offset end_ flip (s.handed r page w.ops.length)
      (w.begin_ (.send (c.key r.key) (if s.spoils r page then flipped page else page))) := by
  have hspoil : flip = false → s.spoils r page = false := fun hflip => by
    rw [spoils, h.unflipped hflip, Bool.false_and, Bool.false_and]
  refine ⟨h.held.begin _ ?_, asked_begin h.asked, fun hf => ?_, fun hf hn => ?_⟩
  · rw [ids, ids, append_assoc]
    exact .refl _
  · rw [PageSender.handed, h.unflipped hf]
    rfl
  · obtain ⟨⟨hwhole, hlined, hle, hsends⟩, hkey, hpage⟩ := h.sound hf hn
    have hend := hlined.le
    have hfits := hf.fits
    refine ⟨?_, ?_, hle, fun hflip => ?_⟩
    · rw [PageSender.handed, length_append, ← slice_append_slice, ← hwhole, ← hkey, ← hpage]
    · rw [PageSender.handed, length_append]
      exact hlined
    · intro key bytes hmem
      rw [works_begin] at hmem
      rcases mem_append.mp hmem with hmem | hmem
      · exact hsends hflip key bytes hmem
      · have hwork := mem_singleton.mp hmem
        rw [hspoil hflip, if_neg Bool.false_ne_true] at hwork
        cases hwork
        exact ⟨r.key, rfl, hpage, by omega⟩

/-- What is taken off the front. -/
theorem Inv.take {failure : Option Fault} (h : Inv e c src w₀ remote offset end_ flip s w)
    (hq : s.prefetch = r :: rest) (htakes : Takes r w s.failure page failure) :
    Popped e c src w₀ remote offset end_ flip r.key page { s.popPrefetch with failure } w := by
  cases htakes with
  | own hown =>
    refine h.pop_prefetch hq (held_popPrefetch_none h.held hq (Reading.id_of_own hown))
      fun _ _ _ hslice _ => ?_
    rw [Reading.size, hown]
    exact hslice _ hown
  | refused hown hid =>
    refine h.pop_prefetch hq (held_popPrefetch_none h.held hq hid) fun _ _ hsome => ?_
    rw [hid] at hsome
    exact absurd (hsome hown) Bool.false_ne_true
  | read hown hid hended =>
    refine h.pop_prefetch hq (held_popPrefetch_ended h.held hq hid hended) fun hf _ _ _ hend => ?_
    -- the read was for at least the page, of bytes that the source has
    obtain ⟨ask, hask, hwork⟩ := h.asked r (by rw [hq]; exact mem_cons_self) _ hid
    rw [works_getElem? hended] at hwork
    cases hwork
    have hread := hf.reads _ _ _ (h.held.honest _ (mem_of_getElem? hended))
    rw [Reading.size, hown, hread, slice, slice, take_take]
    exact congrArg (List.take · _) (min_eq_left hask)
  | failed hid hended =>
    refine ⟨held_popPrefetch_ended h.held hq hid hended, fun q hmem => h.asked q ?_, h.unflipped,
      fun _ hn => ?_⟩
    · rw [hq]
      rw [popPrefetch, hq] at hmem
      exact mem_cons_of_mem _ hmem
    · cases hfail : s.failure <;> simp [hfail] at hn

variable [DecidableEq π] {ok : Io π μ γ → Call π μ γ → Prop}
  (hok : ∀ w o, Calm w₀ w → Silent o → ok w o)

include hok

variable (e c src remote offset end_ flip) in
/-- **Every part of the code keeps the invariant.** -/
theorem Inv.tends :
    Tends e c src end_ ok (Inv e c src w₀ remote offset end_ flip) (fun s w => Held e w₀ s.ids w)
    fun r => Popped e c src w₀ remote offset end_ flip r.key where
  stable := inv_stable
  taken_stable _ _ := popped_stable
  acquires h _ := hok _ _ h.held.calm trivial
  submits _ h := hok _ _ h.held.calm trivial
  awaits _ h := hok _ _ h.held.calm trivial
  starts _ h := hok _ _ h.held.calm trivial
  gives h := h.held
  unsent h := h
  counts _ _ h := { h with }
  put {s _ _ _} h _ hlt hputs := by
    cases hputs with
    | own _ hbytes => exact h.push_own hbytes (by omega)
    | refused f left => exact h.push_failed f _ _ left
    | read hask => exact h.push_read hask (by have := c.take_le (end_ - s.cursor); omega)
  take h _ hq htakes := h.take hq htakes
  ship h := h.handed
  sent h := h.pop_inFlight
  lost h hq hended := (h.pop_inFlight hq hended).held

theorem run_spec {fuel length : ℕ} : Triple (io e) ok
      (fun s w => Fresh flip s ∧ Held e w₀ [] w ∧ (flip = false → Sends c remote w))
      (run c src fuel offset length)
      (fun n s w => n = length ∧ Held e w₀ s.ids w ∧
      Streamed e c src remote offset (pastEnd offset length) flip s w) fun _ s w =>
      Held e w₀ s.ids w := by
  refine ((Inv.tends e c src remote offset (pastEnd offset length) flip hok).run fuel).conseq ?_ ?_
    fun _ _ _ h => h
  · rintro s w ⟨hfresh, hheld, hsends⟩
    refine ⟨?_, ?_, hfresh.flip, fun hf _ => ⟨?_, ?_, hf.order, hsends⟩⟩
    · rwa [ids, hfresh.prefetch, hfresh.inFlight]
    · intro r hr
      rw [hfresh.prefetch] at hr
      exact absurd hr not_mem_nil
    · rw [hfresh.whole]
      exact (slice_zero_length _ _).symm
    · rw [hfresh.whole, hfresh.prefetch]
      rfl
  · rintro n s w ⟨hn, h, -, hfail, hend⟩
    refine ⟨hn, h.held, fun hf hahead => ?_⟩
    obtain ⟨hnil, hcursor⟩ := hend hahead
    obtain ⟨hwhole, hlined, hle, hsends⟩ := h.sound hf hfail
    rw [hnil] at hlined
    have hdone : offset + s.whole.length = s.cursor := hlined
    refine ⟨hnil, ?_, hsends⟩
    rw [hwhole, show pastEnd offset length - offset = s.whole.length by omega, ← hwhole]

/-- **Whatever the sender started has ended when it has gone quiet.** -/
theorem quiesce_spec {G : PageSender → Io π μ γ → Prop} (hG : Stable (io e) G)
    (hsent : ∀ s w, G s w → G s.popInFlight w)
    (hread : ∀ s w r rest, s.prefetch = r :: rest → G s w → G s.popPrefetch w) :
    Triple (io e) ok (fun s w => Held e w₀ s.ids w ∧ G s w) (quiesce (π := π) (γ := γ))
      (fun _ s w => Held e w₀ [] w ∧ G s w) fun _ _ _ => False := by
  refine (quiesce_keeps ?_ (fun _ s w h => hok w _ h.1.calm trivial) ?_ ?_).conseq (fun _ _ h =>
    h) ?_ fun _ _ _ h => h
  · exact fun s w w' h hd => ⟨h.1.drift hd, hG s w w' h.2 hd⟩
  · exact fun s w id rest work r h hq hended =>
      ⟨h.1.drop hended (mem_of_pop_right hq), hsent s w h.2⟩
  · intro s w r rest h hq hended
    refine ⟨?_, hread s w r rest hq h.2⟩
    cases hid : r.id with
    | none => exact held_popPrefetch_none h.1 hq hid
    | some id =>
      obtain ⟨work, out, hended⟩ := hended id hid
      exact held_popPrefetch_ended h.1 hq hid hended
  · rintro _ s w ⟨⟨hheld, hg⟩, hnil, hempty⟩
    rw [ids, hempty, hnil] at hheld
    exact ⟨hheld, hg⟩

variable (remote flip) in
/-- **A stream ends with nothing outstanding**, and one that ends well has hashed what the source
has. -/
theorem stream_spec {fuel length : ℕ} : Triple (io e) ok
      (fun s w => Fresh flip s ∧ Held e w₀ [] w ∧ (flip = false → Sends c remote w))
      (stream c src fuel offset length)
      (fun n s w => n = length ∧ Held e w₀ [] w ∧
      Streamed e c src remote offset (pastEnd offset length) flip s w) fun _ _ w =>
      Held e w₀ [] w := by
  let M : Except Fault ℕ → PageSender → Io π μ γ → Prop
    | .ok n, s, w => n = length ∧ Held e w₀ s.ids w ∧
        Streamed e c src remote offset (pastEnd offset length) flip s w
    | .error _, s, w => Held e w₀ s.ids w
  rw [stream]
  refine .bind (M := M) (.outcome (run_spec hok)) fun r => ?_
  cases r with
  | ok n =>
    refine .bind (M := fun _ s w => Held e w₀ [] w ∧
      (n = length ∧ Streamed e c src remote offset (pastEnd offset length) flip s w))
      ((quiesce_spec hok ?_ ?_ ?_).conseq (fun s w h => ⟨h.2.1, h.1, h.2.2⟩) (fun _ _ _ h =>
        h) fun _ _ _ h => h.elim)
      fun _ => .pure fun s w h => ⟨h.2.1, h.1, h.2.2⟩
    · rintro s w w' ⟨hn, h⟩ hd
      refine ⟨hn, fun hf hahead => ?_⟩
      obtain ⟨hnil, hwhole, hsends⟩ := h hf hahead
      exact ⟨hnil, hwhole, fun hflip => sends_of_works (hsends hflip) (works_of_drift hd)⟩
    · exact fun s w h => h
    · rintro s w r rest hq ⟨hn, h⟩
      refine ⟨hn, fun hf hahead => ?_⟩
      rw [(h hf hahead).1] at hq
      cases hq
  | error f =>
    refine .bind (M := fun _ _ w => Held e w₀ [] w)
      ((quiesce_spec hok (G := fun _ _ => True) (fun _ _ _ _ _ => trivial) (fun _ _ _ => trivial)
        fun _ _ _ _ _ _ => trivial).conseq (fun s w h => ⟨h, trivial⟩) (fun _ _ _ h =>
        h.1) fun _ _ _ h => h.elim)
      fun _ => .fail fun _ _ h => h

end Invariant

end PageSender

end Rail.Transfer
