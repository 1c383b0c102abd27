import Rail.Client.Streaming
import Rail.Transfer.Fetch
import Rail.Transport.TcpChannel
import Rail.Proto.Message

/-!
# What a ranged read does to the caller's memory

`submitPosted` and `collectRead` of `src/file-client.cc`.  A read asks for as many bytes as the
caller has room for.  The daemon answers with a page on the data channel and with a `TransferReply`
on the control channel; the page has the length that was asked for, or the receive fails, but the
length in the reply is whatever the daemon says.  It is that length which is copied out of the page
into the caller's span, and which is reported.

`Access` is what the code reads of the page and writes of the span, both from their start.  A read
stays inside (`Stays`) exactly if a reply that is taken does not claim more than was asked for
(`collectRead_stays_iff`).
-/

namespace Rail.Client

open List Proto Transfer

/-- Bytes from the start of the page that are read, or from the start of the caller's span that are
written. -/
inductive Access where
  | read (n : ℕ)
  | write (n : ℕ)
  deriving DecidableEq

/-- `ReadOutcome`. -/
structure ReadOutcome where
  bytes : ℕ
  fileSize : UInt64
  deriving DecidableEq

inductive ReadError where
  /-- The control channel, or the receive, has failed. -/
  | lost (why : String)
  /-- `Reply->Error`. -/
  | refused (why : Wire.Bytes)
  /-- The page hash does not match. -/
  | corrupt
  deriving DecidableEq

/-- Where a read is to go. -/
inductive Into where
  | span (size : ℕ)
  | page (capacity : ℕ) (registered : Bool)
  deriving DecidableEq

namespace Ranged

/-- `Impl::Posted`. -/
structure Posted where
  id : UInt64
  /-- `Into.size()`. -/
  asked : ℕ
  /-- The size of the page that the receive was posted on. -/
  want : ℕ
  /-- `Direct`: that page is the caller's. -/
  direct : Bool
  deriving DecidableEq

structure State where
  nextId : UInt64 := 1
  reads : List Posted := []
  sent : List ReadRequest := []
  deriving DecidableEq

inductive Event where
  /-- `submitRead`; whether the request can be sent, and whether there is a page for it, is left
  open. -/
  | submit (path : Wire.Bytes) (offset handle : UInt64) (into : Into) (sends acquires : Bool)
  /-- `collectRead` has returned, and forgotten the read. -/
  | collect (id : UInt64)
  deriving DecidableEq

section Read

variable (pages pageSize : ℕ) (s : State)

/-- What `submitPosted` refuses before it does anything. -/
def refusal (want : ℕ) : Option String :=
  if want = 0 then some "read of no bytes"
  else if pageSize < want then some s!"read of {want} bytes exceeds the page size"
  else if maxOutstanding pages ≤
    s.reads.length then some "too many reads in flight for the buffer pool"
  else none

/-- `submitPosted`.  A read whose request is not sent, or that gets no page, is forgotten again. -/
def submitPosted (path : Wire.Bytes) (offset handle : UInt64) (asked : ℕ) (direct : Bool) (want : ℕ)
    (sends acquires : Bool) : State :=
  match refusal pages pageSize s want with
  | some _ => s
  | none =>
    let s' := { s with nextId := s.nextId + 1 }
    if !sends then s'
    else
      let s' := { s' with sent := s.sent ++ [⟨s.nextId, path, offset, UInt32.ofNat want, handle⟩] }
      if direct || acquires then { s' with
        reads := s.reads ++ [⟨s.nextId, asked, want, direct⟩] } else s'

/-- Both of `submitRead`. -/
def submitRead (path : Wire.Bytes) (offset handle : UInt64) (sends acquires : Bool) : Into → State
  | .span n => submitPosted pages pageSize s path offset handle n false n sends acquires
  | .page n registered =>
      submitPosted pages pageSize s path offset handle n registered n sends acquires

def step : Event → Option State
  | .submit path offset handle into sends acquires =>
    some (submitRead pages pageSize s path offset handle sends acquires into)
  | .collect id => some { s with reads := s.reads.eraseP (·.id = id) }

end Read

/-- The receive of a read: a frame of another length fails it. -/
def Posted.landed (p : Posted) (frame : Except String Wire.Bytes) : Except String Wire.Bytes :=
  frame.bind fun page =>
    if page.length = p.want then .ok page else .error
      (Transport.Channel.mismatch p.id page.length p.want)

/-- `std::memcpy` of so many bytes of the page into the span. -/
def memcpy (n : ℕ) : List Access := [.read n, .write n]

variable (v : Verifier Digest) (p : Posted)

/-- What `collectRead` does with a page that has landed, and whether it is intact. -/
def takePage (r : TransferReply) (page : Wire.Bytes) : List Access × Bool :=
  let intact := v.accepts page r.payload
  (.read page.length :: if intact && !p.direct then memcpy r.length.toNat else [], intact)

/-- `collectRead`, when both channels have said what they have to say. -/
def collectRead (reply : Except String TransferReply) (frame : Except String Wire.Bytes) :
    List Access × Except ReadError ReadOutcome :=
  match reply, p.landed frame with
  | .error e, _ => ([], .error (.lost e))
  | .ok r, .error e => ([], .error (if r.ok then .lost e else .refused r.error))
  | .ok r, .ok page =>
    if r.ok then
      let (did, intact) := takePage v p r page
      (did, if intact then .ok ⟨r.length.toNat, r.fileSize⟩ else .error .corrupt)
    else ([], .error (.refused r.error))

/-! ## Inside what was asked -/

/-- Inside the page that was received, or inside the caller's span. -/
def Access.Inside : Access → Prop
  | .read n => n ≤ p.want
  | .write n => n ≤ p.asked

/-- Nothing else is read or written, and no more is reported than was asked for. -/
def Stays (res : List Access × Except ReadError ReadOutcome) : Prop :=
  (∀ a ∈ res.1, Access.Inside p a) ∧ ∀ o, res.2 = .ok o → o.bytes ≤ p.asked

/-- The reply is one that `collectRead` takes: it is not a refusal, and the page has landed and is
intact. -/
def Taken (r : TransferReply) (frame : Except String Wire.Bytes) : Prop :=
  r.ok = true ∧ ∃ page, p.landed frame = .ok page ∧ v.accepts page r.payload = true

variable {v p} {r : TransferReply} {frame : Except String Wire.Bytes} {page : Wire.Bytes}

theorem length_of_landed (h : p.landed frame = .ok page) : page.length = p.want := by
  cases frame with
  | error e => cases h
  | ok bytes =>
    simp only [Posted.landed, Except.bind] at h
    split_ifs at h with hlen
    cases h
    exact hlen

/-- The receives of a run are posted for what was asked. -/
def Sound (s : State) : Prop := ∀ p ∈ s.reads, p.want = p.asked

theorem Sound.submitPosted {pages pageSize : ℕ} {s : State} (hs : Sound s) (path : Wire.Bytes)
    (offset handle : UInt64) (n : ℕ) (direct sends acquires : Bool) :
    Sound (Ranged.submitPosted pages pageSize s path offset handle n direct n sends acquires) := by
  rw [Ranged.submitPosted]
  split
  · exact hs
  · dsimp only
    split_ifs
    · exact hs
    · exact forall_mem_append.mpr ⟨hs, forall_mem_singleton.mpr rfl⟩
    · exact hs

theorem Sound.step {pages pageSize : ℕ} {s t : State} {e : Event} (hs : Sound s)
    (h : step pages pageSize s e = some t) : Sound t := by
  cases e with
  | submit path offset handle into sends acquires =>
    cases h
    cases into with
    | span n | page n registered => exact hs.submitPosted _ _ _ _ _ _ _
  | collect id =>
    cases h
    exact fun p hp => hs p (mem_of_mem_eraseP hp)

/-- A page that was taken is read as far as it goes, and again as far as the reply says, where it is
copied. -/
theorem stays_taken (hwant : p.want = p.asked) (hpage : p.landed frame = .ok page)
    (hok : r.ok = true) (hintact : v.accepts page r.payload = true) :
    Stays p (collectRead v p (.ok r) frame) ↔ r.length.toNat ≤ p.asked := by
  have hlen := length_of_landed hpage
  simp only [collectRead, hpage, hok, if_true, takePage, hintact, Bool.true_and]
  constructor
  · exact fun h => h.2 _ rfl
  · intro hle
    refine ⟨fun a ha => ?_, fun o ho => Except.ok.inj ho ▸ hle⟩
    rcases mem_cons.mp ha with rfl | ha
    · exact hlen.le
    · cases hdirect : p.direct with
      | true =>
        rw [hdirect] at ha
        exact absurd ha not_mem_nil
      | false =>
        rw [hdirect] at ha
        rcases mem_pair.mp ha with rfl | rfl
        · exact hle.trans hwant.ge
        · exact hle

/-- A reply that is not taken copies nothing, and the read fails. -/
theorem stays_of_not_taken (h : ¬ Taken v p r frame) : Stays p (collectRead v p (.ok r) frame) := by
  unfold collectRead
  cases hpage : p.landed frame with
  | error e => exact ⟨nofun, fun o ho => by cases ho⟩
  | ok page =>
    by_cases hok : r.ok = true
    · have hintact : v.accepts page r.payload = false :=
        Bool.eq_false_iff.mpr fun hacc => h ⟨hok, page, hpage, hacc⟩
      simp only [hok, if_true, takePage, hintact, Bool.false_and, Bool.false_eq_true, if_false]
      refine ⟨fun a ha => ?_, fun o ho => by cases ho⟩
      rw [mem_singleton.mp ha]
      exact (length_of_landed hpage).le
    · simp only [hok]
      exact ⟨nofun, fun o ho => by cases ho⟩

/-- **When a ranged read stays inside what was asked**: for every read in flight, every reply and
every frame, exactly if the reply, where it is taken, claims no more than was asked for. -/
theorem collectRead_stays_iff (v : Verifier Digest) (pages pageSize : ℕ) (es : List Event)
    (s : State) (hrun : Runs.exec (step pages pageSize) {} es = some s) (p : Posted)
    (hp : p ∈ s.reads) (r : TransferReply) (frame : Except String Wire.Bytes) :
    Stays p (collectRead v p (.ok r) frame) ↔ (Taken v p r frame → r.length.toNat ≤ p.asked) := by
  have hwant : p.want = p.asked :=
    Runs.exec_invariant (fun hs _ h => Sound.step hs h) (fun p hp => absurd hp not_mem_nil)
      (Runs.meets_true es _) hrun p hp
  by_cases htaken : Taken v p r frame
  · obtain ⟨hok, page, hpage, hintact⟩ := htaken
    rw [stays_taken hwant hpage hok hintact]
    exact ⟨fun h _ => h, fun h => h ⟨hok, page, hpage, hintact⟩⟩
  · exact iff_of_true (stays_of_not_taken htaken) fun h => absurd h htaken

/-- A session that does not verify. -/
def unverified : Verifier Digest := ⟨false, fun _ => .zero, .zero⟩

/-- A read of four bytes of which the daemon sends four, and says so. -/
theorem collectRead_stays_iff_four :
    Stays ⟨1, 4, 4, false⟩
    (collectRead unverified ⟨1, 4, 4, false⟩ (.ok { id := 1, length := 4, ok := true })
      (.ok [1, 2, 3, 4])) :=
  (collectRead_stays_iff unverified 8 4096 [.submit [] 0 0 (.span 4) true true] _ rfl ⟨1, 4,
    4, false⟩ (mem_singleton_self _) _ _).mpr fun _ => by decide

/-- The daemon sends the four bytes, and says they are eight: eight are copied into the four, and
eight are reported. -/
theorem collectRead_overruns :
    ∃ s, Runs.exec (step 8 4096) {} [.submit [] 0 0 (.span 4) true true] = some s ∧
    ⟨1, 4, 4, false⟩ ∈ s.reads ∧
    collectRead unverified ⟨1, 4, 4, false⟩ (.ok { id := 1, length := 8, ok := true })
    (.ok [1, 2, 3, 4]) = ([.read 4, .read 8, .write 8], .ok ⟨8, 0⟩) ∧
      ¬ Stays ⟨1, 4, 4, false⟩
      (collectRead unverified ⟨1, 4, 4, false⟩ (.ok { id := 1, length := 8, ok := true })
      (.ok [1, 2, 3, 4])) := by
  refine ⟨_, rfl, mem_singleton_self _, rfl, fun h => ?_⟩
  have hle : (8 : ℕ) ≤ 4 := h.2 ⟨8, 0⟩ rfl
  omega

end Ranged
end Rail.Client
