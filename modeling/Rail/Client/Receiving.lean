import Rail.Foundation.Runs
import Mathlib.Data.Nat.Notation
import Mathlib.Tactic.SplitIfs

/-!
# Receiving a streamed fetch

`PageReceiver` of `src/stream/page-stream.cc`, and the part of `FileClient::fetch` and
`fetchThrough` after the daemon has accepted.

The receiver posts a receive for each page in turn.  `Receiving` is always a stretch of consecutive
pages, and the daemon sends the pages in order, so the receiver is four numbers: how many pages it
has posted, how many have landed, how many it has joined, and how many writes it has not awaited.
They decide what it waits for next (`Receiver.want`): once round the loop of `run` it joins what is
over the window, awaits what is over the write depth, and posts the next page.

On an error `run` returns, and `quiesce` joins what was posted.  The pages it never came to are
another matter: the daemon sends them all the same, nobody posts them, and a frame that nobody has
posted holds up every frame behind it (`Transport.Channel.Inv.head_unposted`).
-/

namespace Rail.Client

open Option

/-- `StreamGeometry`. -/
structure Geometry where
  window : ℕ
  readAhead : ℕ
  writeDepth : ℕ
  deriving DecidableEq

/-- `StreamGeometry::forChannel`, with `MaxInFlight` of the channel and the depth of the ring. -/
def Geometry.forChannel (pages inFlight depth : ℕ) : Geometry :=
  let window := max 1 (min (min (pages / 2) (pages - 1)) inFlight)
  let readAhead := max 1 (min (if pages > window + 1 then pages - window - 1 else 1) depth)
  { window, readAhead, writeDepth := min 2 readAhead }

structure Receiver where
  /-- The pages of the transfer. -/
  total : ℕ
  /-- Pages that a receive was posted for. -/
  posted : ℕ := 0
  /-- Of these, the pages whose frame has come. -/
  landed : ℕ := 0
  /-- Taken off `Receiving`. -/
  joined : ℕ := 0
  /-- `Writes.size()`. -/
  writes : ℕ := 0
  /-- `run` has returned with an error, and `quiesce` waits for what is left. -/
  failed : Bool := false
  deriving DecidableEq

/-- What the receiver waits for. -/
inductive Want where
  /-- The receive at the front of `Receiving`. -/
  | join
  /-- The write at the front of `Writes`. -/
  | reap
  /-- A page of the pool, or of the sink, to post the next receive with. -/
  | page
  /-- `land` returns. -/
  | nothing
  deriving DecidableEq

variable {r : Receiver} {g : Geometry}

namespace Receiver

def receiving (r : Receiver) : ℕ := r.posted - r.joined

/-- `store(0)` and `awaitWrites(0)`, or `quiesce`. -/
def wantLast (r : Receiver) : Want :=
  if 0 < r.receiving then .join else if 0 < r.writes then .reap else .nothing

def want (g : Geometry) (r : Receiver) : Want :=
  if r.failed = false ∧ r.posted < r.total then
    -- `store(Window - 1)`, then `awaitWrites(WriteDepth)`.
    if g.window ≤ r.receiving then .join else if g.writeDepth < r.writes then .reap else .page
  else r.wantLast

/-- The next page is posted. -/
def take (g : Geometry) (r : Receiver) : Option Receiver :=
  if r.want g = .page then some { r with posted := r.posted + 1 } else none

/-- The frame of a posted page comes. -/
def land (r : Receiver) : Option Receiver :=
  if r.landed < r.posted then some { r with landed := r.landed + 1 } else none

/-- A receive that has its frame is joined, and what it holds goes to the sink: into a page of the
sink's own (`direct`), or by a write that the sink accepts or not.  `quiesce` only joins. -/
def join (g : Geometry) (direct : ℕ → Bool) (r : Receiver) (accepted : Bool) : Option Receiver :=
  if r.want g = .join ∧ r.joined < r.landed then
    if r.failed || direct r.joined then
      if accepted then some { r with joined := r.joined + 1 } else none
    else if accepted then some { r with joined := r.joined + 1, writes := r.writes + 1 }
    else some { r with joined := r.joined + 1, failed := true }
  else none

/-- A receive that has failed is joined. -/
def joinFailed (g : Geometry) (r : Receiver) : Option Receiver :=
  if r.want g = .join then some { r with joined := r.joined + 1, failed := true } else none

/-- A write is awaited. -/
def reap (g : Geometry) (r : Receiver) (written : Bool) : Option Receiver :=
  if r.want g = .reap then some
    { r with writes := r.writes - 1, failed := r.failed || !written } else none

theorem want_eq_page (h : r.want g = .page) :
    r.failed = false ∧ r.posted < r.total ∧ r.receiving < g.window ∧ r.writes ≤ g.writeDepth := by
  unfold want wantLast at h
  split_ifs at h with hrun hwindow hdepth
  exact ⟨hrun.1, hrun.2, by omega, by omega⟩

theorem want_eq_nothing (h : r.want g = .nothing) :
    (r.failed = true ∨ r.total ≤ r.posted) ∧ r.posted ≤ r.joined ∧ r.writes = 0 := by
  unfold want wantLast receiving at h
  split_ifs at h with hrun hjoin hreap
  refine ⟨?_, by omega, by omega⟩
  cases hf : r.failed with
  | true => exact .inl rfl
  | false => exact .inr (by simpa [hf] using hrun)

theorem want_eq_join (hg : 0 < g.window) (h : r.want g = .join) : r.joined < r.posted := by
  unfold want wantLast receiving at h
  split_ifs at h <;> omega

theorem want_eq_reap (h : r.want g = .reap) : 0 < r.writes := by
  unfold want wantLast at h
  split_ifs at h <;> omega

/-- The counters come one after the other. -/
structure Sound (r : Receiver) : Prop where
  joined : r.joined ≤ r.posted
  landed : r.landed ≤ r.posted
  posted : r.posted ≤ r.total

variable {r' : Receiver}

theorem take_eq_some (h : r.take g = some r') :
    r.want g = .page ∧ r' = { r with posted := r.posted + 1 } := by
  obtain ⟨hwant, h⟩ := ite_none_right_eq_some.mp h
  exact ⟨hwant, (some.inj h).symm⟩

theorem land_eq_some (h : r.land = some r') :
    r.landed < r.posted ∧ r' = { r with landed := r.landed + 1 } := by
  obtain ⟨hlt, h⟩ := ite_none_right_eq_some.mp h
  exact ⟨hlt, (some.inj h).symm⟩

theorem join_eq_some {direct : ℕ → Bool} {accepted : Bool}
    (h : r.join g direct accepted = some r') : r.want g = .join ∧ r.joined < r.landed ∧
      ∃ writes failed, r' = { r with joined := r.joined + 1, writes, failed } ∧
      (accepted = true → failed = r.failed) := by
  obtain ⟨⟨hwant, hlt⟩, h⟩ := ite_none_right_eq_some.mp h
  refine ⟨hwant, hlt, ?_⟩
  split_ifs at h with hquiet haccepted haccepted
  · exact ⟨r.writes, r.failed, (some.inj h).symm, fun _ => rfl⟩
  · exact ⟨r.writes + 1, r.failed, (some.inj h).symm, fun _ => rfl⟩
  · exact ⟨r.writes, true, (some.inj h).symm, fun ht => absurd ht haccepted⟩

/-- A page that a file takes goes from the receives to the writes. -/
theorem join_stored_eq_some (hrunning : r.failed = false)
    (h : r.join g (fun _ => false) true = some r') : r.want g = .join ∧ r.joined < r.landed ∧
    r' = { r with joined := r.joined + 1, writes := r.writes + 1 } := by
  obtain ⟨⟨hwant, hlt⟩, h⟩ := ite_none_right_eq_some.mp h
  rw [if_neg (by simp [hrunning]), if_pos rfl] at h
  exact ⟨hwant, hlt, (some.inj h).symm⟩

theorem joinFailed_eq_some (h : r.joinFailed g = some r') :
    r.want g = .join ∧ r' = { r with joined := r.joined + 1, failed := true } := by
  obtain ⟨hwant, h⟩ := ite_none_right_eq_some.mp h
  exact ⟨hwant, (some.inj h).symm⟩

theorem reap_eq_some {written : Bool} (h : r.reap g written = some r') :
    r.want g = .reap ∧ r' = { r with writes := r.writes - 1, failed := r.failed || !written } := by
  obtain ⟨hwant, h⟩ := ite_none_right_eq_some.mp h
  exact ⟨hwant, (some.inj h).symm⟩

end Receiver

/-- Where the fetch is, from the accepting reply on. -/
inductive Stage where
  | accepted
  | receiving
  /-- Everything has landed: the digest, and the commit. -/
  | digest
  | returned (ok : Bool)
  deriving DecidableEq

/-- A fetch of one or more pages, with the stream that the daemon sends for it. -/
structure Fetch where
  /-- `fetch`, and not `fetchThrough`. -/
  toFile : Bool
  receiver : Receiver
  stage : Stage := .accepted
  /-- Frames that the daemon has sent. -/
  shipped : ℕ := 0
  /-- The client has closed its channels, or the data channel has failed: every receive on it
  fails. -/
  dead : Bool := false
  deriving DecidableEq

namespace Fetch

inductive Event where
  /-- `FileWriter::create`. -/
  | create (ok : Bool)
  /-- `fetchThrough` has nothing to create. -/
  | begin
  /-- The daemon sends the next page. -/
  | ship
  | land
  | take
  | join (accepted : Bool)
  | reap (written : Bool)
  /-- The channel is closed, or fails. -/
  | die
  /-- `land` returns. -/
  | leave
  /-- The digest comes, matches and the file is committed, or one of these fails. -/
  | conclude (ok : Bool)
  deriving DecidableEq

section

variable (g : Geometry) (direct : ℕ → Bool)

def step (s : Fetch) : Event → Option Fetch
  | .create ok =>
    if s.stage = .accepted ∧
      s.toFile = true then some { s with stage := if ok then .receiving else .returned false }
    else none
  | .begin =>
      if s.stage = .accepted ∧ s.toFile = false then some { s with stage := .receiving } else none
  | .ship => if s.shipped < s.receiver.total then some { s with shipped := s.shipped + 1 } else none
  | .land =>
    if s.dead = false ∧ s.receiver.landed < s.shipped then s.receiver.land.map fun r =>
      { s with receiver := r } else none
  | .take => if s.stage = .receiving then (s.receiver.take g).map fun r =>
      { s with receiver := r } else none
  | .join accepted =>
    if s.stage = .receiving then
      -- The front of `Receiving` has its frame, or it never will.
      if s.dead = true ∧ s.receiver.landed ≤ s.receiver.joined then
        (s.receiver.joinFailed g).map fun r => { s with receiver := r }
      else (s.receiver.join g direct accepted).map fun r => { s with receiver := r }
    else none
  | .reap written => if s.stage = .receiving then (s.receiver.reap g written).map fun r =>
      { s with receiver := r } else none
  | .die => some { s with dead := true }
  | .leave =>
    if s.stage = .receiving ∧ s.receiver.want g = .nothing then
      some { s with stage := if s.receiver.failed then .returned false else .digest }
    else none
  | .conclude ok => if s.stage = .digest then some { s with stage := .returned ok } else none

/-- A fetch whose frames are all posted, or whose channel is dead. -/
def Settled (s : Fetch) : Prop := s.dead = true ∨ s.receiver.posted = s.receiver.total

instance (s : Fetch) : Decidable s.Settled := by
  unfold Settled
  infer_instance

/-- The local side fails only once every page is posted. -/
def timely (s : Fetch) : Event → Prop
  | .create ok => ok = true ∨ s.dead = true
  | .join accepted => accepted = true ∨ s.Settled
  | .reap written => written = true ∨ s.receiver.failed = true ∨ s.Settled
  | _ => True

instance (s : Fetch) (e : Event) : Decidable (s.timely e) := by
  cases e <;> unfold timely <;> infer_instance

end

/-! ## What is left of the stream -/

/-- The counters are in order, an error came late enough, and a fetch that is over has had all its
frames. -/
structure Sound (s : Fetch) : Prop extends s.receiver.Sound where
  waited : s.dead = false → s.receiver.joined ≤ s.receiver.landed
  fails : s.receiver.failed = true → s.Settled
  ended : s.stage = .digest ∨ (∃ ok, s.stage = .returned ok) → s.dead = true ∨
    s.receiver.landed = s.receiver.total

namespace Sound

variable {g : Geometry} {direct : ℕ → Bool} {s t : Fetch}

theorem start (toFile : Bool) (total : ℕ) : Sound { toFile, receiver := { total } } where
  joined := le_rfl
  landed := le_rfl
  posted := Nat.zero_le total
  waited _ := le_rfl
  fails := nofun
  ended := by simp

/-- While the fetch receives, it is enough to look at the receiver. -/
theorem of_receiver (hstage : s.stage = .receiving) (hr : r.Sound)
    (hwaited : s.dead = false → r.joined ≤ r.landed) (hfails : r.failed = true → s.dead = true ∨
      r.posted = r.total) : Sound { s with receiver := r } where
  toSound := hr
  waited := hwaited
  fails := hfails
  ended hover := by simp [hstage] at hover

theorem create {ok : Bool} (h : s.Sound) (hok : s.timely (.create ok))
    (hstep : s.step g direct (.create ok) = some t) : t.Sound := by
  obtain ⟨⟨hstage, -⟩, hstep⟩ := ite_none_right_eq_some.mp hstep
  cases hstep
  refine ⟨h.toSound, h.waited, h.fails, fun hover => ?_⟩
  rcases hok with rfl | hdead
  · simp at hover
  · exact .inl hdead

theorem land (h : s.Sound) (hstep : s.step g direct .land = some t) : t.Sound := by
  obtain ⟨⟨hdead, -⟩, hstep⟩ := ite_none_right_eq_some.mp hstep
  obtain ⟨r, hland, rfl⟩ := map_eq_some_iff.mp hstep
  obtain ⟨hlt, rfl⟩ := Receiver.land_eq_some hland
  refine ⟨⟨h.joined, hlt, h.posted⟩, fun _ => Nat.le_succ_of_le (h.waited hdead), h.fails,
    fun hover => ?_⟩
  -- A fetch that is over has nothing left to land.
  have hall := (h.ended hover).resolve_left (by simp [hdead])
  have hle := h.posted
  omega

theorem take (h : s.Sound) (hstep : s.step g direct .take = some t) : t.Sound := by
  obtain ⟨hstage, hstep⟩ := ite_none_right_eq_some.mp hstep
  obtain ⟨r, htake, rfl⟩ := map_eq_some_iff.mp hstep
  obtain ⟨hwant, rfl⟩ := Receiver.take_eq_some htake
  obtain ⟨hrunning, hlt, -⟩ := Receiver.want_eq_page hwant
  refine of_receiver hstage ⟨Nat.le_succ_of_le h.joined, Nat.le_succ_of_le h.landed, hlt⟩ h.waited
    fun hfailed => ?_
  exact absurd (hrunning.symm.trans hfailed) Bool.false_ne_true

theorem join {accepted : Bool} (hg : 0 < g.window) (h : s.Sound) (hok : s.timely (.join accepted))
    (hstep : s.step g direct (.join accepted) = some t) : t.Sound := by
  obtain ⟨hstage, hstep⟩ := ite_none_right_eq_some.mp hstep
  split_ifs at hstep with hdead
  · obtain ⟨r, hjoin, rfl⟩ := map_eq_some_iff.mp hstep
    obtain ⟨hwant, rfl⟩ := Receiver.joinFailed_eq_some hjoin
    refine of_receiver hstage ⟨Receiver.want_eq_join hg hwant, h.landed, h.posted⟩ (fun hlive =>
      ?_) fun _ => .inl hdead.1
    exact absurd (hlive.symm.trans hdead.1) Bool.false_ne_true
  · obtain ⟨r, hjoin, rfl⟩ := map_eq_some_iff.mp hstep
    obtain ⟨hwant, hlt, writes, failed, rfl, hfailed⟩ := Receiver.join_eq_some hjoin
    refine of_receiver hstage ⟨Receiver.want_eq_join hg hwant, h.landed, h.posted⟩ (fun _ =>
      hlt) fun hf => ?_
    rcases hok with haccepted | hsettled
    · exact h.fails ((hfailed haccepted).symm.trans hf)
    · exact hsettled

theorem reap {written : Bool} (h : s.Sound) (hok : s.timely (.reap written))
    (hstep : s.step g direct (.reap written) = some t) : t.Sound := by
  obtain ⟨hstage, hstep⟩ := ite_none_right_eq_some.mp hstep
  obtain ⟨r, hreap, rfl⟩ := map_eq_some_iff.mp hstep
  obtain ⟨-, rfl⟩ := Receiver.reap_eq_some hreap
  refine of_receiver hstage { h with } h.waited fun hf => ?_
  rcases hok with rfl | hfailed | hsettled
  · exact h.fails (by simpa using hf)
  · exact h.fails hfailed
  · exact hsettled

theorem leave (h : s.Sound) (hstep : s.step g direct .leave = some t) : t.Sound := by
  obtain ⟨⟨-, hwant⟩, hstep⟩ := ite_none_right_eq_some.mp hstep
  cases hstep
  obtain ⟨hend, hjoined, -⟩ := Receiver.want_eq_nothing hwant
  refine ⟨h.toSound, h.waited, h.fails, fun _ => ?_⟩
  have hsettled : s.Settled := by
    rcases hend with hfailed | hposted
    · exact h.fails hfailed
    · exact .inr (Nat.le_antisymm h.posted hposted)
  -- Everything that was posted has been joined, so it has landed, unless it never will.
  show s.dead = true ∨ s.receiver.landed = s.receiver.total
  rcases hsettled with hdead | hposted
  · exact .inl hdead
  · rcases Bool.eq_false_or_eq_true s.dead with hdead | hlive
    · exact .inl hdead
    · have hle := h.waited hlive
      have hlanded := h.landed
      exact .inr (by omega)

/-- **A step that meets the condition keeps it.** -/
theorem step {e : Event} (hg : 0 < g.window) (h : s.Sound) (hok : s.timely e)
    (hstep : s.step g direct e = some t) : t.Sound := by
  cases e with
  | create ok => exact h.create hok hstep
  | begin =>
    obtain ⟨-, hstep⟩ := ite_none_right_eq_some.mp hstep
    cases hstep
    exact ⟨h.toSound, h.waited, h.fails, by simp⟩
  | ship =>
    obtain ⟨-, hstep⟩ := ite_none_right_eq_some.mp hstep
    cases hstep
    exact { h with }
  | land => exact h.land hstep
  | take => exact h.take hstep
  | join accepted => exact h.join hg hok hstep
  | reap written => exact h.reap hok hstep
  | die =>
    cases hstep
    exact ⟨h.toSound, nofun, fun _ => .inl rfl, fun _ => .inl rfl⟩
  | leave => exact h.leave hstep
  | conclude ok =>
    obtain ⟨hstage, hstep⟩ := ite_none_right_eq_some.mp hstep
    cases hstep
    exact ⟨h.toSound, h.waited, h.fails, fun _ => h.ended (.inl hstage)⟩

end Sound

/-- **A fetch that fails late enough leaves nothing behind.**  If the local side fails only once
every page is posted, then whenever a fetch has returned, the channel is dead or every frame of the
fetch has been consumed: whatever the sink is and whichever pages land in it directly, wherever the
channel dies, and whatever the daemon's digest says. -/
theorem failed_fetch_leaves_nothing (g : Geometry) (hg : 0 < g.window) (direct : ℕ → Bool)
    (toFile : Bool) (total : ℕ) (es : List Event) (s : Fetch)
    (hok : Runs.Meets (step g direct) timely { toFile, receiver := { total } } es)
    (hrun : Runs.exec (step g direct) { toFile, receiver := { total } } es = some s) (ok : Bool)
    (hover : s.stage = .returned ok) : s.dead = true ∨ s.receiver.landed = s.receiver.total := by
  have hsound : s.Sound :=
    Runs.exec_invariant (I := Sound) (fun hs hok ht => hs.step hg hok ht) (Sound.start toFile total)
      hok hrun
  exact hsound.ended (.inr ⟨ok, hover⟩)

/-- The sink refuses the last of two pages, which comes after everything is posted. -/
theorem failed_fetch_leaves_nothing_late :
    ∃ s, Runs.exec (step (.forChannel 4 16 64) fun _ => false)
    { toFile := true, receiver := { total := 2 } } [.create true, .take, .ship, .take, .land,
      .join true, .ship, .land, .join false, .reap true, .leave] = some s ∧
      s.stage = .returned false ∧ (s.dead = true ∨ s.receiver.landed = s.receiver.total) :=
  Runs.exists_exec rfl fun hs =>
    ⟨rfl, failed_fetch_leaves_nothing _ (by decide) _ _ _ _ _ (by decide) hs false rfl⟩

/-- Nobody takes a frame any more once the fetch has returned with all it posted. -/
theorem landed_of_returned {direct : ℕ → Bool} {s t : Fetch} {es : List Event} {ok : Bool}
    (hstage : s.stage = .returned ok) (hposted : s.receiver.landed = s.receiver.posted)
    (hrun : Runs.exec (step g direct) s es = some t) : t.receiver = s.receiver := by
  have hkeep : t.stage = .returned ok ∧ t.receiver = s.receiver := by
    refine Runs.exec_invariant (I := fun u => u.stage = .returned ok ∧ u.receiver = s.receiver) ?_
      ⟨hstage, rfl⟩ (Runs.meets_true es s) hrun
    rintro u e v ⟨hu, hr⟩ - hstep
    cases e with
    | ship =>
      obtain ⟨-, hstep⟩ := ite_none_right_eq_some.mp hstep
      cases hstep
      exact ⟨hu, hr⟩
    | die =>
      cases hstep
      exact ⟨hu, hr⟩
    | land =>
      obtain ⟨-, hstep⟩ := ite_none_right_eq_some.mp hstep
      obtain ⟨r, hland, -⟩ := map_eq_some_iff.mp hstep
      have hlt := (Receiver.land_eq_some hland).1
      rw [hr, hposted] at hlt
      exact absurd hlt (lt_irrefl _)
    | _ => simp [step, hu] at hstep
  exact hkeep.2

/-- The local file cannot be created, or the write of the first of four pages fails: the fetch
returns, its channel is alive, and whatever happens then the frames it has not posted stay in the
stream. -/
theorem early_failure_leaves_frames :
    (∃ s, Runs.exec (step (.forChannel 4 16 64) fun _ => false)
      { toFile := true, receiver := { total := 1 } } [.create false] = some s ∧
      s.stage = .returned false ∧ s.dead = false ∧ ∀ es t,
      Runs.exec (step (.forChannel 4 16 64) fun _ => false) s es = some t → t.receiver.landed = 0) ∧
    ∃ s, Runs.exec (step (.forChannel 4 16 64) fun _ => false)
    { toFile := true, receiver := { total := 4 } } [.create true, .take, .take, .ship, .land,
      .join true, .take, .ship, .land, .join true, .reap false, .ship, .land, .join true,
      .reap true, .leave] = some s ∧ s.stage = .returned false ∧ s.dead = false ∧
      ∀ es t, Runs.exec (step (.forChannel 4 16 64) fun _ => false) s es = some t →
      t.receiver.landed = 3 := by
  constructor
  all_goals
    refine ⟨_, rfl, rfl, rfl, fun es t ht => ?_⟩
    rw [landed_of_returned rfl rfl ht]

end Fetch
end Rail.Client
