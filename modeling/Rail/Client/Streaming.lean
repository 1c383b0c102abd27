import Rail.Client.Receiving
import Rail.Foundation.Modify
import Mathlib.Data.List.Nodup
import Mathlib.Data.List.Range

/-!
# Ranged reads beside a streamed fetch

A file client over TCP with one pool of pages: ranged reads (`submitPosted` and `collectRead` of
`src/file-client.cc`) and one fetch to a file (`PageReceiver`), whose frames come down one stream.

A read sends its request before it has a page, so its frame may come before its receive is posted.
The stream delivers in order: a frame lands only at the head, and only when its key is posted
(`Channel.Inv.lands_in_order` and `Channel.Inv.head_unposted` are what the channel does).  So
everything may wait for a page that only frames behind the head would free.  Whether it can come to
this is a matter of counting: `maxOutstanding` leaves two pages of the pool, while a fetch that
waits for a frame holds a window of receives and, beside them, the writes it has not awaited.
-/

namespace Rail.Client

open List Option

/-- `MaxInFlight` of the TCP channel, and the depth of the ring. -/
def maxInFlight : ℕ := 16

def ringDepth : ℕ := 64

/-- `FileClient::maxOutstanding`. -/
def maxOutstanding (pages : ℕ) : ℕ := min (if pages > 2 then pages - 2 else 1) maxInFlight

/-- The geometry of a stream over a pool of so many pages. -/
def geometry (pages : ℕ) : Geometry := .forChannel pages maxInFlight ringDepth

namespace Streaming

/-- Where a ranged read is. -/
inductive Progress where
  /-- The request is sent, and the read waits for a page of the pool. -/
  | asked
  /-- Its receive is posted. -/
  | posted
  | landed
  /-- Collected, and no longer in `Reads`. -/
  | gone
  deriving DecidableEq

structure Read where
  /-- The receive needs a page of the pool: the caller's own page is not registered. -/
  pooled : Bool
  progress : Progress
  /-- The daemon has sent its frame. -/
  answered : Bool := false
  deriving DecidableEq

namespace Read

/-- In `Reads`. -/
def live (r : Read) : Bool := r.progress ≠ .gone

/-- It has a page of the pool. -/
def holds (r : Read) : Bool := r.pooled && (r.progress = .posted || r.progress = .landed)

end Read

/-- What a frame is for. -/
inductive Tag where
  | read (id : ℕ)
  | page (i : ℕ)
  deriving DecidableEq

/-- The page of the fetch that a frame carries. -/
def Tag.page? : Tag → Option ℕ
  | read _ => none
  | page i => some i

structure State where
  /-- `FreeList.size()`. -/
  free : ℕ
  /-- By id; those that are gone stay. -/
  reads : List Read := []
  fetch : Option Receiver := none
  /-- Pages of the fetch that the daemon has sent. -/
  shipped : ℕ := 0
  /-- Frames that have been sent and not delivered. -/
  line : List Tag := []
  deriving DecidableEq

inductive Event where
  | submit (pooled : Bool)
  /-- The daemon sends the frame of a read. -/
  | answer (id : ℕ)
  /-- The daemon has accepted a fetch of so many pages. -/
  | fetch (total : ℕ)
  /-- The daemon sends the next page of the fetch. -/
  | ship
  /-- A read gets its page, and posts. -/
  | grant (id : ℕ)
  /-- The fetch gets a page, and posts. -/
  | take
  /-- The first frame of the stream lands. -/
  | deliver
  | collect (id : ℕ)
  | join
  | reap
  deriving DecidableEq

/-- What goes on without the caller and the daemon. -/
def Event.internal : Event → Bool
  | submit _ => false
  | answer _ => false
  | fetch _ => false
  | ship => false
  | _ => true

namespace State

variable (pages : ℕ) (s : State)

def outstanding : ℕ := s.reads.countP Read.live

def advance (id : ℕ) (p : Progress) : State :=
  { s with reads := s.reads.modify id fun r => { r with progress := p } }

def submit (pooled : Bool) : Option State :=
  if s.outstanding < maxOutstanding pages then
    some { s with reads := s.reads ++ [{ pooled, progress := if pooled then .asked else .posted }] }
  else none

def answer (id : ℕ) : Option State :=
  (s.reads[id]?).bind fun r =>
    if r.answered = false then
      some { s with reads := s.reads.modify id fun r => { r with
        answered := true }, line := s.line ++ [.read id] }
    else none

def ship : Option State :=
  s.fetch.bind fun r =>
    if s.shipped < r.total then some
      { s with shipped := s.shipped + 1, line := s.line ++ [.page s.shipped] } else none

def grant (id : ℕ) : Option State :=
  (s.reads[id]?).bind fun r =>
    if r.progress = .asked ∧
      0 < s.free then some ({ s with free := s.free - 1 }.advance id .posted) else none

def take (s : State) : Option State :=
  if 0 < s.free then
    s.fetch.bind fun r => (r.take (geometry pages)).map fun r =>
      { s with free := s.free - 1, fetch := some r }
  else none

def deliver : Option State :=
  match s.line with
  | [] => none
  | .read id :: rest =>
    (s.reads[id]?).bind fun r =>
      if r.progress = .posted then some ({ s with line := rest }.advance id .landed) else none
  | .page i :: rest =>
    s.fetch.bind fun r => if i = r.landed then r.land.map fun r =>
      { s with line := rest, fetch := some r } else none

def collect (id : ℕ) : Option State :=
  (s.reads[id]?).bind fun r =>
    if r.progress = .landed then some ({ s with free := s.free + if r.pooled then 1 else 0 }.advance
      id .gone) else none

/-- A file takes every write. -/
def join (s : State) : Option State :=
  s.fetch.bind fun r => (r.join (geometry pages) (fun _ => false) true).map fun r =>
    { s with fetch := some r }

def reap (s : State) : Option State :=
  s.fetch.bind fun r => (r.reap (geometry pages) true).map fun r =>
    { s with free := s.free + 1, fetch := some r }

def step : Event → Option State
  | .submit pooled => s.submit pages pooled
  | .answer id => s.answer id
  | .fetch total => if s.fetch = none then some { s with fetch := some { total } } else none
  | .ship => s.ship
  | .grant id => s.grant id
  | .take => s.take pages
  | .deliver => s.deliver
  | .collect id => s.collect id
  | .join => s.join pages
  | .reap => s.reap pages

/-- Frames are in the stream, and neither the reads nor the fetch can go on. -/
def Stuck : Prop := s.line ≠ [] ∧ ∀ e : Event, e.internal = true → s.step pages e = none

/-- The events that there are to try. -/
def moves : List Event :=
  [Event.take, .deliver, .join, .reap] ++ (List.range s.reads.length).flatMap fun id =>
    [Event.grant id, .collect id]

/-! ## Counting pages -/

theorem Read.live_of_holds (r : Read) (h : r.holds = true) : r.live = true := by
  unfold Read.holds at h
  unfold Read.live
  cases hp : r.progress <;> simp_all

/-- Pages of the pool that the fetch has. -/
def held : ℕ := s.fetch.elim 0 fun r => r.receiving + r.writes

/-- Pages of the fetch that have landed. -/
def landed (s : State) : ℕ := s.fetch.elim 0 Receiver.landed

/-- What holds of the fetch. -/
structure Fetching (s : State) (r : Receiver) : Prop extends r.Sound where
  waited : r.joined ≤ r.landed
  running : r.failed = false
  held : r.receiving + r.writes ≤ (geometry pages).window + (geometry pages).writeDepth
  behind : r.landed ≤ s.shipped
  shipped : s.shipped ≤ r.total

structure Sound (s : State) : Prop where
  pool : s.free + s.reads.countP Read.holds + s.held = pages
  outstanding : s.outstanding ≤ maxOutstanding pages
  pooled : ∀ r ∈ s.reads, r.progress = .asked → r.pooled = true
  fetch : ∀ r, s.fetch = some r → s.Fetching pages r
  fresh : s.fetch = none → s.shipped = 0
  line_nodup : s.line.Nodup
  answers : ∀ id, .read id ∈ s.line →
    ∃ r, s.reads[id]? = some r ∧ r.answered = true ∧ (r.progress = .asked ∨ r.progress = .posted)
  unanswered : ∀ r ∈ s.reads, r.answered = false → r.progress = .asked ∨ r.progress = .posted
  /-- The pages of the fetch come in order. -/
  ships : s.line.filterMap Tag.page? = List.range' s.landed (s.shipped - s.landed)

variable {pages} {s t : State}

theorem Sound.initial (pages : ℕ) : Sound pages { free := pages } := by
  constructor <;> simp [State.outstanding, State.held, State.landed]

theorem window_pos (pages : ℕ) : 0 < (geometry pages).window := by
  simp only [geometry, Geometry.forChannel]
  omega

variable {id : ℕ}

namespace Sound

section

variable (h : Sound pages s)
include h

theorem page_mem {i : ℕ} (hi : .page i ∈ s.line) : s.landed ≤ i ∧ i < s.shipped := by
  have hmem : i ∈ s.line.filterMap Tag.page? := mem_filterMap.mpr ⟨.page i, hi, rfl⟩
  rw [h.ships, mem_range'_1] at hmem
  omega

/-- **One read goes on.** -/
theorem modify {free : ℕ} {line : List Tag} {r : Read} (hr : s.reads[id]? = some r)
    (f : Read → Read)
    (hpool : free + (if (f r).holds then 1 else 0) = s.free + if r.holds then 1 else 0)
    (hlive : (f r).live = true → r.live = true) (hasked : (f r).progress = .asked →
      (f r).pooled = true) (hanswered : (f r).answered = false → (f r).progress = .asked ∨
      (f r).progress = .posted) (hnodup : line.Nodup)
    (hpages : line.filterMap Tag.page? = s.line.filterMap Tag.page?)
    (hline : ∀ j, .read j ∈ line → j = id ∨ .read j ∈ s.line)
    (hid : .read id ∈ line → (f r).answered = true ∧
      ((f r).progress = .asked ∨ (f r).progress = .posted)) :
    Sound pages { s with free, reads := s.reads.modify id f, line } where
  pool := by
    have hcount := Modify.countP_modify (q := Read.holds) (f := f) hr
    have hpages := h.pool
    show free + (s.reads.modify id f).countP Read.holds + s.held = pages
    omega
  outstanding := by
    have hcount := Modify.countP_modify (q := Read.live) (f := f) hr
    have hle : (if (f r).live then 1 else 0) ≤ if r.live then 1 else 0 := by
      by_cases hf : (f r).live = true
      · simp [hf, hlive hf]
      · simp [hf]
    have hold := h.outstanding
    show (s.reads.modify id f).countP Read.live ≤ maxOutstanding pages
    unfold State.outstanding at hold
    omega
  pooled r' hr' := by
    rcases Modify.mem_modify hr hr' with rfl | hmem
    · exact hasked
    · exact h.pooled r' hmem
  fetch r hr := { h.fetch r hr with }
  fresh := h.fresh
  line_nodup := hnodup
  answers j hj := by
    show ∃ r', (s.reads.modify id f)[j]? = some r' ∧ _
    by_cases hij : id = j
    · subst hij
      rw [getElem?_modify_eq, hr]
      exact ⟨f r, rfl, hid hj⟩
    · rw [getElem?_modify_ne f s.reads hij]
      exact h.answers j ((hline j hj).resolve_left fun h => hij h.symm)
  unanswered r' hr' := by
    rcases Modify.mem_modify hr hr' with rfl | hmem
    · exact hanswered
    · exact h.unanswered r' hmem
  ships := hpages.trans h.ships

/-- **The fetch goes on.** -/
theorem refetch {free : ℕ} {r r' : Receiver} {line : List Tag} (hr : s.fetch = some r)
    (hpool : free + (r'.receiving + r'.writes) = s.free + (r.receiving + r.writes))
    (hr' : s.Fetching pages r') (hnodup : line.Nodup)
    (hline : ∀ j, .read j ∈ line → .read j ∈ s.line)
    (hships : line.filterMap Tag.page? = List.range' r'.landed (s.shipped - r'.landed)) :
    Sound pages { s with free, fetch := some r', line } where
  pool := by
    have hpages := h.pool
    simp only [State.held, hr, elim_some] at hpages ⊢
    omega
  outstanding := h.outstanding
  pooled := h.pooled
  fetch r'' heq := by
    cases heq
    exact { hr' with }
  fresh := nofun
  line_nodup := hnodup
  answers j hj := h.answers j (hline j hj)
  unanswered := h.unanswered
  ships := hships

theorem submit {pooled : Bool} (hstep : s.submit pages pooled = some t) : Sound pages t := by
  obtain ⟨hlt, hstep⟩ := ite_none_right_eq_some.mp hstep
  cases hstep
  have hnew : ∀ r ∈ s.reads ++ [{ pooled, progress := if pooled then .asked else .posted }],
      r ∈ s.reads ∨
        r = { pooled, progress := if pooled then .asked else .posted } := by
    intro r hr
    rcases mem_append.mp hr with hr | hr
    · exact .inl hr
    · exact .inr (mem_singleton.mp hr)
  refine { h with
    pool := ?_
    outstanding := ?_
    pooled := fun r hr => ?_
    fetch := fun r hr => { h.fetch r hr with }
    answers := fun id hid => ?_
    unanswered := fun r hr => ?_ }
  · have hpool := h.pool
    have hfree : Read.holds { pooled, progress := if pooled then .asked else .posted } = false := by
      cases pooled <;> rfl
    simp only [countP_append, countP_singleton, hfree]
    exact hpool
  · have hlive : Read.live { pooled, progress := if pooled then .asked else .posted } = true := by
      cases pooled <;> rfl
    simp only [State.outstanding, countP_append, countP_singleton, hlive]
    exact hlt
  · rcases hnew r hr with hr | rfl
    · exact h.pooled r hr
    · cases pooled <;> simp
  · obtain ⟨r, hr, hrest⟩ := h.answers id hid
    exact ⟨r, getElem?_append_left (List.getElem?_eq_some_iff.mp hr).1 ▸ hr, hrest⟩
  · rcases hnew r hr with hr | rfl
    · exact h.unanswered r hr
    · cases pooled <;> simp

theorem answer (hstep : s.answer id = some t) : Sound pages t := by
  obtain ⟨r, hr, hstep⟩ := bind_eq_some_iff.mp hstep
  obtain ⟨hfresh, hstep⟩ := ite_none_right_eq_some.mp hstep
  cases hstep
  have hnot : .read id ∉ s.line := by
    intro hmem
    obtain ⟨r', hr', hanswered, -⟩ := h.answers id hmem
    obtain rfl := mem_unique hr hr'
    exact Bool.false_ne_true (hfresh.symm.trans hanswered)
  have hprogress := h.unanswered r (mem_of_getElem? hr) hfresh
  refine h.modify hr (fun r => { r with answered := true }) rfl (fun hlive => hlive)
    (h.pooled r (mem_of_getElem? hr)) nofun ?_ ?_ ?_ fun _ => ⟨rfl, hprogress⟩
  · exact concat_eq_append ▸ h.line_nodup.concat hnot
  · simp [Tag.page?]
  · intro j hj
    rcases mem_append.mp hj with hj | hj
    · exact .inr hj
    · exact .inl (Tag.read.inj (mem_singleton.mp hj))

theorem start {total : ℕ} (hnone : s.fetch = none) :
    Sound pages { s with fetch := some { total } } where
  pool := by
    have hpool := h.pool
    simp only [State.held, hnone, elim_none] at hpool
    exact hpool
  outstanding := h.outstanding
  pooled := h.pooled
  fetch r hr := by
    cases hr
    have hfresh := h.fresh hnone
    exact ⟨⟨le_rfl, le_rfl, Nat.zero_le _⟩, le_rfl, rfl, Nat.zero_le _, Nat.zero_le _,
      by simp [hfresh]⟩
  fresh := nofun
  line_nodup := h.line_nodup
  answers := h.answers
  unanswered := h.unanswered
  ships := by
    have hships := h.ships
    simp only [State.landed, hnone, elim_none] at hships
    exact hships

theorem ship (hstep : s.ship = some t) : Sound pages t := by
  obtain ⟨r, hr, hstep⟩ := bind_eq_some_iff.mp hstep
  obtain ⟨hlt, hstep⟩ := ite_none_right_eq_some.mp hstep
  cases hstep
  have hr' := h.fetch r hr
  have hlanded : s.landed = r.landed := by rw [State.landed, hr, elim_some]
  have hnot : .page s.shipped ∉ s.line := fun hmem => lt_irrefl _ (h.page_mem hmem).2
  refine { h with
    fetch := fun r'' heq => ?_
    fresh := fun hnone => absurd (hr.symm.trans hnone) (some_ne_none r)
    line_nodup := ?_
    answers := fun id hid => ?_
    ships := ?_ }
  · obtain rfl := mem_unique hr heq
    exact { hr' with behind := Nat.le_succ_of_le hr'.behind, shipped := hlt }
  · exact concat_eq_append ▸ h.line_nodup.concat hnot
  · rcases mem_append.mp hid with hid | hid
    · exact h.answers id hid
    · exact Tag.noConfusion (mem_singleton.mp hid)
  · show (s.line ++ [Tag.page s.shipped]).filterMap Tag.page? =
      List.range' s.landed (s.shipped + 1 - s.landed)
    have hbehind := hr'.behind
    rw [filterMap_append, h.ships, Nat.succ_sub (hlanded ▸ hbehind), range'_concat, Nat.one_mul,
      Nat.add_sub_cancel' (hlanded ▸ hbehind)]
    rfl

theorem grant (hstep : s.grant id = some t) : Sound pages t := by
  obtain ⟨r, hr, hstep⟩ := bind_eq_some_iff.mp hstep
  obtain ⟨⟨hasked, hfree⟩, hstep⟩ := ite_none_right_eq_some.mp hstep
  cases hstep
  have hpooled := h.pooled r (mem_of_getElem? hr) hasked
  refine h.modify hr (fun r => { r with progress := .posted }) ?_ ?_ nofun (fun _ => .inr rfl)
    h.line_nodup rfl (fun j hj => .inr hj) fun hid => ⟨?_, .inr rfl⟩
  · simp [Read.holds, hpooled, hasked]
    omega
  · simp [Read.live, hasked]
  · obtain ⟨r', hr', hanswered, -⟩ := h.answers id hid
    obtain rfl := mem_unique hr hr'
    exact hanswered

theorem take (hstep : s.take pages = some t) : Sound pages t := by
  obtain ⟨hfree, hstep⟩ := ite_none_right_eq_some.mp hstep
  obtain ⟨r, hr, hstep⟩ := bind_eq_some_iff.mp hstep
  obtain ⟨r', htake, rfl⟩ := map_eq_some_iff.mp hstep
  obtain ⟨hwant, rfl⟩ := Receiver.take_eq_some htake
  obtain ⟨-, hlt, hwindow, hdepth⟩ := Receiver.want_eq_page hwant
  have hr' := h.fetch r hr
  have hjoined := hr'.joined
  have hships := h.ships
  simp only [State.landed, hr, elim_some] at hships
  refine h.refetch hr ?_ ?_ h.line_nodup (fun _ hj => hj) hships
  · simp only [Receiver.receiving]
    omega
  · refine { hr' with
      toSound := ⟨Nat.le_succ_of_le hjoined, Nat.le_succ_of_le hr'.landed, hlt⟩
      held := ?_ }
    simp only [Receiver.receiving] at hwindow ⊢
    omega

theorem deliver (hstep : s.deliver = some t) : Sound pages t := by
  rw [State.deliver] at hstep
  have hnodup := h.line_nodup
  cases hline : s.line with
  | nil => simp [hline] at hstep
  | cons tag rest =>
    rw [hline] at hstep hnodup
    obtain ⟨hnot, hrest⟩ := nodup_cons.mp hnodup
    cases tag with
    | read id =>
      obtain ⟨r, hr, hstep⟩ := bind_eq_some_iff.mp hstep
      obtain ⟨hposted, hstep⟩ := ite_none_right_eq_some.mp hstep
      cases hstep
      obtain ⟨r', hr', hanswered, -⟩ := h.answers id (hline ▸ mem_cons_self)
      obtain rfl := mem_unique hr hr'
      refine h.modify hr (fun r => { r with progress := .landed }) ?_ ?_ nofun
        (fun hnew => absurd (hnew.symm.trans hanswered) Bool.false_ne_true) hrest ?_ (fun j hj =>
        .inr ?_) fun hid => absurd hid hnot
      · simp [Read.holds, hposted]
      · simp [Read.live, hposted]
      · rw [hline]
        rfl
      · rw [hline]
        exact mem_cons_of_mem _ hj
    | page i =>
      obtain ⟨r, hr, hstep⟩ := bind_eq_some_iff.mp hstep
      obtain ⟨hi, hstep⟩ := ite_none_right_eq_some.mp hstep
      obtain ⟨r', hland, rfl⟩ := map_eq_some_iff.mp hstep
      obtain ⟨hlt, rfl⟩ := Receiver.land_eq_some hland
      subst hi
      have hr' := h.fetch r hr
      have hmem := h.page_mem (i := r.landed) (hline ▸ mem_cons_self)
      have hships := h.ships
      simp only [State.landed, hr, elim_some, hline] at hships
      refine h.refetch hr rfl ?_ hrest (fun j hj => hline ▸ mem_cons_of_mem _ hj) ?_
      · exact { hr' with
          toSound := ⟨hr'.joined, hlt, hr'.posted⟩
          waited := Nat.le_succ_of_le hr'.waited
          behind := hmem.2 }
      · obtain ⟨n, hn⟩ : ∃ n, s.shipped - r.landed = n + 1 := ⟨s.shipped - r.landed - 1, by omega⟩
        rw [hn, range'_succ] at hships
        show rest.filterMap Tag.page? = List.range' (r.landed + 1) (s.shipped - (r.landed + 1))
        rw [show s.shipped - (r.landed + 1) = n by omega]
        exact (List.cons.inj hships).2

theorem collect (hstep : s.collect id = some t) : Sound pages t := by
  obtain ⟨r, hr, hstep⟩ := bind_eq_some_iff.mp hstep
  obtain ⟨hlanded, hstep⟩ := ite_none_right_eq_some.mp hstep
  cases hstep
  refine h.modify hr (fun r => { r with progress := .gone }) ?_ ?_ nofun ?_ h.line_nodup rfl
    (fun j hj => .inr hj) ?_
  · cases hpooled : r.pooled <;> simp [Read.holds, hlanded, hpooled]
  · simp [Read.live]
  · intro hnew
    have hprogress := h.unanswered r (mem_of_getElem? hr) hnew
    simp [hlanded] at hprogress
  · intro hid
    obtain ⟨r', hr', -, hprogress⟩ := h.answers id hid
    obtain rfl := mem_unique hr hr'
    simp [hlanded] at hprogress

theorem join (hstep : s.join pages = some t) : Sound pages t := by
  obtain ⟨r, hr, hstep⟩ := bind_eq_some_iff.mp hstep
  obtain ⟨r', hjoin, rfl⟩ := map_eq_some_iff.mp hstep
  have hr' := h.fetch r hr
  obtain ⟨hwant, hlt, rfl⟩ := Receiver.join_stored_eq_some hr'.running hjoin
  have hposted := Receiver.want_eq_join (window_pos pages) hwant
  have hships := h.ships
  simp only [State.landed, hr, elim_some] at hships
  have hheld := hr'.held
  refine h.refetch hr ?_ ?_ h.line_nodup (fun _ hj => hj) hships
  · simp only [Receiver.receiving]
    omega
  · refine { hr' with
      toSound := ⟨hposted, hr'.landed, hr'.posted⟩
      waited := hlt
      held := ?_ }
    simp only [Receiver.receiving] at hheld ⊢
    omega

theorem reap (hstep : s.reap pages = some t) : Sound pages t := by
  obtain ⟨r, hr, hstep⟩ := bind_eq_some_iff.mp hstep
  obtain ⟨r', hreap, rfl⟩ := map_eq_some_iff.mp hstep
  have hr' := h.fetch r hr
  obtain ⟨hwant, rfl⟩ := Receiver.reap_eq_some hreap
  have hwrites := Receiver.want_eq_reap hwant
  have hships := h.ships
  simp only [State.landed, hr, elim_some] at hships
  have hheld := hr'.held
  refine h.refetch hr ?_ ?_ h.line_nodup (fun _ hj => hj) hships
  · simp only [Receiver.receiving]
    omega
  · refine { hr' with
      toSound := ⟨hr'.joined, hr'.landed, hr'.posted⟩
      running := by simp [hr'.running]
      held := ?_ }
    simp only [Receiver.receiving] at hheld ⊢
    omega

/-- **Every step keeps the account.** -/
theorem step {e : Event} (hstep : s.step pages e = some t) : Sound pages t := by
  cases e with
  | submit pooled => exact h.submit hstep
  | answer id => exact h.answer hstep
  | fetch total =>
    obtain ⟨hnone, hstep⟩ := ite_none_right_eq_some.mp hstep
    cases hstep
    exact h.start hnone
  | ship => exact h.ship hstep
  | grant id => exact h.grant hstep
  | take => exact h.take hstep
  | deliver => exact h.deliver hstep
  | collect id => exact h.collect hstep
  | join => exact h.join hstep
  | reap => exact h.reap hstep

end

end Sound

/-! ## Nothing is stuck -/

theorem Sound.held_le (h : Sound pages s) :
    s.held ≤ (geometry pages).window + (geometry pages).writeDepth := by
  unfold State.held
  cases hf : s.fetch with
  | none => exact Nat.zero_le _
  | some r => exact (h.fetch r hf).held

/-- The first frame is for a read that waits for a page: then there is one. -/
theorem Sound.free_of_asked (h : Sound pages s)
    (hpages : maxOutstanding pages + (geometry pages).window + (geometry pages).writeDepth ≤ pages)
    {r : Read} (hr : s.reads[id]? = some r) (hasked : r.progress = .asked) : 0 < s.free := by
  have hfewer : s.reads.countP Read.holds < s.reads.countP Read.live := by
    refine Modify.countP_lt_of_mem Read.live_of_holds (mem_of_getElem? hr) ?_ ?_
    · simp [Read.holds, hasked]
    · simp [Read.live, hasked]
  have hpool := h.pool
  have houtstanding := h.outstanding
  have hheld := h.held_le
  unfold State.outstanding at houtstanding
  omega

/-- The fetch waits for a page: then there is one. -/
theorem Sound.free_of_want (h : Sound pages s)
    (hpages : maxOutstanding pages + (geometry pages).window + (geometry pages).writeDepth ≤ pages)
    {r : Receiver} (hr : s.fetch = some r) (hwant : r.want (geometry pages) = .page) :
    0 < s.free := by
  have hfewer : s.reads.countP Read.holds ≤ s.reads.countP Read.live :=
    countP_mono_left fun r _ => Read.live_of_holds r
  have hpool := h.pool
  have houtstanding := h.outstanding
  obtain ⟨-, -, hwindow, hdepth⟩ := Receiver.want_eq_page hwant
  have hheld : s.held = r.receiving + r.writes := by rw [State.held, hr, elim_some]
  unfold State.outstanding at houtstanding
  omega

/-- **With pages for a full window, for the writes and for every read, somebody can go on.**  The
first frame of the stream is posted, or a page is free for whoever has to post it. -/
theorem Sound.not_stuck (h : Sound pages s)
    (hpages : maxOutstanding pages + (geometry pages).window + (geometry pages).writeDepth ≤
      pages) : ¬s.Stuck pages := by
  rintro ⟨hne, hnone⟩
  have hdeliver : s.deliver = none := hnone .deliver rfl
  rw [State.deliver] at hdeliver
  cases hline : s.line with
  | nil => exact hne hline
  | cons tag rest =>
    rw [hline] at hdeliver
    cases tag with
    | read id =>
      obtain ⟨r, hr, -, hprogress⟩ := h.answers id (hline ▸ mem_cons_self)
      rcases hprogress with hasked | hposted
      · have hgrant : s.grant id = none := hnone (.grant id) rfl
        simp [State.grant, hr, hasked] at hgrant
        have hfree := h.free_of_asked hpages hr hasked
        omega
      · simp [hr, hposted] at hdeliver
    | page i =>
      have hmem := h.page_mem (i := i) (hline ▸ mem_cons_self)
      cases hr : s.fetch with
      | none =>
        have hfresh := h.fresh hr
        omega
      | some r =>
        have hr' := h.fetch r hr
        have hlanded : s.landed = r.landed := by rw [State.landed, hr, elim_some]
        -- The pages come in order, so this is the next one, and it is not posted.
        have hi : i = r.landed := by
          have hships := h.ships
          obtain ⟨n, hn⟩ : ∃ n, s.shipped - s.landed = n + 1 := ⟨s.shipped - s.landed - 1, by omega⟩
          rw [hline, hn, range'_succ] at hships
          exact (List.cons.inj hships).1.trans hlanded
        have hposted : r.posted ≤ r.landed := by
          simp only [hr, bind_some, hi, if_true, Receiver.land] at hdeliver
          by_contra hlt
          simp [Nat.lt_of_not_le hlt] at hdeliver
        have hshipped := hr'.shipped
        cases hwant : r.want (geometry pages) with
        | join =>
          have hjoined := Receiver.want_eq_join (window_pos pages) hwant
          have hjoin : s.join pages = none := hnone .join rfl
          simp [State.join, hr, Receiver.join, hwant, hr'.running] at hjoin
          omega
        | reap =>
          have hreap : s.reap pages = none := hnone .reap rfl
          simp [State.reap, hr, Receiver.reap, hwant] at hreap
        | page =>
          have htake : s.take pages = none := hnone .take rfl
          simp [State.take, hr, Receiver.take, hwant, h.free_of_want hpages hr hwant] at htake
        | nothing =>
          have hend := (Receiver.want_eq_nothing hwant).1
          simp only [hr'.running, Bool.false_eq_true, false_or] at hend
          omega

/-- What can happen by itself is among what there is to try. -/
theorem mem_moves {e : Event} (he : e.internal = true) (hstep : s.step pages e ≠ none) :
    e ∈ s.moves := by
  have hread : ∀ id, s.reads[id]? ≠ none → id < s.reads.length := by
    intro id hid
    by_contra hlt
    exact hid (List.getElem?_eq_none_iff.mpr (Nat.le_of_not_lt hlt))
  cases e with
  | grant id =>
    have hid : s.reads[id]? ≠ none := by
      intro hnone
      simp [State.step, State.grant, hnone] at hstep
    simp [moves, hread id hid]
  | collect id =>
    have hid : s.reads[id]? ≠ none := by
      intro hnone
      simp [State.step, State.collect, hnone] at hstep
    simp [moves, hread id hid]
  | take | deliver | join | reap => simp [moves]
  | _ => cases he

theorem stuck_of_moves (hline : s.line ≠ []) (h : ∀ e ∈ s.moves, s.step pages e = none) :
    s.Stuck pages := by
  refine ⟨hline, fun e he => ?_⟩
  by_contra hstep
  exact hstep (h e (mem_moves he hstep))

/-- The fetch fills its window and leaves as many writes as it may, reads take the pages that are
left, and the frame of one more read comes first. -/
def wedge (pages : ℕ) : List Event :=
  let window := (geometry pages).window
  let depth := (geometry pages).writeDepth
  let readers := pages - window - depth
  Event.fetch (window + depth + 1) :: List.replicate window Event.take ++
    (List.replicate depth [Event.ship, .deliver, .join, .take]).flatten ++
    (List.range readers).flatMap (fun id => [Event.submit true, .grant id]) ++
      [Event.submit true, .answer readers]

/-- The run ends with frames in the stream and nothing to do. -/
def wedged (pages : ℕ) : Bool :=
  match Runs.exec (State.step pages) { free := pages } (wedge pages) with
  | none => false
  | some s => s.line ≠ [] && s.moves.all fun e => s.step pages e = none

theorem stuck_of_wedged {pages : ℕ} (h : wedged pages = true) :
    ∃ es s, Runs.exec (State.step pages) { free := pages } es = some s ∧ s.Stuck pages := by
  unfold wedged at h
  cases hrun : Runs.exec (State.step pages) { free := pages } (wedge pages) with
  | none => simp [hrun] at h
  | some s =>
    rw [hrun, Bool.and_eq_true, decide_eq_true_eq, List.all_eq_true] at h
    exact ⟨wedge pages, s, hrun, stuck_of_moves h.1 fun e he => of_decide_eq_true (h.2 e he)⟩

theorem wedged_of_few : ∀ pages, pages < 34 → 3 < pages → wedged pages = true := by
  decide +kernel

/-- **Ranged reads and a streamed fetch cannot deadlock each other exactly if the pool has pages for
all of them**: for the reads there may be, for the window of the fetch and for the writes it does
not await. -/
theorem never_stuck_iff (pages : ℕ) (hpages : 3 ≤ pages) :
    (∀ es s, Runs.exec (State.step pages) { free := pages } es = some s → ¬s.Stuck pages) ↔
      maxOutstanding pages + (geometry pages).window + (geometry pages).writeDepth ≤ pages := by
  constructor
  · intro hnever
    by_contra hshort
    have hfew : pages < 34 := by
      by_contra hmany
      simp only [maxOutstanding, geometry, Geometry.forChannel, maxInFlight, ringDepth] at hshort
      omega
    have hthree : 3 < pages := by
      refine lt_of_le_of_ne hpages ?_
      rintro rfl
      exact hshort (by decide)
    obtain ⟨es, s, hrun, hstuck⟩ := stuck_of_wedged (wedged_of_few pages hfew hthree)
    exact hnever es s hrun hstuck
  · intro henough es s hrun
    have hsound : Sound pages s :=
      Runs.exec_invariant (I := Sound pages) (fun h _ hstep => h.step hstep) (Sound.initial pages)
        (Runs.meets_true es _) hrun
    exact hsound.not_stuck henough

/-- A pool of three pages is enough for the one read there may be, a window of one page and one
write: here the frame of the read comes first, and the third page is for it. -/
theorem never_stuck_three :
    maxOutstanding 3 + (geometry 3).window + (geometry 3).writeDepth ≤ 3 ∧
    ∃ s, Runs.exec (State.step 3) { free := 3 }
        [.fetch 3, .take, .ship, .deliver, .join, .take, .submit true, .answer 0, .ship] = some s ∧
      s.line ≠ [] ∧ ¬s.Stuck 3 :=
  ⟨by decide, Runs.exists_exec rfl fun hs =>
    ⟨by decide, (never_stuck_iff 3 le_rfl).mpr (by decide) _ _ hs⟩⟩

/-- Four pages: two receives and a write of the fetch and a read hold them all, and the frame of a
second read is the first in the stream. -/
theorem four_pages_wedge :
    ∃ s, Runs.exec (State.step 4) { free := 4 }
        [.fetch 4, .take, .take, .ship, .deliver, .join, .take, .submit true, .grant 0,
        .submit true, .answer 1] = some s ∧
      s.Stuck 4 :=
  ⟨_, rfl, stuck_of_moves (by decide) (by decide)⟩

/-- **No page is lost.**  In every state of every run each page of the pool is free, with a read or
with the fetch; no more reads are out than may be, which is what `submit` refuses and callers keep
to anyway; a frame under way is for a read that waits for it, or a page of the fetch, in order. -/
theorem pages_conserved (pages : ℕ) (es : List Event) (s : State)
    (hrun : Runs.exec (State.step pages) { free := pages } es = some s) :
    s.free + s.reads.countP Read.holds + s.held = pages ∧ s.outstanding ≤ maxOutstanding pages ∧
    s.line.Nodup ∧ (∀ id, .read id ∈ s.line → ∃ r, s.reads[id]? = some r ∧ r.answered = true ∧
        (r.progress = .asked ∨ r.progress = .posted)) ∧
      s.line.filterMap Tag.page? = List.range' s.landed (s.shipped - s.landed) := by
  have hs : Sound pages s :=
    Runs.exec_invariant (I := Sound pages) (fun h _ hstep => h.step hstep) (Sound.initial pages)
      (Runs.meets_true es _) hrun
  exact ⟨hs.pool, hs.outstanding, hs.line_nodup, hs.answers, hs.ships⟩

/-- A read and two pages of a fetch are under way, and one page is written. -/
theorem pages_conserved_three :
    ∃ s, Runs.exec (State.step 3) { free := 3 } [.fetch 3, .take, .ship, .deliver, .join, .take,
      .submit true, .answer 0, .ship] = some s ∧ s.free + s.reads.countP Read.holds + s.held = 3 ∧
      s.held = 2 :=
  Runs.exists_exec rfl fun hs => ⟨(pages_conserved 3 _ _ hs).1, rfl⟩

end State
end Streaming
end Rail.Client
