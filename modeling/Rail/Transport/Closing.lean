import Rail.Transport.Stands
import Mathlib.Data.List.Nodup
import Mathlib.Data.List.Range

/-!
# Closing the data channel

`close` of `TcpDataChannel` gives everyone a reason and wakes them.  Whether everyone then returns
depends on the order in which the loop resumes them, so this module adds what `Channel` leaves open:
`Idlers` and the loop's `Ready` are queues, `wakeReaders` moves the one to the end of the other, and
only the head of `Ready` is resumed.  A descriptor that is closed lets go of whoever waits for it
(`Loop::forget`), and a read of it fails on the spot.

A receive that holds a frame for a key nobody has posted looks for the key and for nothing else when
it is woken (`Channel.heldUp`).  It is the only one that a failure does not free.
-/

namespace Rail.Transport

/-- The channel with the queues that decide who goes on. -/
structure Loop where
  chan : Channel := {}
  idlers : List ℕ := []
  /-- As far as it holds receives of this channel. -/
  ready : List ℕ := []
  deriving DecidableEq

namespace Loop

inductive Event where
  /-- Anything but a resumption. -/
  | outer (e : Transport.Event)
  /-- The loop resumes the head of its queue. -/
  | turn
  deriving DecidableEq

/-- The queues after the channel has moved to `c`: those that were woken leave `Idlers` in their
order, and whoever parks goes to its end. -/
def advance (l : Loop) (c : Channel) : Loop where
  chan := c
  idlers := l.idlers.filter c.parked ++ (List.range c.posts.length).filter fun j =>
    c.parked j && !l.idlers.contains j
  ready := l.ready ++ l.idlers.filter c.due ++ l.chan.stirred c

/-- What `read` says of a closed descriptor. -/
def badDescriptor : String := "read: Bad file descriptor"

/-- The receive that runs goes on to read a closed descriptor. -/
def fault (l : Loop) (k : ℕ) : Loop :=
  if l.chan.isReading k && !l.chan.up then
    match l.chan.lose badDescriptor with
    | some c => l.advance c
    | none => l
  else l

def turn (l : Loop) : Option Loop :=
  match l.ready with
  | [] => none
  | k :: rest =>
    if l.chan.isReading k then some ({ l with ready := rest }.fault k)
    else (l.chan.resume k).map fun c => ({ l with ready := rest }.advance c).fault k

def step (l : Loop) : Event → Option Loop
  | .outer (.resume _) => none
  -- Once the descriptor is closed it fails for whoever is resumed to read it, and not by itself.
  | .outer (.lose why) => if l.chan.up then (l.chan.lose why).map l.advance else none
  | .outer e => (l.chan.step e).map l.advance
  | .turn => l.turn

/-- What a receive waits for that the loop does not resume: its frame, which another one will read;
a post for the frame it holds; or bytes. -/
def waits (l : Loop) (j : ℕ) : Stand → Prop
  | .idle => j ∈ l.idlers ∧ l.chan.failure = none
  | .seek key _ => j ∈ l.idlers ∧ l.chan.waiting key = none
  | .reading => l.chan.up = true
  | .scheduled => False
  | .returned => True

open List Option Function Channel

/-- The queues hold whom they should; `run` is the receive that runs, if one does. -/
structure Ordered (l : Loop) (run : Option ℕ) : Prop where
  idlers : ∀ j, j ∈ l.idlers ↔ l.chan.parked j = true
  idlers_nodup : l.idlers.Nodup
  ready_nodup : l.ready.Nodup
  off : ∀ i, run = some i → i ∉ l.ready
  due : ∀ j, run ≠ some j → (j ∈ l.ready ↔ l.chan.due j = true)
  drives : ∀ j x, l.chan.stand j = some x → (x.drives = true ↔ l.chan.reader = some j)
  present : ∀ j, l.chan.reader = some j → l.chan.stand j ≠ none
  failed : l.chan.failure ≠ none → ∀ j, l.chan.stand j ≠ some .idle
  driven : l.chan.failure ≠ none → l.chan.reader ≠ none → l.chan.up = false
  down : l.chan.up = false → l.chan.failure ≠ none
  sought : ∀ j key, l.chan.stand j = some (.seek key false) → l.chan.waiting key = none
  /-- A reader that was woken is resumed before whoever has posted its key. -/
  order : ∀ k key, run ≠ some k → l.chan.stand k = some (.seek key true) →
    ∃ before after, l.ready = before ++ k :: after ∧ ∀ j ∈ before, l.chan.key j ≠ some key

theorem Ordered.initial : Ordered {} none := by
  constructor <;> simp [Channel.parked, Channel.stand, Channel.due, Channel.isReading]

theorem mem_idlers_advance (l : Loop) (c : Channel) (j : ℕ) :
    j ∈ (l.advance c).idlers ↔ c.parked j = true := by
  have hlt : c.parked j = true → j < c.posts.length := by
    intro hj
    obtain ⟨a, ha, -⟩ := parked_eq_true.mp hj
    obtain ⟨p, hp, -⟩ := map_eq_some_iff.mp ha
    exact (List.getElem?_eq_some_iff.mp hp).1
  by_cases hj : j ∈ l.idlers <;> simp [advance, hj]
  exact hlt

variable {j : ℕ} {l l' : Loop}

theorem nodup_idlers_advance (h : l.idlers.Nodup) (c : Channel) : (l.advance c).idlers.Nodup := by
  refine .append (h.filter _) (nodup_range.filter _) ?_
  intro j hj hfresh
  have hmem := (mem_filter.mp hj).1
  have hnot := (mem_filter.mp hfresh).2
  simp [hmem] at hnot

theorem mem_ready_advance {c : Channel} : j ∈ (l.advance c).ready ↔
    j ∈ l.ready ∨ (j ∈ l.idlers ∧ c.due j = true) ∨ j ∈ l.chan.stirred c := by
  simp only [advance, mem_append, mem_filter]
  exact or_assoc

theorem fault_of_reading {k : ℕ} (hreader : l.chan.reader = some k)
    (hread : l.chan.stand k = some .reading) (hdown : l.chan.up = false) :
    ∃ c, l.chan.lose badDescriptor = some c ∧ l.fault k = l.advance c := by
  have hlose := lose_of_reading hreader hread badDescriptor
  refine ⟨_, hlose, ?_⟩
  rw [fault, isReading, if_pos (by simp [hread, hdown]), hlose]

theorem fault_of_not_reading {k : ℕ} (h : ¬(l.chan.stand k = some .reading ∧ l.chan.up = false)) :
    l.fault k = l := by
  rw [fault, isReading, if_neg (by simpa using h)]

namespace Ordered

variable {l : Loop} {c : Channel} {k : Option ℕ} {w : Stand → Stand}

theorem disjoint_ready_idlers (h : Ordered l k) (hready : j ∈ l.ready) : j ∉ l.idlers := by
  intro hidle
  have hparked := (h.idlers j).mp hidle
  by_cases hj : k = some j
  · exact h.off j hj hready
  · exact not_due_of_parked hparked ((h.due j hj).mp hready)

/-- Nobody that the closed descriptor lets go was in a queue before. -/
theorem fresh_stirred (h : Ordered l k) (hc : Change l.chan c k w) (hj : j ∈ l.chan.stirred c) :
    j ∉ l.ready ∧ j ∉ l.idlers ∧ k ≠ some j := by
  obtain ⟨⟨hup, hdown⟩, hreader, hread⟩ := mem_stirred.mp hj
  have hk : k ≠ some j := by
    intro hk
    obtain ⟨x, -, -, -, -, hcalm, -⟩ := hc.self j hk
    rw [(hcalm hreader).1, hup] at hdown
    exact Bool.false_ne_true hdown.symm
  have hwas := (hc.reading_iff hk).mp hread
  refine ⟨fun hready => ?_, fun hidle => ?_, hk⟩
  · rcases due_eq_true.mp ((h.due j hk).mp hready) with ⟨a, ha, hsched⟩ | ⟨-, hdown⟩
    · obtain rfl := mem_unique ha hwas
      exact Bool.false_ne_true hsched
    · exact Bool.false_ne_true (hdown.symm.trans hup)
  · obtain ⟨a, ha, hparked⟩ := parked_eq_true.mp ((h.idlers j).mp hidle)
    obtain rfl := mem_unique ha hwas
    exact Bool.false_ne_true hparked

theorem nodup_ready_advance (h : Ordered l k) (hc : Change l.chan c k w) :
    (l.advance c).ready.Nodup := by
  refine .append (.append h.ready_nodup (h.idlers_nodup.filter _) ?_) (nodup_stirred _ _) ?_
  · intro j hready hwoken
    exact h.disjoint_ready_idlers hready (mem_filter.mp hwoken).1
  · intro j hj hstirred
    obtain ⟨hready, hidle, -⟩ := h.fresh_stirred hc hstirred
    rcases mem_append.mp hj with hj | hj
    · exact hready hj
    · exact hidle (mem_filter.mp hj).1

variable {i : ℕ} {rest : List ℕ} {key : UInt64}

section

variable (h : Ordered l k)
include h

section

variable (hc : Change l.chan c k w)
include hc

theorem off_advance (hi : k = some i) : i ∉ (l.advance c).ready := by
  rw [mem_ready_advance]
  rintro (hready | ⟨hidle, -⟩ | hstirred)
  · exact h.off i hi hready
  · exact Bool.false_ne_true ((hc.actor i hi).1.symm.trans ((h.idlers i).mp hidle))
  · exact (h.fresh_stirred hc hstirred).2.2 hi

theorem due_advance (hj : k ≠ some j) : j ∈ (l.advance c).ready ↔ c.due j = true := by
  rw [mem_ready_advance]
  constructor
  · rintro (hready | ⟨-, hdue⟩ | hstirred)
    · exact hc.due_of_due hj ((h.due j hj).mp hready)
    · exact hdue
    · obtain ⟨⟨-, hdown⟩, -, hread⟩ := mem_stirred.mp hstirred
      exact due_eq_true.mpr (.inr ⟨hread, hdown⟩)
  · intro hdue
    rcases hc.due_or_parked hj hdue with hwas | hparked | ⟨hup, hdown, hread⟩
    · exact .inl ((h.due j hj).mpr hwas)
    · exact .inr (.inl ⟨(h.idlers j).mpr hparked, hdue⟩)
    · have hreader := (h.drives j .reading ((hc.reading_iff hj).mp hread)).mp rfl
      exact .inr (.inr (mem_stirred.mpr ⟨⟨hup, hdown⟩, (hc.reader j hj).mpr hreader, hread⟩))

theorem drives_advance {x : Stand} (hx : c.stand j = some x) :
    x.drives = true ↔ c.reader = some j := by
  by_cases hj : k = some j
  · obtain ⟨y, hy, -, hdrives, -⟩ := hc.self j hj
    obtain rfl := mem_unique hx hy
    exact hdrives
  · obtain ⟨a, ha, rfl⟩ := hc.stand_eq_some hj hx
    have hsame : (w a).drives = a.drives := by
      rcases hc.wakes with rfl | rfl
      · rfl
      · exact Stand.drives_woken a
    rw [hsame, h.drives j a ha, hc.reader j hj]

theorem present_advance (hreader : c.reader = some j) : c.stand j ≠ none := by
  by_cases hj : k = some j
  · obtain ⟨y, hy, -⟩ := hc.self j hj
    rw [hy]
    exact some_ne_none y
  · rw [hc.other j hj, Ne, map_eq_none_iff]
    exact h.present j ((hc.reader j hj).mp hreader)

theorem failed_advance (hfail : c.failure ≠ none) (j : ℕ) : c.stand j ≠ some .idle := by
  intro hidle
  by_cases hj : k = some j
  · obtain ⟨y, hy, -, -, hnone, -⟩ := hc.self j hj
    exact hfail (hnone (mem_unique hy hidle))
  · obtain ⟨a, ha, hwa⟩ := hc.stand_eq_some hj hidle
    have hnot : w ≠ .woken := by
      rintro rfl
      have hparked := Stand.parked_woken a
      rw [hwa] at hparked
      exact Bool.false_ne_true hparked.symm
    have hsame := hc.wakes.resolve_right hnot
    subst hsame
    subst hwa
    exact h.failed ((hc.failed hfail).resolve_right hnot) j ha

theorem sought_advance (hseek : c.stand j = some (.seek key false)) : c.waiting key = none := by
  by_cases hj : k = some j
  · obtain ⟨y, hy, -, -, -, -, hlooked⟩ := hc.self j hj
    obtain ⟨hw, hnone⟩ := hlooked key (mem_unique hy hseek)
    exact hc.waiting_eq_none_of_same hw hnone
  · obtain ⟨a, ha, hwa⟩ := hc.stand_eq_some hj hseek
    rcases hc.wakes with hw | rfl
    · subst hw
      subst hwa
      exact hc.waiting_eq_none_of_same rfl (h.sought j key ha)
    · cases a <;> simp [Stand.woken] at hwa

/-- A queue only grows at its end, so whoever was before the reader is all that is before it. -/
theorem order_advance {r : ℕ} (hr : k ≠ some r) (hseek : c.stand r = some (.seek key true)) :
    ∃ before after, (l.advance c).ready = before ++ r :: after ∧ ∀ j ∈ before,
    c.key j ≠ some key := by
  have hkey : ∀ j, j ∈ l.ready ∨ j ∈ l.idlers → c.key j = l.chan.key j := by
    intro j hj
    refine hc.key j fun hk => ?_
    rcases hj with hj | hj
    · exact h.off j hk hj
    · exact Bool.false_ne_true ((hc.actor j hk).1.symm.trans ((h.idlers j).mp hj))
  obtain ⟨a, ha, hwa⟩ := hc.stand_eq_some hr hseek
  by_cases hwoken : a = .seek key true
  · subst hwoken
    obtain ⟨before, after, hready, hbefore⟩ := h.order r key hr ha
    refine ⟨before, after ++ l.idlers.filter c.due ++ l.chan.stirred c, by simp [advance, hready],
      fun j hj => ?_⟩
    rw [hkey j (.inl (hready ▸ mem_append_left _ hj))]
    exact hbefore j hj
  · -- The reader is woken by this step, with those that were parked before it.
    have ha' : a = .seek key false := by
      rcases hc.wakes with hw | rfl
      · subst hw
        exact absurd hwa hwoken
      · cases a <;> simp_all [Stand.woken]
    subst ha'
    have hidle : r ∈ l.idlers := (h.idlers r).mpr (parked_eq_true.mpr ⟨_, ha, rfl⟩)
    have hdue : c.due r = true := due_eq_true.mpr (.inl ⟨_, hseek, rfl⟩)
    obtain ⟨before, after, hsplit⟩ := append_of_mem (mem_filter.mpr ⟨hidle, hdue⟩)
    have hnone := waiting_eq_none_iff_stand.mp (h.sought r key ha)
    refine ⟨l.ready ++ before, after ++ l.chan.stirred c, by simp [advance, hsplit],
      fun j hj hkj => ?_⟩
    rcases mem_append.mp hj with hj | hj
    · rw [hkey j (.inl hj)] at hkj
      have hk : k ≠ some j := fun hk => h.off j hk hj
      exact not_returned_of_due ((h.due j hk).mp hj) (hnone j hkj)
    · have hmem := (mem_filter.mp (hsplit ▸ mem_append_left _ hj)).1
      rw [hkey j (.inr hmem)] at hkj
      exact not_returned_of_parked ((h.idlers j).mp hmem) (hnone j hkj)

/-- **A change of the channel keeps the queues in order.** -/
theorem advance : Ordered (l.advance c) k where
  idlers := mem_idlers_advance l c
  idlers_nodup := nodup_idlers_advance h.idlers_nodup c
  ready_nodup := h.nodup_ready_advance hc
  off _ := h.off_advance hc
  due _ := h.due_advance hc
  drives _ _ := h.drives_advance hc
  present _ := h.present_advance hc
  failed := h.failed_advance hc
  driven hfail hreader := by
    rcases hc.driven hfail hreader with hdown | ⟨hfail, hreader⟩
    · exact hdown
    · exact Bool.eq_false_iff.mpr fun hup =>
        Bool.false_ne_true ((h.driven hfail hreader).symm.trans (hc.up hup))
  down hdown := by
    rcases hc.down hdown with hdown | hfail
    · exact hc.fails (h.down hdown)
    · exact hfail
  sought _ _ := h.sought_advance hc
  order _ _ := h.order_advance hc

end

end

/-- A receive that is in no queue may run. -/
theorem start (h : Ordered l none) (hi : i ∉ l.ready) : Ordered l (some i) :=
  { h with
    off := fun _ hj => some.inj hj ▸ hi
    due := fun j _ => h.due j nofun
    order := fun k key _ => h.order k key nofun }

/-- The head of the queue runs. -/
theorem pop (h : Ordered l none) (hready : l.ready = i :: rest) :
    Ordered { l with ready := rest } (some i) := by
  obtain ⟨hoff, hnodup⟩ := nodup_cons.mp (hready ▸ h.ready_nodup)
  refine { h with
    ready_nodup := hnodup
    off := fun _ hj => some.inj hj ▸ hoff
    due := fun j hj => ?_
    order := fun k key hk hseek => ?_ }
  · have hdue := h.due j nofun
    have hne : j ≠ i := fun hji => hj (congrArg some hji.symm)
    rw [hready, mem_cons, or_iff_right hne] at hdue
    exact hdue
  · obtain ⟨before, after, hsplit, hbefore⟩ := h.order k key nofun hseek
    cases before with
    | nil =>
      rw [hready, nil_append] at hsplit
      exact absurd (congrArg some (List.cons.inj hsplit).1) hk
    | cons b before =>
      rw [hready, cons_append] at hsplit
      exact ⟨before, after, (List.cons.inj hsplit).2, fun j hj => hbefore j (mem_cons_of_mem b hj)⟩

/-- The receive that ran is done for now, and nothing is owed to it. -/
theorem finish (h : Ordered l (some i)) (hi : l.chan.due i ≠ true) : Ordered l none := by
  refine { h with off := nofun, due := fun j _ => ?_, order := fun k key _ hseek => ?_ }
  · by_cases hj : i = j
    · subst hj
      exact ⟨fun hready => absurd hready (h.off i rfl), fun hdue => absurd hdue hi⟩
    · exact h.due j fun hs => hj (some.inj hs)
  · by_cases hk : i = k
    · subst hk
      exact absurd (due_eq_true.mpr (.inl ⟨_, hseek, rfl⟩)) hi
    · exact h.order k key (fun hs => hk (some.inj hs)) hseek

/-- Whoever acted is owed something only if it went on to read a closed descriptor. -/
theorem not_due_of_change (hc : Change l.chan c (some i) w) (hi : c.stand i = some .reading →
      c.up = true) :
    c.due i ≠ true := by
  rw [Ne, due_eq_true]
  rintro (⟨x, hx, hsched⟩ | ⟨hread, hdown⟩)
  · obtain ⟨y, hy, hnot, -⟩ := hc.self i rfl
    obtain rfl := mem_unique hx hy
    exact Bool.false_ne_true (hnot.symm.trans hsched)
  · exact Bool.false_ne_true (hdown.symm.trans (hi hread))

/-- The reader acts while the connection is up. -/
theorem advance_reader (h : Ordered l none) (hup : l.chan.up = true)
    (hread : l.chan.stand i = some .reading) (hc : Change l.chan c (some i) w) :
    Ordered (l.advance c) none := by
  have hoff : i ∉ l.ready := by
    rw [h.due i nofun, due_eq_true]
    rintro (⟨x, hx, hsched⟩ | ⟨-, hdown⟩)
    · obtain rfl := mem_unique hread hx
      exact Bool.false_ne_true hsched
    · exact Bool.false_ne_true (hdown.symm.trans hup)
  refine ((h.start hoff).advance hc).finish (not_due_of_change hc fun hread' => ?_)
  obtain ⟨x, hx, -, hdrives, -, hcalm, -⟩ := hc.self i rfl
  obtain rfl := mem_unique hx hread'
  exact (hcalm (hdrives.mp rfl)).1.trans hup

theorem fault (h : Ordered l (some i)) (hsched : ∀ x, l.chan.stand i = some x →
      x.isScheduled = false) :
    Ordered (l.fault i) none := by
  by_cases hbad : l.chan.stand i = some .reading ∧ l.chan.up = false
  · obtain ⟨c, hlose, hfault⟩ := fault_of_reading ((h.drives i _ hbad.1).mp rfl) hbad.1 hbad.2
    obtain ⟨k, hk, -, rfl, hc⟩ := Change.lose hlose
    obtain rfl := some.inj (hk.symm.trans ((h.drives i _ hbad.1).mp rfl))
    rw [hfault]
    refine (h.advance hc).finish (not_due_of_change hc fun hread => ?_)
    obtain ⟨x, hx, -, hdrives, -⟩ := hc.self k rfl
    obtain rfl := mem_unique hx hread
    exact absurd (hdrives.mp rfl) nofun
  · rw [fault_of_not_reading hbad]
    refine h.finish ?_
    rw [Ne, due_eq_true]
    rintro (⟨x, hx, hs⟩ | hread)
    · exact Bool.false_ne_true ((hsched x hx).symm.trans hs)
    · exact hbad hread

theorem turn (h : Ordered l none) (hturn : l.turn = some l') : Ordered l' none := by
  rw [Loop.turn] at hturn
  cases hready : l.ready with
  | nil => simp [hready] at hturn
  | cons k rest =>
    rw [hready] at hturn
    dsimp only at hturn
    have hpop := h.pop hready
    split_ifs at hturn with hread
    · cases hturn
      refine hpop.fault fun x hx => ?_
      obtain rfl := some.inj ((of_decide_eq_true hread).symm.trans hx)
      rfl
    · obtain ⟨c', hresume, rfl⟩ := map_eq_some_iff.mp hturn
      obtain ⟨w', hc⟩ := Change.resume (h.drives k) hresume
      refine (hpop.advance hc).fault fun x hx => ?_
      obtain ⟨y, hy, hnot, -⟩ := hc.self k rfl
      obtain rfl := mem_unique hx hy
      exact hnot

theorem recv (h : Ordered l none) (key : UInt64) (length capacity : ℕ) :
    Ordered (l.advance (l.chan.recv key length capacity)) none := by
  have hnone : l.chan.stand l.chan.posts.length = none := stand_eq_none_iff.mpr le_rfl
  have hpresent : l.chan.reader ≠ some l.chan.posts.length := fun hr => h.present _ hr hnone
  rcases Change.recv key length capacity hpresent with hc | hc
  · exact h.advance hc
  · have hoff : l.chan.posts.length ∉ l.ready := by
      rw [h.due _ nofun]
      simp [Channel.due, isReading, hnone]
    refine ((h.start hoff).advance hc).finish (not_due_of_change hc fun hread => ?_)
    -- A new receive takes the socket only if nothing has failed.
    obtain ⟨x, hx, -, hdrives, -, hcalm, -⟩ := hc.self _ rfl
    obtain rfl := mem_unique hx hread
    obtain ⟨hup, hwhy⟩ := hcalm (hdrives.mp rfl)
    refine hup.trans (Bool.eq_true_of_not_eq_false fun hdown => ?_)
    exact h.down hdown (hwhy.resolve_left hpresent)

/-- **Every step keeps the queues in order.** -/
theorem step {e : Event} (h : Ordered l none) (hstep : l.step e = some l') : Ordered l' none := by
  have hquiet : ∀ c : Channel, c.posts = l.chan.posts → c.reader = l.chan.reader →
      c.failure = l.chan.failure → c.up = l.chan.up → Ordered (l.advance c) none := by
    intro c hposts hreader hfailure hup
    refine h.advance (.quiet (fun j => ?_) (fun j => ?_) hreader hfailure hup)
    · rw [Channel.key, hposts, Channel.key]
    · rw [Channel.stand, hposts, Channel.stand]
  cases e with
  | turn => exact h.turn hstep
  | outer e =>
    cases e with
    | send f =>
      cases hstep
      exact hquiet _ rfl rfl rfl rfl
    | start =>
      obtain ⟨c, hc, rfl⟩ := map_eq_some_iff.mp hstep
      simp only [Channel.step, Channel.start] at hc
      cases hwriting : l.chan.writing with
      | cons b bs => simp [hwriting] at hc
      | nil =>
        cases hqueue : l.chan.queue with
        | nil => simp [hwriting, hqueue] at hc
        | cons f rest =>
          rw [hwriting, hqueue] at hc
          cases hc
          exact hquiet _ rfl rfl rfl rfl
    | write n =>
      obtain ⟨c, hc, rfl⟩ := map_eq_some_iff.mp hstep
      rw [Channel.step, Channel.write, ite_none_right_eq_some] at hc
      obtain rfl := some.inj hc.2
      exact hquiet _ rfl rfl rfl rfl
    | recv key length capacity =>
      cases hstep
      exact h.recv key length capacity
    | read n =>
      obtain ⟨c, hc, rfl⟩ := map_eq_some_iff.mp hstep
      obtain ⟨hup, hc | ⟨k, w, -, hread, hc⟩⟩ := Change.read hc
      · exact h.advance hc
      · exact h.advance_reader hup hread hc
    | resume k => exact absurd hstep (some_ne_none l').symm
    | lose why =>
      rw [Loop.step, ite_none_right_eq_some] at hstep
      obtain ⟨hup, hstep⟩ := hstep
      obtain ⟨c, hc, rfl⟩ := map_eq_some_iff.mp hstep
      obtain ⟨k, -, hread, -, hc⟩ := Change.lose hc
      exact h.advance_reader hup hread hc
    | close =>
      cases hstep
      exact h.advance (.close l.chan)

/-! ## After a failure -/

/-- If nobody is woken and the connection stays as it is, the queue of the loop does not grow. -/
theorem ready_advance_of_same (h : Ordered l k) (hc : Change l.chan c k fun a => a)
    (hup : c.up = l.chan.up) : (l.advance c).ready = l.ready := by
  have hwoken : l.idlers.filter c.due = [] := by
    refine filter_eq_nil_iff.mpr fun j hj => not_due_of_parked ?_
    have hparked := (h.idlers j).mp hj
    have hk : k ≠ some j := fun hk => Bool.false_ne_true ((hc.actor j hk).1.symm.trans hparked)
    rw [Channel.parked, hc.other j hk, Option.map_id']
    exact hparked
  have hstirred : l.chan.stirred c = [] := by
    rw [stirred, if_neg]
    rintro ⟨htrue, hfalse⟩
    exact Bool.false_ne_true ((hfalse.symm.trans hup).trans htrue)
  simp only [Loop.advance, hwoken, hstirred, append_nil]

/-- Whoever the loop does not resume waits for something that has not come. -/
theorem waits {x : Stand} (h : Ordered l none) (hj : j ∉ l.ready) (hx : l.chan.stand j = some x) :
    l.waits j x := by
  have hnot : l.chan.due j ≠ true := fun h' => hj ((h.due j nofun).mpr h')
  have hparks : x.parked = true → j ∈ l.idlers := fun h' =>
    (h.idlers j).mpr (parked_eq_true.mpr ⟨x, hx, h'⟩)
  cases x with
  | idle => exact ⟨hparks rfl, not_not.mp fun hfail => h.failed hfail j hx⟩
  | reading => exact eq_true_of_ne_false fun hdown => hnot (due_eq_true.mpr (.inr ⟨hx, hdown⟩))
  | scheduled => exact hnot (due_eq_true.mpr (.inl ⟨_, hx, rfl⟩))
  | seek key woken =>
    cases woken with
    | true => exact absurd (due_eq_true.mpr (.inl ⟨_, hx, rfl⟩)) hnot
    | false => exact ⟨hparks rfl, h.sought j key hx⟩
  | returned => trivial

/-- Once something has failed, only a reader that holds a frame is parked. -/
theorem idlers_eq_nil (h : Ordered l k) (hfail : l.chan.failure ≠ none) {r : ℕ}
    (hreader : l.chan.reader = some r) (hr : l.chan.parked r = false) : l.idlers = [] := by
  refine eq_nil_iff_forall_not_mem.mpr fun j hj => ?_
  have hparked := (h.idlers j).mp hj
  obtain ⟨a, ha, hpark⟩ := parked_eq_true.mp hparked
  cases a with
  | idle => exact h.failed hfail j ha
  | seek key woken =>
    obtain rfl := some.inj (((h.drives j _ ha).mp rfl).symm.trans hreader)
    exact Bool.false_ne_true (hr.symm.trans hparked)
  | _ => exact Bool.false_ne_true hpark

theorem ready_advance_of_nil (hidlers : l.idlers = []) (hdown : l.chan.up = false) (c : Channel) :
    (l.advance c).ready = l.ready := by
  simp [Loop.advance, hidlers, stirred, hdown]

/-- Whoever seeks is the reader. -/
theorem not_heldUp (h : Ordered l k) (hseek : ∀ j key w, l.chan.reader = some j →
      l.chan.stand j = some (.seek key w) → l.chan.waiting key ≠ none) : l.chan.heldUp = false := by
  rw [Bool.eq_false_iff, Ne, heldUp_iff]
  rintro ⟨j, key, w, hstand, hwaiting⟩
  exact hseek j key w ((h.drives j _ hstand).mp rfl) hstand hwaiting

theorem turn_of_reading (hready : l.ready = i :: rest) (hread : l.chan.stand i = some .reading) :
    l.turn = some ({ l with ready := rest }.fault i) := by
  rw [Loop.turn, hready]
  exact if_pos (decide_eq_true hread)

theorem turn_of_resume (hready : l.ready = i :: rest) {x : Stand} (hx : l.chan.stand i = some x)
    (hne : x ≠ .reading) (hresume : l.chan.resume i = some c) :
    l.turn = some (({ l with ready := rest }.advance c).fault i) := by
  have hread : ¬l.chan.isReading i = true := by
    rw [isReading, decide_eq_true_eq, hx]
    exact fun h => hne (some.inj h)
  rw [Loop.turn, hready]
  exact (if_neg hread).trans (by rw [hresume, map_some])

/-- A read of the closed descriptor ends the reader, and there is nobody else to wake. -/
theorem fault_failed (h : Ordered l (some i)) (hfail : l.chan.failure ≠ none)
    (hread : l.chan.stand i = some .reading) (hdown : l.chan.up = false) :
    (l.fault i).chan.failure ≠ none ∧ (l.fault i).ready = l.ready ∧
    (l.fault i).chan.reader = none := by
  have hreader := (h.drives i _ hread).mp rfl
  obtain ⟨c, hlose, hfault⟩ := fault_of_reading hreader hread hdown
  obtain ⟨k, -, -, rfl, -⟩ := Change.lose hlose
  have hidlers := h.idlers_eq_nil hfail hreader (by simp [Channel.parked, hread, Stand.parked])
  rw [hfault]
  exact ⟨some_ne_none _, ready_advance_of_nil hidlers hdown _, rfl⟩

/-- After a failure, one whose turn comes returns. -/
theorem pass_of_failure {c : Channel} (hfail : c.failure ≠ none) (i : ℕ) (done : Bool) :
    ∃ r, c.pass i done = c.moveTo i (.returned r) := by
  obtain ⟨why, hwhy⟩ := ne_none_iff_exists'.mp hfail
  rw [Channel.pass, hwhy]
  cases done with
  | true => exact ⟨.landed, rfl⟩
  | false => exact ⟨.failed (protocolError why), rfl⟩

section

variable (h : Ordered l none)
include h

/-- The head of the queue comes before the reader, so it has not posted the key the reader looks
for. -/
theorem head_key_ne (hready : l.ready = i :: rest) (hseek : l.chan.stand j = some (.seek key true))
    (hj : j ≠ i) : l.chan.key i ≠ some key := by
  obtain ⟨before, after, hsplit, hbefore⟩ := h.order j key nofun hseek
  cases before with
  | nil =>
    rw [hready, nil_append] at hsplit
    exact absurd (List.cons.inj hsplit).1.symm hj
  | cons b before =>
    rw [hready, cons_append] at hsplit
    obtain ⟨rfl, -⟩ := List.cons.inj hsplit
    exact hbefore i mem_cons_self

/-- Whether a frame is held up does not change when the head of the queue returns. -/
theorem heldUp_returned (hready : l.ready = i :: rest) (hstand : l.chan.stand i = some .scheduled)
    {r : Outcome} (hc : Change l.chan (l.chan.moveTo i (.returned r)) (some i) fun a => a) :
    (l.chan.moveTo i (.returned r)).heldUp = l.chan.heldUp := by
  have hself : (l.chan.moveTo i (.returned r)).stand i = some .returned :=
    stand_moveTo_self hstand _
  refine Bool.eq_iff_iff.mpr ?_
  rw [heldUp_iff, heldUp_iff]
  constructor
  · rintro ⟨j, key, w, hseek, hwaiting⟩
    have hj : j ≠ i := by
      rintro rfl
      exact Stand.noConfusion (mem_unique hself hseek)
    have hseek' : l.chan.stand j = some (.seek key w) :=
      (stand_moveTo_of_ne _ hj _).symm.trans hseek
    refine ⟨j, key, w, hseek', ?_⟩
    cases w with
    | false => exact h.sought j key hseek'
    | true =>
      have hkey := h.head_key_ne hready hseek' hj
      rw [waiting_eq_none_iff_stand] at hwaiting ⊢
      intro m hm
      have hmi : m ≠ i := fun h => hkey (h ▸ hm)
      rw [← stand_moveTo_of_ne l.chan hmi (.returned r)]
      exact hwaiting m ((key_moveTo _ i m _).trans hm)
  · rintro ⟨j, key, w, hseek, hwaiting⟩
    have hj : j ≠ i := by
      rintro rfl
      exact Stand.noConfusion (mem_unique hstand hseek)
    exact ⟨j, key, w, (stand_moveTo_of_ne _ hj _).trans hseek,
      hc.waiting_eq_none_of_same rfl hwaiting⟩

section

variable (hfail : l.chan.failure ≠ none)
include hfail

/-- A receive that waits for its frame finds the failure, or its frame, and returns. -/
theorem turn_scheduled (hready : l.ready = i :: rest) (hstand : l.chan.stand i = some .scheduled) :
    ∃ l', l.turn = some l' ∧ l'.chan.failure ≠ none ∧ l'.ready = rest ∧
    l'.chan.heldUp = l.chan.heldUp := by
  obtain ⟨p, hp, hplace⟩ := map_eq_some_iff.mp hstand
  obtain ⟨r, hpass⟩ := pass_of_failure hfail i p.done
  have hresume : l.chan.resume i = some (l.chan.moveTo i (.returned r)) := by
    rw [Channel.resume, hp, bind_some]
    cases hcase : p.place with
    | scheduled => rw [← hpass]
    | _ => simp [hcase, Place.stand] at hplace
  have hnot : l.chan.reader ≠ some i := fun hr => Bool.false_ne_true ((h.drives i _ hstand).mpr hr)
  have hc : Change l.chan (l.chan.moveTo i (.returned r)) (some i) fun a => a := by
    rw [← hpass]
    refine .pass p.done (.inl rfl) ?_ (fun _ _ => rfl) (fun _ _ => (Option.map_id' ..).symm) hstand
      rfl rfl rfl hnot
    simp [Channel.parked, hstand, Stand.parked]
  have hself : (l.chan.moveTo i (.returned r)).stand i = some .returned :=
    stand_moveTo_self hstand _
  have hnofault : ({ l with ready := rest }.advance (l.chan.moveTo i (.returned r))).fault i =
      { l with ready := rest }.advance (l.chan.moveTo i (.returned r)) := by
    refine fault_of_not_reading fun hread => ?_
    exact Stand.noConfusion (mem_unique hself hread.1)
  refine ⟨_, turn_of_resume hready hstand Stand.noConfusion hresume, ?_⟩
  rw [hnofault]
  exact ⟨hfail, (h.pop hready).ready_advance_of_same hc rfl, h.heldUp_returned hready hstand hc⟩

/-- A reader that was woken looks for the key of its frame once more. -/
theorem turn_seek (hready : l.ready = i :: rest) (hstand : l.chan.stand i = some (.seek key true)) :
    ∃ l', l.turn = some l' ∧ l'.chan.failure ≠ none ∧ l'.ready = rest ∧
    l'.chan.heldUp = l.chan.heldUp := by
  obtain ⟨p, hp, hplace⟩ := map_eq_some_iff.mp hstand
  obtain ⟨length, hresume⟩ : ∃ length, l.chan.resume i = some (l.chan.look i key length) := by
    rw [Channel.resume, hp, bind_some]
    cases hcase : p.place with
    | seek key' length woken =>
      rw [hcase] at hplace
      obtain ⟨rfl, rfl⟩ := Stand.seek.inj hplace
      exact ⟨length, rfl⟩
    | _ => simp [hcase, Place.stand] at hplace
  have hreader := (h.drives i _ hstand).mp rfl
  have hdown := h.driven hfail (by rw [hreader]; exact some_ne_none i)
  have hactive : l.chan.Active i := .inr ⟨key, hstand⟩
  have hturn := turn_of_resume hready hstand Stand.noConfusion hresume
  cases hwaiting : l.chan.waiting key with
  | none =>
    have hc := Change.look_of_not_waiting hactive hreader hwaiting length
    have hself : (l.chan.look i key length).stand i = some (.seek key false) := by
      rw [look_of_not_waiting hwaiting]
      exact stand_moveTo_self hstand _
    rw [fault_of_not_reading fun hread => Stand.noConfusion (mem_unique hself hread.1)] at hturn
    refine ⟨_, hturn, hc.fails hfail, (h.pop hready).ready_advance_of_same hc ?_, ?_⟩
    · rw [look_of_not_waiting hwaiting]
      rfl
    · have hheld : l.chan.heldUp = true := heldUp_iff.mpr ⟨i, key, true, hstand, hwaiting⟩
      rw [hheld]
      exact heldUp_iff.mpr ⟨i, key, false, hself, hc.waiting_eq_none_of_same rfl hwaiting⟩
  | some found =>
    have hheld : l.chan.heldUp = false := by
      refine h.not_heldUp fun j key' w hj hseek => ?_
      obtain rfl := mem_unique hj hreader
      obtain ⟨rfl, -⟩ := Stand.seek.inj (mem_unique hseek hstand)
      rw [hwaiting]
      exact some_ne_none found
    obtain ⟨w, hc, hup, hend⟩ := Change.look_of_waiting hactive hreader hwaiting length
    have hpop := (h.pop hready).advance hc
    have hidlers := h.idlers_eq_nil hfail hreader hactive.actor.1
    have hrest : ({ l with ready := rest }.advance (l.chan.look i key length)).ready = rest :=
      ready_advance_of_nil (l := { l with ready := rest }) hidlers hdown _
    have hafter : Ordered (({ l with ready := rest }.advance (l.chan.look i key length)).fault i)
      none := h.turn hturn
    refine ⟨_, hturn, ?_⟩
    rw [hheld]
    rcases hend with hread | hnone
    · obtain ⟨hfail', hready', hnone⟩ := hpop.fault_failed (hc.fails hfail) hread (hup.trans hdown)
      refine ⟨hfail', hready'.trans hrest, hafter.not_heldUp fun j _ _ hj => ?_⟩
      exact absurd (hnone.symm.trans hj) (some_ne_none j).symm
    · have hnofault :=
        fault_of_not_reading (l := { l with ready := rest }.advance (l.chan.look i key length))
          (k := i)
        fun hread => absurd (((hpop.drives i _ hread.1).mp rfl).symm.trans hnone) (some_ne_none i)
      rw [hnofault] at hafter ⊢
      refine ⟨hc.fails hfail, hrest, hafter.not_heldUp fun j _ _ hj => ?_⟩
      exact absurd (hnone.symm.trans hj) (some_ne_none j).symm

/-- **One turn after a failure**: the head of the queue returns, or it holds a frame for a key
nobody has posted and parks again.  Nobody is added to the queue. -/
theorem turn_failed (hready : l.ready = i :: rest) :
    ∃ l', l.turn = some l' ∧ l'.chan.failure ≠ none ∧ l'.ready = rest ∧
    l'.chan.heldUp = l.chan.heldUp := by
  have hdue := (h.due i nofun).mp (hready ▸ mem_cons_self)
  rcases due_eq_true.mp hdue with ⟨x, hx, hsched⟩ | ⟨hread, hdown⟩
  · cases x with
    | scheduled => exact h.turn_scheduled hfail hready hx
    | seek key woken =>
      obtain rfl : woken = true := hsched
      exact h.turn_seek hfail hready hx
    | _ => cases hsched
  · have hreader := (h.drives i _ hread).mp rfl
    have hturn := turn_of_reading hready hread
    obtain ⟨hfail', hready', hnone⟩ := (h.pop hready).fault_failed hfail hread hdown
    refine ⟨_, hturn, hfail', hready', ?_⟩
    have hheld : l.chan.heldUp = false := by
      refine h.not_heldUp fun j key w hj hseek => ?_
      obtain rfl := mem_unique hj hreader
      exact Stand.noConfusion (mem_unique hseek hread)
    rw [hheld]
    exact (h.turn hturn).not_heldUp fun j _ _ hj =>
      absurd (hnone.symm.trans hj) (some_ne_none j).symm

/-- **As many turns as the queue is long** empty it. -/
theorem drain :
    ∃ t, Runs.exec Loop.step l (List.replicate l.ready.length .turn) = some t ∧ t.ready = [] ∧
    Ordered t none ∧ t.chan.failure ≠ none ∧ t.chan.heldUp = l.chan.heldUp := by
  induction hready : l.ready generalizing l with
  | nil => exact ⟨l, rfl, hready, h, hfail, rfl⟩
  | cons i rest ih =>
    obtain ⟨l', hturn, hfail', hrest, hheld⟩ := h.turn_failed hfail hready
    obtain ⟨t, hexec, hempty, ht, htfail, htheld⟩ := ih (h.turn hturn) hfail' hrest
    refine ⟨t, ?_, hempty, ht, htfail, htheld.trans hheld⟩
    rw [length_cons, replicate_succ, Runs.exec, Loop.step, hturn]
    exact hexec

/-- When nothing is scheduled after a failure, everyone has returned but a reader that holds a
frame. -/
theorem all_returned_iff (hempty : l.ready = []) :
    (∀ p ∈ l.chan.posts, p.place.isReturned = true) ↔ l.chan.heldUp = false := by
  constructor
  · intro hall
    rw [Bool.eq_false_iff, Ne, heldUp_iff]
    rintro ⟨j, key, w, hstand, -⟩
    obtain ⟨p, hp, hplace⟩ := map_eq_some_iff.mp hstand
    have hret := Place.stand_eq_returned.mpr (hall p (mem_of_getElem? hp))
    exact Stand.noConfusion (hplace.symm.trans hret)
  · intro hheld p hp
    obtain ⟨j, hj⟩ := mem_iff_getElem?.mp hp
    have hstand : l.chan.stand j = some p.place.stand := by rw [stand, hj, map_some]
    refine Place.stand_eq_returned.mp ?_
    generalize p.place.stand = x at hstand ⊢
    have hwaits := h.waits (hempty ▸ not_mem_nil) hstand
    cases x with
    | returned => rfl
    | idle => exact absurd hwaits.2 hfail
    | scheduled => exact hwaits.elim
    | reading =>
      have hreader := (h.drives j _ hstand).mp rfl
      have hdown := h.driven hfail (hreader ▸ some_ne_none j)
      exact absurd (hdown.symm.trans hwaits) Bool.false_ne_true
    | seek key woken =>
      have hup := heldUp_iff.mpr ⟨j, key, woken, hstand, hwaits.2⟩
      exact absurd (hheld.symm.trans hup) Bool.false_ne_true

end

end

end Ordered

/-! ## Runs -/

theorem Ordered.of_run {es : List Event} (h : Runs.exec Loop.step {} es = some l) :
    Ordered l none :=
  Runs.exec_invariant (I := fun l => Ordered l none) (fun hl _ hstep => hl.step hstep)
    Ordered.initial (Runs.meets_true es _) h

/-- What an event is to the channel: itself; and a turn resumes the head of the queue, which may
find the descriptor closed, or was suspended in a read of it. -/
def plays (l : Loop) : Event → List Transport.Event → Prop
  | .outer e, es => es = [e]
  | .turn, es => ∃ k rest, l.ready = k :: rest ∧
      (es = [.resume k] ∨ es = [.resume k, .lose badDescriptor] ∨ es = [.lose badDescriptor])

theorem chan_fault (l : Loop) (k : ℕ) :
    l.fault k = l ∨ Channel.step l.chan (.lose badDescriptor) = some (l.fault k).chan := by
  by_cases hbad : (l.chan.isReading k && !l.chan.up) = true
  · cases hlose : l.chan.lose badDescriptor with
    | none => exact .inl (by rw [fault, if_pos hbad, hlose])
    | some c =>
      refine .inr ?_
      rw [fault, if_pos hbad, hlose, Channel.step, hlose]
      rfl
  · exact .inl (if_neg hbad)

theorem chan_turn (hl : Ordered l none) (h : l.turn = some l') :
    ∃ es, l.plays .turn es ∧ Runs.exec Channel.step l.chan es = some l'.chan := by
  rw [turn] at h
  cases hready : l.ready with
  | nil => simp [hready] at h
  | cons k rest =>
    rw [hready] at h
    dsimp only at h
    split_ifs at h with hread
    · -- it is in the queue because its descriptor is gone
      cases h
      have hstand : l.chan.stand k = some .reading := of_decide_eq_true hread
      have hdown : l.chan.up = false := by
        rcases due_eq_true.mp ((hl.due k nofun).mp (hready ▸ mem_cons_self)) with ⟨a, ha,
          hsched⟩ | ⟨-, hdown⟩
        · obtain rfl := mem_unique ha hstand
          exact absurd hsched Bool.false_ne_true
        · exact hdown
      obtain ⟨c, hlose, hfault⟩ :=
        fault_of_reading (l := { l with ready := rest }) ((hl.drives k _ hstand).mp rfl)
          hstand hdown
      refine ⟨[.lose badDescriptor], ⟨k, rest, hready, .inr (.inr rfl)⟩, ?_⟩
      rw [hfault, Runs.exec, Channel.step, hlose]
      rfl
    · obtain ⟨c, hresume, rfl⟩ := map_eq_some_iff.mp h
      rcases chan_fault ({ l with ready := rest }.advance c) k with hsame | hlose
      · refine ⟨[.resume k], ⟨k, rest, hready, .inl rfl⟩, ?_⟩
        rw [hsame, Runs.exec, Channel.step, hresume]
        rfl
      · refine ⟨[.resume k, .lose badDescriptor], ⟨k, rest, hready, .inr (.inl rfl)⟩, ?_⟩
        rw [Runs.exec, Channel.step, hresume]
        change Runs.exec Channel.step ({ l with ready := rest }.advance c).chan
          [.lose badDescriptor] = _
        rw [Runs.exec, hlose]
        rfl

/-- What the loop does next is what the channel does, for the event itself or for the receive at the
head of the queue. -/
theorem Ordered.plays {e : Event} (hl : Ordered l none) (hstep : l.step e = some l') :
    ∃ es, l.plays e es ∧ Runs.exec Channel.step l.chan es = some l'.chan := by
  have hone : ∀ e, (l.chan.step e).map l.advance = some l' →
      ∃ es, l.plays (.outer e) es ∧ Runs.exec Channel.step l.chan es = some l'.chan := by
    intro e he
    obtain ⟨c, hc, rfl⟩ := map_eq_some_iff.mp he
    exact ⟨[e], rfl, by rw [Runs.exec, hc]; rfl⟩
  cases e with
  | turn => exact chan_turn hl hstep
  | outer e =>
    cases e with
    | resume k => exact absurd hstep (some_ne_none l').symm
    | lose why =>
      rw [Loop.step, ite_none_right_eq_some] at hstep
      exact hone (.lose why) hstep.2
    | send f => exact hone (.send f) hstep
    | start => exact hone .start hstep
    | write n => exact hone (.write n) hstep
    | recv key length capacity => exact hone (.recv key length capacity) hstep
    | read n => exact hone (.read n) hstep
    | close => exact hone .close hstep

/-- **The queues only choose**: in every run, a step of the loop is a run of the channel. -/
theorem chan_step (es : List Event) (s t : Loop) (e : Event)
    (h : Runs.exec Loop.step {} es = some s) (hstep : s.step e = some t) :
    ∃ es, s.plays e es ∧ Runs.exec Channel.step s.chan es = some t.chan :=
  (Ordered.of_run h).plays hstep

/-- A turn after a close. -/
theorem chan_step_turn :
    ∃ s t, Runs.exec Loop.step {} [.outer (.recv 1 4 4), .outer .close] = some s ∧
    s.step .turn = some t ∧ ∃ es, s.plays .turn es ∧ Runs.exec Channel.step s.chan es =
    some t.chan :=
  ⟨_, _, rfl, rfl, chan_step [.outer (.recv 1 4 4), .outer .close] _ _ .turn rfl rfl⟩

/-- **A failure frees everyone, but for a reader that holds a frame nobody has asked for.**
Whatever happened before, once the channel has failed or was closed the loop comes to have nothing
to resume, and then every receive has returned exactly if no frame was held up. -/
theorem failure_frees_receivers (es : List Event) (s : Loop)
    (h : Runs.exec Loop.step {} es = some s) (hfail : s.chan.failure ≠ none) :
    ∃ t, Runs.exec Loop.step s (List.replicate s.ready.length .turn) = some t ∧ t.ready = [] ∧
      ((∀ p ∈ t.chan.posts, p.place.isReturned = true) ↔ s.chan.heldUp = false) := by
  obtain ⟨t, hexec, hempty, ht, htfail, hheld⟩ := (Ordered.of_run h).drain hfail
  exact ⟨t, hexec, hempty, by rw [← hheld]; exact ht.all_returned_iff htfail hempty⟩

/-- Two receives wait, the first one at the socket, and the channel is closed: both return. -/
theorem failure_frees_receivers_close :
    ∃ s t, Runs.exec Loop.step {} [.outer (.recv 1 4 4), .outer (.recv 2 4 4), .outer .close] =
    some s ∧ Runs.exec Loop.step s [.turn, .turn] = some t ∧ t.ready = [] ∧ ∀ p ∈ t.chan.posts,
    p.place.isReturned = true := by
  obtain ⟨t, hexec, hempty, hiff⟩ := failure_frees_receivers
    [.outer (.recv 1 4 4), .outer (.recv 2 4 4), .outer .close] _ rfl (some_ne_none _)
  exact ⟨_, t, rfl, hexec, hempty, hiff.mpr (by decide)⟩

/-- A receive reads the header of a frame for a key that nobody has posted, and the channel is
closed: the loop has nothing to resume, and the receive is still parked. -/
theorem close_leaves_reader_parked :
    ∃ s t, Runs.exec Loop.step {}
        [.outer (.recv 1 4 4), .outer (.send ⟨2, [7]⟩), .outer .start, .outer (.write 13),
        .outer (.read 12), .outer .close] = some s ∧ s.chan.failure ≠ none ∧
      Runs.exec Loop.step s (List.replicate s.ready.length .turn) = some t ∧ t.ready = [] ∧
      ∃ p ∈ t.chan.posts, p.place.isReturned = false := by
  refine ⟨_, _, rfl, some_ne_none _, rfl, rfl, ?_⟩
  decide

/-- Keys of receives are distinct, keys of frames are, and every frame fits its header. -/
def orderly (l : Loop) : Event → Prop
  | .outer e => l.chan.distinct e ∧ e.fits
  | .turn => True

instance (l : Loop) (e : Event) : Decidable (l.orderly e) := by
  cases e <;> unfold orderly <;> infer_instance

theorem orderly_step {e : Event} (hl : Ordered l none ∧ ∃ f w, l.chan.Inv f w) (hok : l.orderly e)
    (hstep : l.step e = some l') : Ordered l' none ∧ ∃ f w, l'.chan.Inv f w := by
  obtain ⟨es, hplays, hexec⟩ := hl.1.plays hstep
  refine ⟨hl.1.step hstep, ?_⟩
  cases e with
  | outer e =>
    obtain rfl := hplays
    obtain ⟨c, hc, hdone⟩ := Runs.exec_cons_eq_some hexec
    cases hdone
    exact Inv.step hl.2 hok hc
  | turn =>
    obtain ⟨k, rest, -, hes⟩ := hplays
    have hfree : ∀ e ∈ es, ∀ c : Channel, c.distinct e ∧ e.fits := by
      rcases hes with rfl | rfl | rfl <;> simp [distinct, Event.fits]
    exact Runs.exec_invariant (I := fun c => ∃ f w, c.Inv f w) (fun h hok => Inv.step h (hok.2 _))
      hl.2 ((Runs.meets_true es _).and_events hfree) hexec

/-- **No wakeup is lost.**  In every state of every run, a receive that is not in the loop's queue
waits for something that has not come; while keys are distinct, it is idle only if its frame has not
landed and there is a reader.  Only who is due is in the queue, nobody twice, and a reader that was
woken for a frame it holds comes before whoever has posted its key. -/
theorem no_wakeup_lost (es : List Event) (s : Loop) (h : Runs.exec Loop.step {} es = some s) :
    (∀ j x, s.chan.stand j = some x → j ∉ s.ready → s.waits j x) ∧
      (Runs.Meets Loop.step orderly {} es → ∀ p ∈ s.chan.posts, p.place = .idle →
        p.done = false ∧ s.chan.reader ≠ none) ∧
      (∀ j ∈ s.ready, s.chan.due j = true) ∧ (s.ready ++ s.idlers).Nodup ∧
      ∀ k key, s.chan.stand k = some (.seek key true) →
        ∃ before after, s.ready = before ++ k :: after ∧ ∀ j ∈ before, s.chan.key j ≠ some key := by
  have hs := Ordered.of_run h
  have hdue : ∀ j ∈ s.ready, s.chan.due j = true := fun j => (hs.due j nofun).mp
  refine ⟨fun j x hx hj => hs.waits hj hx, fun hok p hp hidle => ?_, hdue,
    .append hs.ready_nodup hs.idlers_nodup fun j hj hparks => ?_, fun k key => hs.order k key nofun⟩
  · obtain ⟨-, l, w, hinv⟩ := Runs.exec_invariant orderly_step ⟨.initial, [], [], .initial⟩ hok h
    obtain ⟨j, hj⟩ := mem_iff_getElem?.mp hp
    have hgood := hinv.good j p hj
    refine ⟨eq_false_of_ne_true fun hdone => ?_, fun hr => hgood.awake hr hidle⟩
    have hwhere := (hgood.done hdone).1
    simp [hidle] at hwhere
  · exact not_due_of_parked ((hs.idlers j).mp hparks) (hdue j hj)

/-- The second of two receives waits for the first. -/
theorem no_wakeup_lost_second :
    ∃ s, Runs.exec Loop.step {} [.outer (.recv 1 4 4), .outer (.recv 2 1 1)] = some s ∧
      s.waits 1 .idle ∧ s.chan.reader ≠ none :=
  Runs.exists_exec rfl fun hs =>
    have h := no_wakeup_lost _ _ hs
    ⟨h.1 1 _ rfl (by decide),
      (h.2.1 (by decide) _ (mem_cons_of_mem _ (mem_singleton_self _)) rfl).2⟩

end Loop
end Rail.Transport
