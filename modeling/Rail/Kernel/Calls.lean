import Rail.Kernel.Replies
import Rail.Foundation.Modify

/-!
# Calls and the two readers of a connection

`railfs_call_begin`, `railfs_call_end`, `railfs_deliver`, `railfs_take_frame` and `railfs_conn_kill`
of `src/linux/railfs-tcp.c`.  A call is a record on the stack of its caller, linked into the
connection under a lock.  The reader of the control socket leaves a reply in it; the reader of the
data socket receives into its buffer *outside* the lock, with the record marked busy; and whoever
kills the connection fails what is still outstanding.  The caller may leave at any time.  It unlinks
the record, and where it found it busy it waits for `released`, which the data reader completes when
it is done with the buffer.

A completion counts.  `released` is completed after every frame, whether anybody waits or not, so
what a caller of `railfs_call_end` waits for may be the end of a frame that was over long ago.  A
peer that sends a second frame for one call brings that about, and nothing in the data reader
refuses one.  Without such a frame the count is zero as long as the reader is in the buffer
(`Sound.filling`), and nobody leaves before it is out.

The steps are the sections of the code between which others can come in.  The bytes of a frame come
in any number of pieces.  Both readers look at `dead` once in a while only; that is left out here,
which gives them more runs.
-/

namespace Rail.Kernel.Calls

open List Option Wire Replies

/-- `RAILFS_PAGE_SIZE`, the longest data frame. -/
def pageSize : ℕ := 1048576

def eProto : ℤ := -71
def eBadMsg : ℤ := -74
def eMsgSize : ℤ := -90
def eNotConn : ℤ := -107

/-- Where the caller is: between `railfs_call_begin` and `railfs_call_end`, in the wait of the
latter, or past it. -/
inductive Place where
  | begun
  | ending
  | ended
  deriving DecidableEq

/-- `struct railfs_call`.  A completion is its count.  The type a payload came with, the caller's
place and the bytes that came after `railfs_call_end` had returned are recorded beside the
fields. -/
structure Call where
  id : UInt64
  want : UInt16
  /-- The room in `buf`, where the call has one. -/
  room : Option ℕ
  linked : Bool := true
  payload : Option (UInt16 × Bytes) := none
  err : ℤ := 0
  answered : Bool := false
  got : ℕ := 0
  dataErr : ℤ := 0
  delivered : Bool := false
  busy : Bool := false
  replied : ℕ := 0
  landed : ℕ := 0
  released : ℕ := 0
  place : Place := .begun
  late : ℕ := 0
  deriving DecidableEq

/-- The reader of the control socket: at work, out of its loop with an error and about to kill the
connection, or gone. -/
inductive Reader where
  | running
  | failing (why : ℤ)
  | gone
  deriving DecidableEq

/-- The reader of the data socket: between frames, in the buffer of a call with so many bytes of the
frame received, out of its loop, or gone. -/
inductive DataReader where
  | idle
  | filling (k len got : ℕ)
  | failing (why : ℤ)
  | gone
  deriving DecidableEq

structure Conn where
  calls : List Call := []
  dead : Bool := false
  why : ℤ := 0
  reader : Reader := .running
  data : DataReader := .idle
  deriving DecidableEq

inductive Event where
  /-- `railfs_call_begin`. -/
  | begin (id : UInt64) (want : UInt16) (room : Option ℕ)
  /-- `railfs_call_wait` finds the reply. -/
  | wait (k : ℕ)
  /-- `railfs_call_wait_data` finds the data. -/
  | waitData (k : ℕ)
  /-- The first half of `railfs_call_end`, after a wait, a signal or a failed send. -/
  | leave (k : ℕ)
  /-- The wait on `released` is over. -/
  | left (k : ℕ)
  /-- Somebody kills the connection: a wait that took too long, a send that failed. -/
  | kill (why : ℤ)
  /-- The reader has a whole control frame. -/
  | control (type : UInt16) (payload : Bytes)
  /-- The reader's receive fails, or the header it read is refused, or there is no memory. -/
  | controlFails (why : ℤ)
  /-- The reader that left its loop kills the connection. -/
  | readerEnds
  /-- The data reader has a header. -/
  | frame (key : UInt64) (len : ℕ)
  /-- The data reader receives bytes into the buffer. -/
  | bytes (n : ℕ)
  /-- The frame is complete. -/
  | landed
  /-- The data reader's receive fails, in a header, in a frame or past one. -/
  | dataFails (why : ℤ)
  | dataEnds
  deriving DecidableEq

namespace Call

/-- What `railfs_conn_kill` does to a call on the list. -/
def fail (why : ℤ) (c : Call) : Call :=
  { c with
    err := if c.answered then c.err else why
    dataErr := if c.delivered then c.dataErr else why
    replied := c.replied + 1
    landed := c.landed + 1 }

/-- What `railfs_deliver` leaves in a call. -/
def answer (type : UInt16) (payload : Bytes) (c : Call) : Call :=
  { c with payload := some (type, payload), err := 0, answered := true, replied := c.replied + 1 }

def take (c : Call) : Call := { c with busy := true }

/-- Bytes reach the buffer. -/
def fill (n : ℕ) (c : Call) : Call := if c.place = .ended then { c with late := c.late + n } else c

/-- The end of `railfs_take_frame`. -/
def land (len : ℕ) (err : ℤ) (c : Call) : Call :=
  { c with
    busy := false
    got := len
    dataErr := err
    delivered := decide (err = 0)
    landed := c.landed + 1
    released := c.released + 1 }

/-- Off the list; a caller that finds the call busy waits. -/
def leave (c : Call) : Call :=
  { c with
    linked := false
    place := if c.busy then .ending else .ended
    payload := if c.busy then c.payload else none }

/-- The wait on `released` takes one from its count. -/
def left (c : Call) : Call :=
  { c with released := c.released - 1, place := .ended, payload := none }

end Call

namespace Conn

variable (s : Conn)

def alter (k : ℕ) (f : Call → Call) : Conn := { s with calls := s.calls.modify k f }

/-- `railfs_conn_kill`. -/
def kill (why : ℤ) : Conn :=
  if s.dead then s
  else { s with dead := true, why, calls := s.calls.map fun c =>
    if c.linked then c.fail why else c }

/-- `railfs_call_for`. -/
def callFor (id : UInt64) : Option ℕ := s.calls.findIdx? fun c => c.linked && c.id == id

def begin (id : UInt64) (want : UInt16) (room : Option ℕ) : Conn :=
  if s.dead then s else { s with calls := s.calls ++ [{ id, want, room }] }

/-- `railfs_deliver`: the connection after it, or the error that ends the reader. -/
def deliver (type : UInt16) (payload : Bytes) : Except ℤ Conn :=
  if payload.length < 8 then .error eBadMsg
  else
    match s.callFor (UInt64.ofNat (ofLE (payload.take 8))) with
    | none => .ok s
    | some k =>
      match s.calls[k]? with
      | none => .ok s
      | some c =>
        if c.want ≠ type then .error eProto
        else if c.answered then .error eProto
        else .ok (s.alter k (.answer type payload))

/-- `railfs_take_frame` up to the bytes.  A frame that nobody wants is read past. -/
def takeFrame (key : UInt64) (len : ℕ) : Conn :=
  if pageSize < len then { s with data := .failing eMsgSize }
  else
    match s.callFor key with
    | none => s
    | some k =>
      match s.calls[k]? with
      | none => s
      | some c =>
        match c.room with
        | none => s
        | some room =>
          if room < len then { s with data := .failing eMsgSize }
          else { s.alter k .take with data := .filling k len 0 }

def step : Event → Option Conn
  | .begin id want room => some (s.begin id want room)
  | .wait k =>
    match s.calls[k]? with
    | some c =>
        if c.place = .begun ∧
          0 < c.replied then some (s.alter k fun c => { c with replied := c.replied - 1 }) else none
    | none => none
  | .waitData k =>
    match s.calls[k]? with
    | some c =>
        if c.place = .begun ∧
          0 < c.landed then some (s.alter k fun c => { c with landed := c.landed - 1 }) else none
    | none => none
  | .leave k =>
    match s.calls[k]? with
    | some c => if c.place = .begun then some (s.alter k .leave) else none
    | none => none
  | .left k =>
    match s.calls[k]? with
    | some c => if c.place = .ending ∧ 0 < c.released then some (s.alter k .left) else none
    | none => none
  | .kill why => some (s.kill why)
  | .control type payload =>
    if s.reader = .running then
      match s.deliver type payload with
      | .ok s' => some s'
      | .error why => some { s with reader := .failing why }
    else none
  | .controlFails why =>
      if s.reader = .running then some { s with reader := .failing why } else none
  | .readerEnds =>
    match s.reader with
    | .failing why => some ({ s with reader := .gone }.kill why)
    | _ => none
  | .frame key len => if s.data = .idle then some (s.takeFrame key len) else none
  | .bytes n =>
    match s.data with
    | .filling k len got =>
      if 0 < n ∧ got + n ≤
        len then some { s.alter k (.fill n) with data := .filling k len (got + n) } else none
    | _ => none
  | .landed =>
    match s.data with
    | .filling k len got =>
        if got = len then some { s.alter k (.land len 0) with data := .idle } else none
    | _ => none
  | .dataFails why =>
    match s.data with
    | .filling k len _ =>
        if why ≠ 0 then some { s.alter k (.land len why) with data := .failing why } else none
    | .idle => some { s with data := .failing why }
    | _ => none
  | .dataEnds =>
    match s.data with
    | .failing why => some ({ s with data := .gone }.kill why)
    | _ => none

end Conn

/-- A data frame does not come for a call that has had one. -/
def Event.once (s : Conn) : Event → Prop
  | .frame key _ => ∀ k c, s.callFor key = some k → s.calls[k]? = some c → c.released = 0
  | _ => True

/-! ## What one step does to a call -/

/-- Everything that can happen to a call in one step.  Only the data reader is in a buffer, and
leaves it. -/
inductive Call.Moves (e : Event) : Call → Call → Prop where
  | same (c : Call) : Moves e c c
  | fail (c : Call) (why : ℤ) : c.linked = true → Moves e c (c.fail why)
  | answer (c : Call) (payload : Bytes) : c.linked = true → c.answered = false →
      8 ≤ payload.length →
      c.id = UInt64.ofNat (ofLE (payload.take 8)) → Moves e c (c.answer c.want payload)
  | wait (c : Call) : Moves e c { c with replied := c.replied - 1 }
  | waitData (c : Call) : Moves e c { c with landed := c.landed - 1 }
  | take (c : Call) : c.linked = true → Moves e c c.take
  | fill (c : Call) (n : ℕ) : e = .bytes n → Moves e c (c.fill n)
  | land (c : Call) (len : ℕ) (err : ℤ) : e = .landed ∨ e = .dataFails err →
      Moves e c (c.land len err)
  | leave (c : Call) : c.place = .begun → Moves e c c.leave
  | left (c : Call) : c.place = .ending → 0 < c.released → Moves e c c.left

/-- The calls after a step are those before it, each as it was or moved, and new ones behind
them. -/
structure Moved (e : Event) (before after : List Call) : Prop where
  old : ∀ (k : ℕ) (c : Call), before[k]? = some c → ∃ c', after[k]? = some c' ∧ c.Moves e c'
  new : ∀ (k : ℕ) (c' : Call), after[k]? = some c' →
    (∃ c : Call, before[k]? = some c ∧ c.Moves e c') ∨
    ∃ id want room, c' = { id, want, room }

theorem Moved.refl (e : Event) (calls : List Call) : Moved e calls calls where
  old _ c hc := ⟨c, hc, .same c⟩
  new _ c hc := .inl ⟨c, hc, .same c⟩

variable {c c' : Call} {k : ℕ} {e : Event} {p : Call → Prop} {payload : Bytes} {type : UInt16}

/-- What new calls have and every move keeps, all calls have. -/
theorem Moved.all {before after : List Call} (h : Moved e before after)
    (hmove : ∀ {c c'}, p c → c.Moves e c' → p c') (hnew : ∀ id want room, p { id, want, room })
    (hp : ∀ (k : ℕ) (c : Call), before[k]? = some c → p c) :
    ∀ (k : ℕ) (c : Call), after[k]? = some c → p c := by
  intro k c' hc'
  rcases h.new k c' hc' with ⟨c, hc, hm⟩ | ⟨id, want, room, rfl⟩
  · exact hmove (hp k c hc) hm
  · exact hnew id want room

namespace Conn

variable {s t : Conn} {e : Event}

theorem getElem?_alter (s : Conn) (k j : ℕ) (f : Call → Call) :
    (s.alter k f).calls[j]? = s.calls[j]?.map fun c => if k = j then f c else c := by
  rw [alter, getElem?_modify]
  rfl

variable {f : Call → Call}

/-- One call moves and the others stay. -/
theorem moved_alter (h : ∀ c, s.calls[k]? = some c → c.Moves e (f c)) :
    Moved e s.calls (s.alter k f).calls := by
  have hmove : ∀ (j : ℕ) (c : Call), s.calls[j]? = some c →
      c.Moves e (if k = j then f c else c) := by
    intro j c hc
    split_ifs with hk
    · subst hk
      exact h c hc
    · exact .same c
  constructor
  · intro j c hc
    exact ⟨_, by rw [getElem?_alter, hc]; rfl, hmove j c hc⟩
  · intro j c' hc'
    rw [getElem?_alter] at hc'
    obtain ⟨c, hc, rfl⟩ := map_eq_some_iff.mp hc'
    exact .inl ⟨c, hc, hmove j c hc⟩

theorem calls_kill (s : Conn) (why : ℤ) :
    (s.kill why).calls = s.calls ∨ (s.kill why).calls = s.calls.map fun c =>
    if c.linked then c.fail why else c := by
  rw [kill]
  cases s.dead with
  | true => exact .inl rfl
  | false => exact .inr rfl

theorem moved_kill (s : Conn) (why : ℤ) : Moved e s.calls (s.kill why).calls := by
  have hmove : ∀ c : Call, c.Moves e (if c.linked then c.fail why else c) := by
    intro c
    cases hl : c.linked with
    | true => exact .fail c why hl
    | false => exact .same c
  rcases calls_kill s why with h | h
  · rw [h]
    exact .refl _ _
  · constructor
    · intro k c hc
      exact ⟨_, by rw [h, getElem?_map, hc]; rfl, hmove c⟩
    · intro k c' hc'
      rw [h, getElem?_map] at hc'
      obtain ⟨c, hc, rfl⟩ := map_eq_some_iff.mp hc'
      exact .inl ⟨c, hc, hmove c⟩

theorem moved_begin (s : Conn) (id : UInt64) (want : UInt16) (room : Option ℕ) :
    Moved e s.calls (s.begin id want room).calls := by
  rw [begin]
  cases s.dead with
  | true => exact .refl _ _
  | false =>
    constructor
    · exact fun k c hc => ⟨c, Modify.getElem?_concat hc _, .same c⟩
    · intro k c' hc'
      rcases Modify.of_getElem?_concat hc' with hold | ⟨-, hnew⟩
      · exact .inl ⟨c', hold, .same c'⟩
      · exact .inr ⟨id, want, room, hnew⟩

/-- `railfs_call_for` finds a call that is on the list and has the id. -/
theorem callFor_eq_some {id : UInt64} (h : s.callFor id = some k) (hc : s.calls[k]? = some c) :
    c.linked = true ∧ c.id = id := by
  obtain ⟨hk, hp, -⟩ := findIdx?_eq_some_iff_getElem.mp h
  rw [getElem?_eq_getElem hk] at hc
  cases hc
  rw [Bool.and_eq_true, beq_iff_eq] at hp
  exact hp

theorem moved_deliver (h : s.deliver type payload = .ok t) : Moved e s.calls t.calls := by
  rw [deliver] at h
  split_ifs at h with hshort
  cases hk : s.callFor (UInt64.ofNat (ofLE (payload.take 8))) with
  | none =>
    rw [hk] at h
    cases h
    exact .refl _ _
  | some k =>
    rw [hk] at h
    dsimp only at h
    cases hc : s.calls[k]? with
    | none =>
      rw [hc] at h
      cases h
      exact .refl _ _
    | some c =>
      obtain ⟨hl, hid⟩ := callFor_eq_some hk hc
      rw [hc] at h
      dsimp only at h
      by_cases hwant : c.want ≠ type
      · rw [if_pos hwant] at h
        cases h
      rw [if_neg hwant] at h
      cases ha : c.answered with
      | true =>
        rw [ha] at h
        cases h
      | false =>
        rw [ha] at h
        cases h
        refine moved_alter fun c' hc' => ?_
        rw [hc] at hc'
        cases hc'
        rw [← not_not.mp hwant]
        exact .answer c payload hl ha (Nat.le_of_not_lt hshort) hid

/-- The ways a header goes: the frame is nobody's, or refused, or the reader is in the buffer of a
call. -/
theorem takeFrame_cases (s : Conn) (key : UInt64) (len : ℕ) :
    s.takeFrame key len = s ∨ s.takeFrame key len = { s with data := .failing eMsgSize } ∨
      ∃ k c, s.callFor key = some k ∧ s.calls[k]? = some c ∧
        s.takeFrame key len = { s.alter k .take with data := .filling k len 0 } := by
  rw [takeFrame]
  split_ifs with hbig
  · exact .inr (.inl rfl)
  cases hk : s.callFor key with
  | none => exact .inl rfl
  | some k =>
    dsimp only
    cases hc : s.calls[k]? with
    | none => exact .inl rfl
    | some c =>
      dsimp only
      cases c.room with
      | none => exact .inl rfl
      | some room =>
        dsimp only
        split_ifs with hlong
        · exact .inr (.inl rfl)
        · exact .inr (.inr ⟨k, c, rfl, hc, rfl⟩)

theorem step_control (h : s.step (.control type payload) = some t) :
    s.deliver type payload = .ok t ∨ ∃ why, t = { s with reader := .failing why } := by
  rw [step] at h
  split_ifs at h with hup
  cases hd : s.deliver type payload with
  | ok s' =>
    rw [hd] at h
    cases h
    exact .inl rfl
  | error why =>
    rw [hd] at h
    cases h
    exact .inr ⟨why, rfl⟩

theorem step_controlFails {why : ℤ} (h : s.step (.controlFails why) = some t) :
    t = { s with reader := .failing why } := by
  rw [step] at h
  split_ifs at h with hup
  cases h
  rfl

theorem step_readerEnds (h : s.step .readerEnds = some t) :
    ∃ why, t = { s with reader := .gone }.kill why := by
  rw [step] at h
  cases hr : s.reader with
  | failing why =>
    rw [hr] at h
    cases h
    exact ⟨why, rfl⟩
  | running | gone =>
    rw [hr] at h
    cases h

theorem step_frame {key : UInt64} {len : ℕ} (h : s.step (.frame key len) = some t) :
    t = s.takeFrame key len := by
  rw [step] at h
  split_ifs at h with hidle
  cases h
  rfl

theorem step_bytes {n : ℕ} (h : s.step (.bytes n) = some t) :
    ∃ k len got, s.data = .filling k len got ∧
    t = { s.alter k (.fill n) with data := .filling k len (got + n) } := by
  rw [step] at h
  rcases hdata : s.data with _ | ⟨k, len, got⟩ | _ | _
  · rw [hdata] at h
    cases h
  · rw [hdata] at h
    dsimp only at h
    split_ifs at h with hn
    cases h
    exact ⟨k, len, got, rfl, rfl⟩
  all_goals
    rw [hdata] at h
    cases h

theorem step_landed (h : s.step .landed = some t) :
    ∃ k len, t = { s.alter k (.land len 0) with data := .idle } := by
  rw [step] at h
  rcases hdata : s.data with _ | ⟨k, len, got⟩ | _ | _
  · rw [hdata] at h
    cases h
  · rw [hdata] at h
    dsimp only at h
    split_ifs at h with hgot
    cases h
    exact ⟨k, len, rfl⟩
  all_goals
    rw [hdata] at h
    cases h

theorem step_dataFails {why : ℤ} (h : s.step (.dataFails why) = some t) :
    t = { s with data := .failing why } ∨ ∃ k len,
    t = { s.alter k (.land len why) with data := .failing why } := by
  rw [step] at h
  rcases hdata : s.data with _ | ⟨k, len, got⟩ | _ | _
  · rw [hdata] at h
    cases h
    exact .inl rfl
  · rw [hdata] at h
    dsimp only at h
    split_ifs at h with hwhy
    cases h
    exact .inr ⟨k, len, rfl⟩
  all_goals
    rw [hdata] at h
    cases h

theorem step_dataEnds (h : s.step .dataEnds = some t) :
    ∃ why, t = { s with data := .gone }.kill why := by
  rw [step] at h
  rcases hdata : s.data with _ | _ | why | _
  · rw [hdata] at h
    cases h
  · rw [hdata] at h
    cases h
  · rw [hdata] at h
    cases h
    exact ⟨why, rfl⟩
  · rw [hdata] at h
    cases h

/-- A step that looks at one call and goes on if the call is ready for it. -/
theorem of_ready [DecidablePred p]
    (h : (match s.calls[k]? with
      | some c => if p c then some (s.alter k f) else none
      | none => none) = some t) :
    ∃ c, s.calls[k]? = some c ∧ p c ∧ t = s.alter k f := by
  cases hc : s.calls[k]? with
  | none =>
    rw [hc] at h
    cases h
  | some c =>
    rw [hc] at h
    dsimp only at h
    split_ifs at h with hp
    cases h
    exact ⟨c, rfl, hp, rfl⟩

/-- Such a step moves the call it looked at. -/
theorem moved_of_ready (hf : ∀ c : Call, p c → c.Moves e (f c))
    (h : ∃ c, s.calls[k]? = some c ∧ p c ∧ t = s.alter k f) : Moved e s.calls t.calls := by
  obtain ⟨c, hc, hp, rfl⟩ := h
  refine moved_alter fun c' hc' => ?_
  rw [hc] at hc'
  cases hc'
  exact hf c hp

theorem step_moved (h : s.step e = some t) : Moved e s.calls t.calls := by
  cases e with
  | begin id want room =>
    cases h
    exact moved_begin s id want room
  | wait k => exact moved_of_ready (fun c _ => .wait c) (of_ready h)
  | waitData k => exact moved_of_ready (fun c _ => .waitData c) (of_ready h)
  | leave k => exact moved_of_ready (fun c hp => .leave c hp) (of_ready h)
  | left k => exact moved_of_ready (fun c hp => .left c hp.1 hp.2) (of_ready h)
  | kill why =>
    cases h
    exact moved_kill s why
  | control type payload =>
    rcases step_control h with hd | ⟨why, rfl⟩
    · exact moved_deliver hd
    · exact .refl _ _
  | controlFails why =>
    obtain rfl := step_controlFails h
    exact .refl _ _
  | readerEnds =>
    obtain ⟨why, rfl⟩ := step_readerEnds h
    exact moved_kill { s with reader := .gone } why
  | frame key len =>
    obtain rfl := step_frame h
    rcases takeFrame_cases s key len with h | h | ⟨k, c, hk, hc, h⟩
    · rw [h]
      exact .refl _ _
    · rw [h]
      exact .refl _ _
    · rw [h]
      refine moved_alter (f := .take) fun c' hc' => .take c' ?_
      exact (callFor_eq_some hk hc').1
  | bytes n =>
    obtain ⟨k, len, got, -, rfl⟩ := step_bytes h
    exact moved_alter fun c _ => .fill c n rfl
  | landed =>
    obtain ⟨k, len, rfl⟩ := step_landed h
    exact moved_alter fun c _ => .land c len 0 (.inl rfl)
  | dataFails why =>
    rcases step_dataFails h with rfl | ⟨k, len, rfl⟩
    · exact .refl _ _
    · exact moved_alter fun c _ => .land c len why (.inr rfl)
  | dataEnds =>
    obtain ⟨why, rfl⟩ := step_dataEnds h
    exact moved_kill { s with data := .gone } why

end Conn

/-! ## Replies -/

/-- The payload of a call came under its id and as the type it wants, and an answer is no error. -/
structure Call.Own (c : Call) : Prop where
  payload : ∀ type payload, c.payload = some (type, payload) →
    type = c.want ∧ 8 ≤ payload.length ∧ c.id = UInt64.ofNat (ofLE (payload.take 8))
  err : c.answered = true → c.err = 0

theorem Call.Own.moves (h : c.Own) (hm : c.Moves e c') : c'.Own := by
  cases hm with
  | same | wait | waitData | take | land => exact ⟨h.payload, h.err⟩
  | fail why =>
    refine ⟨h.payload, fun ha => ?_⟩
    have ha : c.answered = true := ha
    show (if c.answered then c.err else why) = 0
    rw [if_pos ha]
    exact h.err ha
  | answer payload _ _ hlen hid =>
    refine ⟨fun type payload' hp => ?_, fun _ => rfl⟩
    cases hp
    exact ⟨rfl, hlen, hid⟩
  | fill n =>
    rw [Call.fill]
    split <;> exact ⟨h.payload, h.err⟩
  | leave =>
    refine ⟨fun type payload hp => ?_, h.err⟩
    rw [Call.leave] at hp
    cases hb : c.busy with
    | true =>
      rw [hb] at hp
      exact h.payload type payload hp
    | false =>
      rw [hb] at hp
      cases hp
  | left => exact ⟨nofun, h.err⟩

/-- An answer that is there stays, until the caller is gone. -/
structure Call.Keeps (c c' : Call) : Prop where
  answer : c.answered = true → c'.place = .ended ∨ c'.answered = true ∧ c'.payload = c.payload ∧
    c'.err = c.err
  gone : c.place = .ended → c'.place = .ended

theorem Call.Keeps.trans {a b : Call} (h : a.Keeps b) (h' : b.Keeps c) : a.Keeps c where
  answer ha := by
    rcases h.answer ha with hb | ⟨hb, hpayload, herr⟩
    · exact .inl (h'.gone hb)
    · rcases h'.answer hb with hc | ⟨hc, hpayload', herr'⟩
      · exact .inl hc
      · exact .inr ⟨hc, hpayload'.trans hpayload, herr'.trans herr⟩
  gone ha := h'.gone (h.gone ha)

theorem Call.Moves.keeps (hm : c.Moves e c') : c.Keeps c' := by
  cases hm with
  | same | wait | waitData | take | land => exact ⟨fun h => .inr ⟨h, rfl, rfl⟩, fun h => h⟩
  | fail why =>
    refine ⟨fun h => .inr ⟨h, rfl, ?_⟩, fun h => h⟩
    rw [Call.fail, h]
    rfl
  | answer payload _ hnot =>
    refine ⟨fun h => ?_, fun h => h⟩
    rw [hnot] at h
    cases h
  | fill n =>
    rw [Call.fill]
    split <;> exact ⟨fun h => .inr ⟨h, rfl, rfl⟩, fun h => h⟩
  | leave hbegun =>
    cases hb : c.busy with
    | true =>
      refine ⟨fun h => .inr ⟨h, ?_, rfl⟩, fun h => ?_⟩
      · rw [Call.leave, hb]
        rfl
      · rw [hbegun] at h
        cases h
    | false =>
      have hended : c.leave.place = .ended := by
        rw [Call.leave, hb]
        rfl
      exact ⟨fun _ => .inl hended, fun _ => hended⟩
  | left => exact ⟨fun _ => .inl rfl, fun _ => rfl⟩

theorem keeps_run {es : List Event} {s t : Conn} (h : Runs.exec Conn.step s es = some t)
    (hc : s.calls[k]? = some c) : ∃ c', t.calls[k]? = some c' ∧ c.Keeps c' := by
  induction es generalizing s c with
  | nil =>
    cases h
    exact ⟨c, hc, ⟨fun h => .inr ⟨h, rfl, rfl⟩, fun h => h⟩⟩
  | cons e es ih =>
    obtain ⟨u, hu, hrest⟩ := Runs.exec_cons_eq_some h
    obtain ⟨c₁, hc₁, hm⟩ := (Conn.step_moved hu).old k c hc
    obtain ⟨c₂, hc₂, hk⟩ := ih hrest hc₁
    exact ⟨c₂, hc₂, hm.keeps.trans hk⟩

/-! ## Buffers -/

/-- The data reader is in the buffer, and the caller cannot leave before it is out. -/
structure Call.Open (c : Call) : Prop where
  busy : c.busy = true
  unreleased : c.released = 0
  here : c.place ≠ .ended

theorem Call.Open.moves (h : c.Open) (hm : c.Moves e c') (hlanded : e ≠ .landed)
    (hfails : ∀ why, e ≠ .dataFails why) : c'.Open := by
  cases hm with
  | same | fail | answer | wait | waitData => exact { h with }
  | take => exact ⟨rfl, h.unreleased, h.here⟩
  | fill n =>
    rw [Call.fill, if_neg h.here]
    exact h
  | land len err he =>
    rcases he with he | he
    · exact absurd he hlanded
    · exact absurd he (hfails err)
  | leave =>
    refine ⟨h.busy, h.unreleased, ?_⟩
    rw [Call.leave, h.busy]
    exact Place.noConfusion
  | left _ hpos =>
    have := h.unreleased
    omega

/-- A call is on the list as long as its caller has not begun to leave. -/
def Call.OnList (c : Call) : Prop := c.linked = true → c.place = .begun

theorem Call.OnList.moves (h : c.OnList) (hm : c.Moves e c') : c'.OnList := by
  cases hm with
  | same | fail | answer | wait | waitData | take | land => exact h
  | fill n =>
    rw [Call.fill]
    split <;> exact h
  | leave =>
    intro hl
    cases hl
  | left hending =>
    intro hl
    have hbegun := h hl
    rw [hending] at hbegun
    cases hbegun

/-- While no frame comes twice: the reader is only in buffers whose callers wait for it, and no byte
has come late. -/
structure Sound (s : Conn) : Prop where
  onList : ∀ (k : ℕ) (c : Call), s.calls[k]? = some c → c.OnList
  filling : ∀ k len got, s.data = .filling k len got → ∃ c, s.calls[k]? = some c ∧ c.Open
  late : ∀ (k : ℕ) (c : Call), s.calls[k]? = some c → c.late = 0

namespace Sound

open Calls.Conn

variable {s t : Conn} {e : Event}

theorem data_kill (s : Conn) (why : ℤ) : (s.kill why).data = s.data := by
  rw [kill]
  split <;> rfl

theorem data_begin (s : Conn) (id : UInt64) (want : UInt16) (room : Option ℕ) :
    (s.begin id want room).data = s.data := by
  rw [begin]
  split <;> rfl

theorem data_deliver (h : s.deliver type payload = .ok t) : t.data = s.data := by
  rw [Conn.deliver] at h
  split_ifs at h
  split at h
  · cases h
    rfl
  · split at h
    · cases h
      rfl
    · split_ifs at h
      cases h
      rfl

/-- A step in which no byte comes, with what is to be said of the buffer the data reader is in after
it. -/
theorem of_moved (hs : Sound s) (hm : Moved e s.calls t.calls) (hbytes : ∀ n, e ≠ .bytes n)
    (hfilling : ∀ k len got, t.data = .filling k len got → ∃ c, t.calls[k]? = some c ∧ c.Open) :
    Sound t where
  onList := hm.all (fun h hm => h.moves hm) (fun _ _ _ _ => rfl) hs.onList
  filling := hfilling
  late := by
    refine hm.all (fun {c c'} h hmove => ?_) (fun _ _ _ => rfl) hs.late
    cases hmove with
    | fill n he => exact absurd he (hbytes n)
    | same | fail | answer | wait | waitData | take | land | leave | left => exact h

/-- A step of somebody else: the data reader stays where it is, and so does what it is in. -/
theorem of_other (hs : Sound s) (hm : Moved e s.calls t.calls) (hdata : t.data = s.data)
    (hbytes : ∀ n, e ≠ .bytes n) (hlanded : e ≠ .landed) (hfails : ∀ why, e ≠ .dataFails why) :
    Sound t := by
  refine hs.of_moved hm hbytes fun k len got hf => ?_
  rw [hdata] at hf
  obtain ⟨c, hc, hopen⟩ := hs.filling k len got hf
  obtain ⟨c', hc', hmove⟩ := hm.old k c hc
  exact ⟨c', hc', hopen.moves hmove hlanded hfails⟩

/-- Bytes that come into an open buffer are not late. -/
theorem alter_fill {len got : ℕ} (hs : Sound s) (hdata : s.data = .filling k len got) (n : ℕ) :
    (s.alter k (.fill n)).calls = s.calls := by
  obtain ⟨c, hc, hopen⟩ := hs.filling k len got hdata
  apply ext_getElem?
  intro j
  rw [getElem?_alter]
  by_cases hj : k = j
  · subst hj
    rw [hc, map_some, if_pos rfl, Call.fill, if_neg hopen.here]
  · simp only [if_neg hj, Option.map_id']

theorem step (hs : Sound s) (hok : e.once s) (h : s.step e = some t) : Sound t := by
  have hm := step_moved h
  cases e with
  | begin id want room =>
    cases h
    exact hs.of_other hm (data_begin s id want room) nofun nofun nofun
  | wait k | waitData k | leave k | left k =>
    obtain ⟨c, -, -, rfl⟩ := of_ready h
    exact hs.of_other hm rfl nofun nofun nofun
  | kill why =>
    cases h
    exact hs.of_other hm (data_kill s why) nofun nofun nofun
  | control type payload =>
    refine hs.of_other hm ?_ nofun nofun nofun
    rcases step_control h with hd | ⟨why, rfl⟩
    · exact data_deliver hd
    · rfl
  | controlFails why =>
    obtain rfl := step_controlFails h
    exact hs.of_other hm rfl nofun nofun nofun
  | readerEnds =>
    obtain ⟨why, rfl⟩ := step_readerEnds h
    exact hs.of_other hm (data_kill _ why) nofun nofun nofun
  | frame key len =>
    obtain rfl := step_frame h
    rcases takeFrame_cases s key len with htake | htake | ⟨k, c, hk, hc, htake⟩
    · exact hs.of_other hm (by rw [htake]) nofun nofun nofun
    · refine hs.of_moved hm nofun fun k len got hf => ?_
      rw [htake] at hf
      cases hf
    · -- the call is on the list and has had no frame, so its caller will wait for this one
      refine hs.of_moved hm nofun fun k' len' got hf => ?_
      rw [htake] at hf ⊢
      cases hf
      refine ⟨c.take, ?_, rfl, hok k c hk hc, ?_⟩
      · show (s.alter k .take).calls[k]? = some c.take
        rw [getElem?_alter, hc, map_some, if_pos rfl]
      · show c.place ≠ .ended
        rw [hs.onList k c hc (callFor_eq_some hk hc).1]
        exact Place.noConfusion
  | bytes n =>
    obtain ⟨k, len, got, hdata, rfl⟩ := step_bytes h
    have hcalls := hs.alter_fill hdata n
    refine ⟨?_, ?_, ?_⟩
    · rw [hcalls]
      exact hs.onList
    · intro k' len' got' hf
      cases hf
      rw [hcalls]
      exact hs.filling k len got hdata
    · rw [hcalls]
      exact hs.late
  | landed =>
    obtain ⟨k, len, rfl⟩ := step_landed h
    exact hs.of_moved hm nofun nofun
  | dataFails why =>
    refine hs.of_moved hm nofun fun k len got hf => ?_
    rcases step_dataFails h with rfl | ⟨k, len, rfl⟩
    · cases hf
    · cases hf
  | dataEnds =>
    obtain ⟨why, rfl⟩ := step_dataEnds h
    refine hs.of_moved hm nofun fun k len got hf => ?_
    rw [data_kill] at hf
    cases hf

end Sound

/-! ## The call protocol -/

theorem own_run {es : List Event} {s : Conn} (h : Runs.exec Conn.step {} es = some s) :
    ∀ (k : ℕ) (c : Call), s.calls[k]? = some c → c.Own := by
  refine Runs.exec_invariant (I := fun s : Conn => ∀ (k : ℕ) (c : Call), s.calls[k]? = some c →
    c.Own) (fun hi _ hstep => ?_) (fun k c hc => ?_) (Runs.meets_true es {}) h
  · exact (Conn.step_moved hstep).all (fun h hm => h.moves hm) (fun _ _ _ => ⟨nofun, nofun⟩) hi
  · rw [getElem?_nil] at hc
    cases hc

theorem Sound.initial : Sound {} := by
  constructor
  · intro k c hc
    rw [getElem?_nil] at hc
    cases hc
  · intro k len got hd
    cases hd
  · intro k c hc
    rw [getElem?_nil] at hc
    cases hc

/-- **What a call can rely on.** In every run of a connection, with whatever frames the peer sends:
a payload that a call has came under its own id and as the type it wants; and an answer, once there,
is no error and is not changed by anything that follows, a kill included, until the caller is gone.
In every run in which no data frame comes for a call that has had one, no byte reaches the buffer of
a call after `railfs_call_end` has returned. -/
theorem calls_protected (es : List Event) (s : Conn) (h : Runs.exec Conn.step {} es = some s) :
    (∀ (k : ℕ) (c : Call), s.calls[k]? = some c → ∀ type payload, c.payload = some (type, payload) →
      type = c.want ∧ 8 ≤ payload.length ∧ c.id = UInt64.ofNat (ofLE (payload.take 8))) ∧
    (∀ (k : ℕ) (c : Call), s.calls[k]? = some c → c.answered = true →
      ∀ (later : List Event) (t : Conn), Runs.exec Conn.step s later = some t →
        ∃ c', t.calls[k]? = some c' ∧
        (c'.place = .ended ∨ c'.answered = true ∧ c'.payload = c.payload ∧ c'.err = 0)) ∧
    (Runs.Meets Conn.step (fun s e => e.once s) {} es → ∀ (k : ℕ) (c : Call), s.calls[k]? = some c →
      c.late = 0) := by
  have hown := own_run h
  refine ⟨fun k c hc => (hown k c hc).payload, ?_, ?_⟩
  · intro k c hc hans later t ht
    obtain ⟨c', hc', hkeeps⟩ := keeps_run ht hc
    refine ⟨c', hc', ?_⟩
    rw [← (hown k c hc).err hans]
    exact hkeeps.answer hans
  · intro hmeets
    have hs : Sound s :=
      Runs.exec_invariant (fun hi hok hstep => hi.step hok hstep) .initial hmeets h
    exact hs.late

instance (s : Conn) (e : Event) : Decidable (e.once s) :=
  match e with
  | .frame key _ =>
    decidable_of_iff (∀ k ∈ s.callFor key, ∀ c ∈ s.calls[k]?, c.released = 0) <| by
      constructor
      · exact fun h k c hk hc => h k hk c hc
      · exact fun h k hk c hc => h k c hk hc
  | .begin _ _ _ | .wait _ | .waitData _ | .leave _ | .left _ | .kill _ | .control _ _
  | .controlFails _ | .readerEnds | .bytes _ | .landed | .dataFails _ | .dataEnds => isTrue trivial

/-- A read: its frame is on the way when the connection is killed, and the caller leaves only when
it is through. -/
def killedRead : List Event :=
  [.begin 1 18 (some 8), .control 18 [1, 0, 0, 0, 0, 0, 0, 0], .frame 1 4, .bytes 3, .kill (-110),
    .leave 0, .dataFails (-107), .left 0]

theorem calls_protected_killedRead :
    ∃ s, Runs.exec Conn.step {} killedRead = some s ∧ (∀ c ∈ s.calls, c.place = .ended) ∧
      ∀ (k : ℕ) (c : Call), s.calls[k]? = some c → c.late = 0 := by
  have h := calls_protected killedRead _ rfl
  exact ⟨_, rfl, by decide, h.2.2 (by decide)⟩

/-- A second frame for a call that has had one: the caller leaves on the completion of the first,
and the reader goes on in its buffer. -/
theorem second_frame_outlives_call :
    ∃ s c, Runs.exec Conn.step {} [.begin 1 18 (some 8), .control 18 [1, 0, 0, 0, 0, 0, 0, 0],
      .frame 1 4, .bytes 4, .landed, .wait 0, .waitData 0, .frame 1 4, .leave 0, .left 0,
      .bytes 4] = some s ∧ s.calls[0]? = some c ∧ c.place = .ended ∧ c.late = 4 :=
  ⟨_, _, rfl, rfl, rfl, rfl⟩

end Rail.Kernel.Calls
