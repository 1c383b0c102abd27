import Rail.Foundation.Runs
import Mathlib.Order.Lattice

/-!
# Operations over the connection pool of the kernel mount

`src/linux/railfs-tcp.c`: `railfs_pool_apply`, with `railfs_pool_take_near`, `railfs_pool_revive`,
`railfs_conn_kill` and the `exchange` that every metadata operation is made of.

An operation that must not be made twice may be sent a second time only where the first request
never left.  The code infers that from the error the attempt returned: `ENOTCONN` is what
`railfs_call_begin` and `railfs_send` return on a connection that is dead already, before anything
is on the wire.  But `railfs_conn_kill` puts its reason on every call that is outstanding, and
`ENOTCONN` is also a reason: `railfs_pool_revive` gives it when it finds the socket closed, and a
reader that ends without an error of its own gives it too.  A call that was sent and is waiting then
returns `ENOTCONN`, its connection is dead, and the operation is sent again.

So the step that matters is a kill with `ENOTCONN`, and the condition (`spares`) is on the calls it
finds: none is unanswered and past the check under the send lock.  The invariant `TaskOk` says what
the error of an attempt then means.

`exposed` counts the attempts of an operation whose whole request went to the wire; `send_all` fails
only where a part of the frame was not taken, and a part of a frame is no request.
-/

namespace Rail.Kernel

open List Option

/-- An errno without its sign; zero is success. -/
abbrev Errno := ℕ

def notConn : Errno := 107

def timedOut : Errno := 110

def restartSys : Errno := 512

def wireAttempts : ℕ := 2

/-- A session.  `closed` is a socket that is no longer established. -/
structure Conn where
  dead : Bool := false
  closed : Bool := false
  deriving DecidableEq

/-- A `railfs_call` on the list of its connection.  The completion `replied` is `err` being
there. -/
structure Call where
  err : Option Errno := none
  answered : Bool := false
  deriving DecidableEq

/-- A call already answered keeps its answer. -/
def Call.fail (call : Call) (why : Errno) : Call :=
  if call.answered then call else { call with err := some why }

/-- Where an attempt is. -/
inductive Phase where
  | taking
  | taken (c : ℕ)
  /-- After `railfs_call_begin`. -/
  | begun (c : ℕ) (call : Call)
  /-- `railfs_send`, which found the connection alive under the send lock. -/
  | cleared (c : ℕ) (call : Call)
  /-- `railfs_call_wait`. -/
  | sent (c : ℕ) (call : Call)
  /-- The operation has returned. -/
  | left (c : ℕ) (err : Errno)
  | done (err : Errno)
  deriving DecidableEq

/-- A `railfs_pool_run` with `railfs_never_sent`. -/
structure Task where
  attempt : ℕ := 0
  first : Errno := 0
  phase : Phase := .taking
  exposed : ℕ := 0
  deriving DecidableEq

/-- Every connection there ever was, which of them the slots hold, and the callers. -/
structure Pool where
  conns : List Conn
  slots : List ℕ
  tasks : List Task := []
  deriving DecidableEq

namespace Pool

inductive Event where
  | issue
  | take (t step : ℕ)
  | start (t : ℕ)
  | clear (t : ℕ)
  /-- `send_all` returns; zero where the whole frame was taken. -/
  | transmit (t : ℕ) (err : Errno)
  /-- `railfs_deliver` hands a reply to the call. -/
  | reply (t : ℕ)
  /-- `railfs_call_wait` returns, and `code` is what an answer says. -/
  | leave (t : ℕ) (code : Errno)
  | timeout (t : ℕ)
  | signal (t : ℕ)
  /-- `railfs_pool_run` looks at what the attempt returned. -/
  | settle (t : ℕ)
  | close (c : ℕ)
  /-- A reader of the connection ends, with an error or without. -/
  | reader (c : ℕ) (err : Errno)
  /-- `railfs_pool_revive`, up to the kill, and from the new connection on. -/
  | revive (i : ℕ)
  | replace (i : ℕ)
  deriving DecidableEq

variable (p : Pool)

def dead (c : ℕ) : Bool := (p.conns[c]?).any Conn.dead

def alive (c : ℕ) : Bool := (p.conns[c]?).any fun k => !k.dead

def unusable (c : ℕ) : Bool := (p.conns[c]?).all fun k => k.dead || k.closed

def setTask (t : ℕ) (k : Task) : Pool := { p with tasks := p.tasks.set t k }

/-! ## `railfs_conn_kill` -/

/-- What a kill does to a call on the connection. -/
def mark (c : ℕ) (why : Errno) (k : Task) : Task :=
  { k with
    phase := match k.phase with
      | .begun d call => if d = c then .begun d (call.fail why) else .begun d call
      | .cleared d call => if d = c then .cleared d (call.fail why) else .cleared d call
      | .sent d call => if d = c then .sent d (call.fail why) else .sent d call
      | phase => phase }

/-- Once only; a second caller finds it done. -/
def kill (c : ℕ) (why : Errno) : Pool :=
  if p.alive c then
    { p with
      conns := p.conns.modify c fun k => { k with dead := true }
      tasks := p.tasks.map (mark c why) }
  else p

/-! ## The pool -/

/-- `railfs_pool_pick`: the slot asked for, unless it is unusable and another is not. -/
def pick (step : ℕ) : Option ℕ :=
  let n := p.slots.length
  let order := (List.range n).filterMap fun i => p.slots[(step + i) % n]?
  (order.find? fun c => !p.unusable c).or p.slots[step % n]?

def take (t step : ℕ) : Option Pool :=
  (p.tasks[t]?).bind fun k =>
    match k.phase with
    | .taking => (p.pick step).map fun c => p.setTask t { k with phase := .taken c }
    | _ => none

def revive (i : ℕ) : Option Pool :=
  (p.slots[i]?).bind fun c => if p.unusable c then some (p.kill c notConn) else none

def replace (i : ℕ) : Option Pool :=
  (p.slots[i]?).bind fun c =>
    if p.dead c then
      some { p with conns := p.conns ++ [{}], slots := p.slots.set i p.conns.length }
    else none

/-! ## `exchange` -/

def start (t : ℕ) : Option Pool :=
  (p.tasks[t]?).bind fun k =>
    match k.phase with
    | .taken c => some (p.setTask t
        { k with phase := if p.dead c then .left c notConn else .begun c {} })
    | _ => none

def clear (t : ℕ) : Option Pool :=
  (p.tasks[t]?).bind fun k =>
    match k.phase with
    | .begun c call => some (p.setTask t
        { k with phase := if p.dead c then .left c notConn else .cleared c call })
    | _ => none

def transmit (t : ℕ) (err : Errno) : Option Pool :=
  (p.tasks[t]?).bind fun k =>
    match k.phase with
    | .cleared c call =>
      if err = 0 then
        some (p.setTask t { k with phase := .sent c call, exposed := k.exposed + 1 })
      else some ((p.kill c err).setTask t { k with phase := .left c err })
    | _ => none

def reply (t : ℕ) : Option Pool :=
  (p.tasks[t]?).bind fun k =>
    match k.phase with
    | .sent c call =>
      if call.answered then none else some (p.setTask t { k with phase := .sent c ⟨some 0, true⟩ })
    | _ => none

def leave (t : ℕ) (code : Errno) : Option Pool :=
  (p.tasks[t]?).bind fun k =>
    match k.phase with
    | .sent c call => call.err.map fun err =>
      p.setTask t { k with phase := .left c (if err = 0 then code else err) }
    | _ => none

/-- A reply that is late kills the connection for everyone on it. -/
def timeout (t : ℕ) : Option Pool :=
  (p.tasks[t]?).bind fun k =>
    match k.phase with
    | .sent c call =>
      if call.err = none then some
        ((p.kill c timedOut).setTask t { k with phase := .left c timedOut })
      else none
    | _ => none

def signal (t : ℕ) : Option Pool :=
  (p.tasks[t]?).bind fun k =>
    match k.phase with
    | .sent c call =>
        if call.err = none then some (p.setTask t { k with phase := .left c restartSys }) else none
    | _ => none

/-! ## `railfs_pool_run` -/

/-- The loop's body after the operation has returned: done, or another attempt. -/
def settle (t : ℕ) : Option Pool :=
  (p.tasks[t]?).bind fun k =>
    match k.phase with
    | .left c err =>
      if err = 0 ∨ p.dead c = false ∨
        err ≠ notConn then some (p.setTask t { k with phase := .done err })
      else if k.attempt + 1 < wireAttempts then
        some (p.setTask t { k with
          phase := .taking
          attempt := k.attempt + 1
          first := if k.first = 0 then err else k.first })
      else some (p.setTask t { k with phase := .done (if k.first = 0 then err else k.first) })
    | _ => none

def step : Event → Option Pool
  | .issue => some { p with tasks := p.tasks ++ [{}] }
  | .take t step => p.take t step
  | .start t => p.start t
  | .clear t => p.clear t
  | .transmit t err => p.transmit t err
  | .reply t => p.reply t
  | .leave t code => p.leave t code
  | .timeout t => p.timeout t
  | .signal t => p.signal t
  | .settle t => p.settle t
  | .close c => some { p with conns := p.conns.modify c fun k => { k with closed := true } }
  | .reader c err => some (p.kill c (if err = 0 then notConn else err))
  | .revive i => p.revive i
  | .replace i => p.replace i

/-- `railfs_pool_open`, with `n` connections. -/
def opened (n : ℕ) : Pool := { conns := List.replicate n {}, slots := List.range n }

/-! ## What the error of an attempt means -/

variable {p} {p' : Pool} {k : Task} {c t i : ℕ} {why err : Errno} {call : Call} {ev : Event}

/-- The call is unanswered, and its request may be on the wire. -/
def onWire (k : Task) (c : ℕ) : Bool :=
  match k.phase with
  | .cleared d call | .sent d call => decide (d = c) && !call.answered
  | _ => false

/-- A kill with `ENOTCONN` would find no call whose request may be on the wire. -/
def quiet (p : Pool) (c : ℕ) (others : List Task) : Bool :=
  !p.alive c || others.all fun k => !onWire k c

/-- A connection is killed with `ENOTCONN` only where it is quiet, and no answer says `ENOTCONN`. -/
def spares (p : Pool) : Event → Bool
  | .reader c err => decide (err ≠ 0 ∧ err ≠ notConn) || p.quiet c p.tasks
  | .revive i => (p.slots[i]?).all fun c => p.quiet c p.tasks
  | .transmit t err =>
    decide (err ≠ notConn) || (p.tasks[t]?).all fun k =>
      match k.phase with
      | .cleared c _ => p.quiet c (p.tasks.eraseIdx t)
      | _ => true
  | .leave _ code => decide (code ≠ notConn)
  | _ => true

/-- What an attempt has exposed, by where it is. -/
def TaskOk (p : Pool) (k : Task) : Prop :=
  match k.phase with
  | .taking | .taken _ => k.exposed = 0
  | .begun c call => k.exposed = 0 ∧ (call.err.isSome = true → p.dead c = true)
  | .cleared _ call => k.exposed = 0 ∧ call.err ≠ some notConn
  | .sent _ call => k.exposed = 1 ∧ call.err ≠ some notConn
  | .left _ err => k.exposed = 0 ∨ k.exposed = 1 ∧ err ≠ notConn
  | .done _ => k.exposed ≤ 1

def Ok (p : Pool) : Prop := ∀ k ∈ p.tasks, p.TaskOk k

theorem TaskOk.exposed_le (h : p.TaskOk k) : k.exposed ≤ 1 := by
  rw [TaskOk] at h
  split at h <;> omega

/-- A connection that is dead stays dead. -/
theorem TaskOk.mono (h : p.TaskOk k) (hd : ∀ c, p.dead c = true → p'.dead c = true) :
    p'.TaskOk k := by
  obtain ⟨attempt, first, phase, exposed⟩ := k
  cases phase with
  | begun c call => exact ⟨h.1, fun hs => hd c (h.2 hs)⟩
  | _ => exact h

/-- One caller goes on. -/
theorem Ok.setTask (hp : p.Ok) (hk : p.TaskOk k) : (p.setTask t k).Ok := by
  intro j hj
  rcases mem_or_eq_of_mem_set hj with hold | rfl
  · exact hp j hold
  · exact hk

theorem dead_modify (f : Conn → Conn) (hf : ∀ k, k.dead = true → (f k).dead = true) (d : ℕ)
    (h : p.dead d = true) : ({ p with conns := p.conns.modify c f } : Pool).dead d = true := by
  obtain ⟨k, hk, hdead⟩ := (Option.any_eq_true _ _).mp h
  refine (Option.any_eq_true _ _).mpr ⟨if c = d then f k else k, ?_, ?_⟩
  · rw [getElem?_modify, hk]
    split <;> rfl
  · split
    · exact hf k hdead
    · exact hdead

/-- What a kill does where it does something. -/
theorem kill_cases (p : Pool) (c : ℕ) (why : Errno) : p.kill c why = p ∨
      (p.kill c why).tasks = p.tasks.map (mark c why) ∧ p.alive c = true ∧
        (p.kill c why).dead c = true ∧ ∀ d, p.dead d = true → (p.kill c why).dead d = true := by
  rw [kill]
  split
  next halive =>
    refine .inr ⟨rfl, halive, ?_, ?_⟩
    · obtain ⟨k, hk, -⟩ := (Option.any_eq_true _ _).mp halive
      refine (Option.any_eq_true _ _).mpr ⟨{ k with dead := true }, ?_, rfl⟩
      rw [getElem?_modify, hk]
      simp
    · exact dead_modify (c := c) (fun k => { k with dead := true }) fun _ _ => rfl
  · exact .inl rfl

theorem err_fail (h : call.err ≠ some notConn) (hwhy : why ≠ notConn ∨ call.answered = true) :
    (call.fail why).err ≠ some notConn := by
  rw [Call.fail]
  split
  · exact h
  next hno =>
    have hne := hwhy.resolve_right hno
    exact fun heq => hne (some.inj heq)

/-- A kill that finds nothing waiting, or gives another reason than `ENOTCONN`. -/
theorem TaskOk.mark (h : p.TaskOk k) (hd : ∀ d, p.dead d = true → p'.dead d = true)
    (hc : p'.dead c = true) (hwhy : why ≠ notConn ∨ onWire k c = false) :
    p'.TaskOk (Pool.mark c why k) := by
  obtain ⟨attempt, first, phase, exposed⟩ := k
  cases phase with
  | begun d call =>
    show p'.TaskOk ⟨attempt, first, if d = c then _ else _, exposed⟩
    split
    next he =>
      subst he
      exact ⟨h.1, fun _ => hc⟩
    · exact ⟨h.1, fun hs => hd d (h.2 hs)⟩
  | cleared d call | sent d call =>
    show p'.TaskOk ⟨attempt, first, if d = c then _ else _, exposed⟩
    split
    next he =>
      refine ⟨h.1, err_fail h.2 (hwhy.imp id fun hw => ?_)⟩
      simpa [onWire, he] using hw
    · exact h
  | taking | taken d | left d err | done err => exact h

/-- A call on a connection that is quiet, or that is killed for another reason. -/
theorem TaskOk.kill (h : p.TaskOk k) {others : List Task} (hk : k ∈ others)
    (hwhy : why ≠ notConn ∨ p.quiet c others = true)
    (hcases : p.alive c = true ∧ (p.kill c why).dead c = true ∧ ∀ d, p.dead d = true →
      (p.kill c why).dead d = true) : (p.kill c why).TaskOk (Pool.mark c why k) := by
  obtain ⟨halive, hself, hmono⟩ := hcases
  refine h.mark hmono hself (hwhy.imp id fun hq => ?_)
  rw [quiet, halive, Bool.not_true, Bool.false_or, List.all_eq_true] at hq
  have hwaits := hq k hk
  rwa [Bool.not_eq_true'] at hwaits

theorem Ok.kill (hp : p.Ok) (hwhy : why ≠ notConn ∨ p.quiet c p.tasks = true) :
    (p.kill c why).Ok := by
  rcases kill_cases p c why with heq | ⟨htasks, hcases⟩
  · rw [heq]
    exact hp
  · intro j hj
    rw [htasks] at hj
    obtain ⟨k, hk, rfl⟩ := List.mem_map.mp hj
    exact (hp k hk).kill hk hwhy hcases

/-! ## Every step -/

/-- The task a step is about, and where it is. -/
theorem phase_of_bind {f : Task → Option Pool} (h : (p.tasks[t]?).bind f = some p') (hp : p.Ok) :
    ∃ k, p.tasks[t]? = some k ∧ p.TaskOk k ∧ f k = some p' := by
  obtain ⟨k, hk, hf⟩ := bind_eq_some_iff.mp h
  exact ⟨k, hk, hp k (mem_of_getElem? hk), hf⟩

section

variable (hp : p.Ok)
include hp

theorem Ok.take {n : ℕ} (h : p.take t n = some p') : p'.Ok := by
  obtain ⟨⟨attempt, first, phase, exposed⟩, -, hok, h⟩ := phase_of_bind h hp
  cases phase with
  | taking =>
    obtain ⟨c, -, rfl⟩ := map_eq_some_iff.mp h
    exact hp.setTask hok
  | _ => cases h

theorem Ok.start (h : p.start t = some p') : p'.Ok := by
  obtain ⟨⟨attempt, first, phase, exposed⟩, -, hok, h⟩ := phase_of_bind h hp
  cases phase with
  | taken c =>
    cases h
    refine hp.setTask ?_
    dsimp only
    split
    · exact .inl hok
    · exact ⟨hok, nofun⟩
  | _ => cases h

/-- A call that a kill has marked does not get past the check, since its connection is dead. -/
theorem Ok.clear (h : p.clear t = some p') : p'.Ok := by
  obtain ⟨⟨attempt, first, phase, exposed⟩, -, hok, h⟩ := phase_of_bind h hp
  cases phase with
  | begun c call =>
    cases h
    refine hp.setTask ?_
    dsimp only
    split
    · exact .inl hok.1
    next halive => exact ⟨hok.1, fun heq => halive (hok.2 (by rw [heq]; rfl))⟩
  | _ => cases h

/-- One caller kills the connection and goes on; the others are among those that were quiet. -/
theorem Ok.kill_setTask (hk : ∀ q : Pool, q.TaskOk k)
    (hwhy : why ≠ notConn ∨ p.quiet c (p.tasks.eraseIdx t) = true) :
    ((p.kill c why).setTask t k).Ok := by
  rcases kill_cases p c why with heq | ⟨htasks, hcases⟩
  · rw [heq]
    exact .setTask hp (hk p)
  · intro j hj
    obtain ⟨i, hi⟩ := getElem?_of_mem hj
    have hset : (((p.kill c why).tasks).set t k)[i]? = some j := hi
    rw [htasks, getElem?_set] at hset
    split at hset
    · obtain ⟨-, hset⟩ := ite_none_right_eq_some.mp hset
      cases hset
      exact hk _
    next hne =>
      rw [getElem?_map] at hset
      obtain ⟨d, hd, rfl⟩ := map_eq_some_iff.mp hset
      have hmem : d ∈ p.tasks.eraseIdx t :=
        mem_eraseIdx_iff_getElem?.mpr ⟨i, fun h => hne h.symm, hd⟩
      exact (hp d (mem_of_getElem? hd)).kill hmem hwhy hcases

theorem Ok.transmit (hs : p.spares (.transmit t err) = true) (h : p.transmit t err = some p') :
    p'.Ok := by
  obtain ⟨⟨attempt, first, phase, exposed⟩, hk, hok, h⟩ := phase_of_bind h hp
  cases phase with
  | cleared c call =>
    obtain ⟨hzero, herr⟩ := hok
    dsimp only at h
    split at h
    · cases h
      exact hp.setTask ⟨congrArg (· + 1) hzero, herr⟩
    · cases h
      refine hp.kill_setTask (fun q => .inl hzero) ?_
      rw [spares, hk, all_some, Bool.or_eq_true, decide_eq_true_eq] at hs
      exact hs
  | _ => cases h

theorem Ok.reply (h : p.reply t = some p') : p'.Ok := by
  obtain ⟨⟨attempt, first, phase, exposed⟩, -, hok, h⟩ := phase_of_bind h hp
  cases phase with
  | sent c call =>
    obtain ⟨-, h⟩ := ite_none_left_eq_some.mp h
    cases h
    exact hp.setTask ⟨hok.1, by show some 0 ≠ some notConn; decide⟩
  | _ => cases h

theorem Ok.leave (hs : p.spares (.leave t err) = true) (h : p.leave t err = some p') : p'.Ok := by
  obtain ⟨⟨attempt, first, phase, exposed⟩, -, hok, h⟩ := phase_of_bind h hp
  cases phase with
  | sent c call =>
    obtain ⟨e, he, rfl⟩ := map_eq_some_iff.mp h
    refine hp.setTask (.inr ⟨hok.1, ?_⟩)
    split
    · exact of_decide_eq_true hs
    · exact fun heq => hok.2 (by rw [he, heq])
  | _ => cases h

theorem Ok.timeout (h : p.timeout t = some p') : p'.Ok := by
  obtain ⟨⟨attempt, first, phase, exposed⟩, -, hok, h⟩ := phase_of_bind h hp
  cases phase with
  | sent c call =>
    obtain ⟨-, h⟩ := ite_none_right_eq_some.mp h
    cases h
    exact hp.kill_setTask (fun q => .inr ⟨hok.1, by decide⟩) (.inl (by decide))
  | _ => cases h

theorem Ok.signal (h : p.signal t = some p') : p'.Ok := by
  obtain ⟨⟨attempt, first, phase, exposed⟩, -, hok, h⟩ := phase_of_bind h hp
  cases phase with
  | sent c call =>
    obtain ⟨-, h⟩ := ite_none_right_eq_some.mp h
    cases h
    exact hp.setTask (.inr ⟨hok.1, by decide⟩)
  | _ => cases h

/-- Only an attempt that exposed nothing is made again. -/
theorem Ok.settle (h : p.settle t = some p') : p'.Ok := by
  obtain ⟨⟨attempt, first, phase, exposed⟩, -, hok, h⟩ := phase_of_bind h hp
  have hle := hok.exposed_le
  cases phase with
  | left c err =>
    dsimp only at h
    split at h
    · cases h
      exact hp.setTask hle
    next hretry =>
      rw [not_or, not_or, not_not] at hretry
      split at h
      · cases h
        refine hp.setTask ?_
        rcases hok with hzero | ⟨-, hne⟩
        · exact hzero
        · exact absurd hretry.2.2 hne
      · cases h
        exact hp.setTask hle
  | _ => cases h

theorem Ok.step (hs : p.spares ev = true) (h : p.step ev = some p') : p'.Ok := by
  cases ev with
  | issue =>
    cases h
    exact forall_mem_append.mpr ⟨hp, forall_mem_singleton.mpr (rfl : (0 : ℕ) = 0)⟩
  | take t n => exact hp.take h
  | start t => exact hp.start h
  | clear t => exact hp.clear h
  | transmit t err => exact hp.transmit hs h
  | reply t => exact hp.reply h
  | leave t code => exact hp.leave hs h
  | timeout t => exact hp.timeout h
  | signal t => exact hp.signal h
  | settle t => exact hp.settle h
  | close c =>
    cases h
    exact fun k hk => (hp k hk).mono (dead_modify _ fun _ hd => hd)
  | reader c err =>
    cases h
    refine .kill hp ?_
    rw [spares, Bool.or_eq_true, decide_eq_true_eq] at hs
    refine hs.imp (fun hne => ?_) id
    rw [if_neg hne.1]
    exact hne.2
  | revive i =>
    obtain ⟨c, hc, h⟩ := bind_eq_some_iff.mp h
    obtain ⟨-, h⟩ := ite_none_right_eq_some.mp h
    cases h
    rw [spares, hc, all_some] at hs
    exact .kill hp (.inr hs)
  | replace i =>
    obtain ⟨c, hc, h⟩ := bind_eq_some_iff.mp h
    obtain ⟨-, h⟩ := ite_none_right_eq_some.mp h
    cases h
    refine fun k hk => (hp k hk).mono fun d hd => ?_
    obtain ⟨e, he, hdead⟩ := (Option.any_eq_true _ _).mp hd
    refine (Option.any_eq_true _ _).mpr ⟨e, ?_, hdead⟩
    rw [getElem?_append_left (List.getElem?_eq_some_iff.mp he).1]
    exact he

end

/-- **An operation is exposed at most once.**  In every interleaving of callers, replies, losses,
kills and revivals in which a kill with `ENOTCONN` finds no unanswered call whose request may be on
the wire, and no answer says `ENOTCONN`, the whole request of an operation goes to the wire at most
once. -/
theorem exposed_le_one (n : ℕ) (evs : List Event) (p : Pool)
    (hmeets : Runs.Meets step (fun p ev => p.spares ev = true) (opened n) evs)
    (hrun : Runs.exec step (opened n) evs = some p) : ∀ k ∈ p.tasks, k.exposed ≤ 1 := by
  have hinit : (opened n).Ok := nofun
  have hp : p.Ok := Runs.exec_invariant (fun hp hs ht => Ok.step hp hs ht) hinit hmeets hrun
  exact fun k hk => (hp k hk).exposed_le

/-- The connection dies before the request is sent, and the second attempt is answered. -/
theorem exposed_le_one_retried :
    ∃ p, Runs.exec step (opened 1)
        [.issue, .take 0 0, .start 0, .close 0, .revive 0, .clear 0, .settle 0, .replace 0,
          .take 0 0, .start 0, .clear 0, .transmit 0 0, .reply 0, .leave 0 0, .settle 0] = some p ∧
      (∀ k ∈ p.tasks, k.exposed ≤ 1) ∧ p.tasks = [⟨1, notConn, .done 0, 1⟩] :=
  Runs.exists_exec rfl fun hs => ⟨exposed_le_one _ _ _ (by decide) hs, rfl⟩

/-- **A revival makes an operation that was sent look unsent.**  A request is on the wire when the
socket closes; another caller revives the slot and kills the connection with `ENOTCONN`; the first
caller takes that for its own request not having left, and sends it again. -/
theorem revival_resends_sent_operation :
    ¬ ∀ (n : ℕ) (evs : List Event) (p : Pool), Runs.exec step (opened n) evs = some p →
        ∀ k ∈ p.tasks, k.exposed ≤ 1 := by
  intro hall
  have h := hall 1
    [.issue, .take 0 0, .start 0, .clear 0, .transmit 0 0, .close 0, .revive 0, .replace 0,
    .leave 0 0, .settle 0, .take 0 0, .start 0, .clear 0, .transmit 0 0] _ rfl
  exact absurd h (by decide)

end Pool
end Rail.Kernel
