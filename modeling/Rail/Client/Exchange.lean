import Rail.Proto.Message
import Rail.Foundation.Runs
import Mathlib.Data.List.Nodup
import Mathlib.Logic.Function.Basic

/-!
# Requests and their answers

`FileClient::Impl` of `src/file-client.cc`: any number of callers share one control channel, and one
reader (`pump`) hands each message to whoever waits for its id.

A caller takes an id, registers an exchange for every answer it expects (one, or two for a streamed
transfer) and only then sends.  The reader takes the first exchange registered under the id of a
message out of the table and leaves the message in it; a caller that is parked there is scheduled,
one that has not come yet finds it.  When the reader fails it marks everything in the table,
schedules everyone who is parked, and from then on nobody parks.

All of this is one invariant.  An exchange that is still there and has no answer is in the table, at
the place that is left after as many answers as there were for its id (`Sound.queued`); so the
`n`-th exchange gets the `n`-th answer, and a parked caller is either in the table or scheduled.
-/

namespace Rail.Client

open List Option Function Proto

/-- Where a caller is with an exchange: not there yet, suspended in `wait`, or through it. -/
inductive Call where
  | idle
  | parked
  | finished (result : Except String Message)

def Call.isParked : Call → Bool
  | parked => true
  | _ => false

/-- `Exchange` with its `Waiting`.  `nth` counts the exchanges of one request, `call` says where the
caller is; the code has neither. -/
structure Exchange where
  id : UInt64
  nth : ℕ
  reply : Option Message := none
  /-- `Waiting::Caller` holds a handle. -/
  caller : Bool := false
  done : Bool := false
  call : Call := .idle
  /-- The destructor has run. -/
  gone : Bool := false
  /-- In `Reads`, where it may outlive whoever waits for it. -/
  posted : Bool := false

namespace Exchange

/-- What a failed reader does to an exchange in its table. -/
def failed (x : Exchange) (inTable : Bool) : Exchange :=
  if inTable then { x with done := true, caller := false } else x

/-- The destructors of the exchanges with an id. -/
def destroyed (x : Exchange) (id : UInt64) : Exchange :=
  if x.id = id then { x with gone := true, caller := false } else x

end Exchange

/-- How many answers a request has, and whether its exchange is with its caller. -/
inductive Kind where
  | single
  | streamed
  /-- `submitRead`. -/
  | posted
  deriving DecidableEq

def Kind.answers : Kind → ℕ
  | .streamed => 2
  | _ => 1

/-- The client, what is under way to it from the daemon, and a record of what the reader did with
each message: which exchange it went to, if any. -/
structure State where
  nextId : UInt64 := 1
  exchanges : List Exchange := []
  /-- `Waiters`; a queue that is not there is empty. -/
  waiters : UInt64 → List ℕ := fun _ => []
  /-- The callers the loop resumes next. -/
  ready : List ℕ := []
  closed : Bool := false
  failure : String := ""
  sent : List UInt64 := []
  wire : List Message := []
  received : List (Message × Option ℕ) := []

inductive Event where
  /-- A caller takes an id and registers. -/
  | ask (k : Kind)
  /-- The request with this id has been sent. -/
  | send (id : UInt64)
  /-- The daemon sends a message for a request it has. -/
  | answer (m : Message)
  /-- A caller waits on one of its exchanges. -/
  | wait (k : ℕ)
  /-- A caller returns, or is destroyed: all its exchanges go with it. -/
  | leave (id : UInt64)
  /-- The reader takes the next message. -/
  | deliver
  /-- The reader fails; the table is gone through in some order. -/
  | fail (why : String) (order : List ℕ)
  /-- The loop resumes the next caller. -/
  | resume

namespace State

variable (s : State)

/-- A message of this id is in the record. -/
def answers (id : UInt64) : List (Message × Option ℕ) := s.received.filter fun e => e.1.id = id

/-- `await_resume`. -/
def result (x : Exchange) : Except String Message :=
  match x.reply with
  | none => .error (if s.failure.isEmpty then "the peer closed" else s.failure)
  | some m => .ok m

/-- The exchanges of the request with this id. -/
def owns (id : UInt64) (k : ℕ) : Bool := (s.exchanges[k]?).any fun x => x.id = id

/-- What is in the table. -/
def registered : List ℕ :=
  (List.range s.exchanges.length).filter fun k => (s.exchanges[k]?).any fun x => k ∈ s.waiters x.id

/-- The id is taken and the exchanges pushed to its queue; there are fewer than `2 ^ 64`
requests. -/
def ask (k : Kind) : Option State :=
  if s.nextId.toNat + 1 < 2 ^ 64 then
    let made := (List.range k.answers).map fun n =>
      ({ id := s.nextId, nth := n, posted := k = .posted } : Exchange)
    let refs := (List.range k.answers).map fun n => s.exchanges.length + n
    some { s with
      nextId := s.nextId + 1
      exchanges := s.exchanges ++ made
      waiters := Function.update s.waiters s.nextId (s.waiters s.nextId ++ refs) }
  else none

def send (id : UInt64) : Option State :=
  if ∃ x ∈ s.exchanges, x.id = id ∧
    x.gone = false then some { s with sent := id :: s.sent } else none

def answer (m : Message) : Option State :=
  if m.id ∈ s.sent then some { s with wire := s.wire ++ [m] } else none

/-- `Exchange::wait`: nobody parks on what is done, or on a channel that is closed. -/
def wait (k : ℕ) : Option State :=
  (s.exchanges[k]?).bind fun x =>
    if x.gone then none
    else
      match x.call with
      | .idle =>
        if x.done || s.closed then
          some { s with exchanges := s.exchanges.set k { x with call := .finished (s.result x) } }
        else some { s with
          exchanges := s.exchanges.set k { x with caller := true, call := .parked } }
      | _ => none

/-- The destructors of the exchanges of a request, and the end of its coroutine. -/
def leave (id : UInt64) : State :=
  { s with
    exchanges := s.exchanges.map fun x => x.destroyed id
    waiters := Function.update s.waiters id ((s.waiters id).filter fun k => !s.owns id k)
    ready := s.ready.filter fun k => !s.owns id k }

/-- A `collectRead` waits for the answer.  The exchange would keep its handle if it were destroyed,
and what the code does then is undefined. -/
def dangles (id : UInt64) : Bool :=
  s.exchanges.any fun x => x.id = id && x.posted && x.call.isParked

/-- One turn of `pump`. -/
def deliver : Option State :=
  if s.closed then none
  else
    match s.wire with
    | [] => none
    | m :: rest =>
      match s.waiters m.id with
      | [] => some { s with wire := rest, received := s.received ++ [(m, none)] }
      | k :: others =>
        (s.exchanges[k]?).map fun x =>
          { s with
            wire := rest
            received := s.received ++ [(m, some k)]
            waiters := Function.update s.waiters m.id others
            exchanges := s.exchanges.set k { x with reply := some m, done := true, caller := false }
            ready := if x.caller then s.ready ++ [k] else s.ready }

/-- `fail`. -/
def fail (why : String) (order : List ℕ) : Option State :=
  if s.closed = false ∧ order.Perm s.registered then
    some { s with
      failure := why
      closed := true
      exchanges := s.exchanges.mapIdx fun k x => x.failed (k ∈ order)
      ready := s.ready ++ order.filter fun k => (s.exchanges[k]?).any Exchange.caller }
  else none

/-- A coroutine that is not suspended in `wait` cannot be resumed there. -/
def resume : Option State :=
  match s.ready with
  | [] => none
  | k :: rest =>
    (s.exchanges[k]?).bind fun x =>
      match x.call with
      | .parked =>
          some { s with ready := rest, exchanges := s.exchanges.set k { x with
            call := .finished (s.result x) } }
      | _ => none

def step : Event → Option State
  | .ask k => s.ask k
  | .send id => s.send id
  | .answer m => s.answer m
  | .wait k => s.wait k
  | .leave id => if s.dangles id then none else some (s.leave id)
  | .deliver => s.deliver
  | .fail why order => s.fail why order
  | .resume => s.resume

/-! ## The invariant -/

/-- What holds of one exchange. -/
structure Kept (s : State) (k : ℕ) (x : Exchange) : Prop where
  issued : x.id.toNat < s.nextId.toNat
  given : ∀ m, x.reply = some m → (s.answers x.id)[x.nth]? = some (m, some k)
  awaited : x.gone = false → x.reply = none → (s.answers x.id).length ≤ x.nth
  finished : ∀ m, x.call = .finished (.ok m) → x.reply = some m
  parked : x.gone = false → x.call = .parked → k ∈ s.ready ∨ x.caller = true ∧ x.reply = none ∧
    s.closed = false
  done : x.done = false → x.reply = none
  caller : x.caller = true → x.gone = false ∧ x.call = .parked ∧ k ∉ s.ready

/-- The part of an exchange that the table depends on. -/
def places : List (UInt64 × ℕ × Bool) := s.exchanges.map fun x => (x.id, x.nth, x.gone)

structure Sound (s : State) : Prop where
  kept : ∀ k x, s.exchanges[k]? = some x → s.Kept k x
  sent : ∀ id ∈ s.sent, id.toNat < s.nextId.toNat
  wire : ∀ m ∈ s.wire, m.id.toNat < s.nextId.toNat
  received : ∀ e ∈ s.received, e.1.id.toNat < s.nextId.toNat
  distinct : (s.exchanges.map fun x => (x.id, x.nth)).Nodup
  queued : ∀ id p k, (s.waiters id)[p]? = some k ↔
    s.places[k]? = some (id, (s.answers id).length + p, false)
  scheduled : s.ready.Nodup ∧ ∀ k ∈ s.ready, ∃ x, s.exchanges[k]? = some x ∧ x.gone = false ∧
    x.call = .parked

variable {s t : State} {k : ℕ} {x : Exchange} {id : UInt64} {m : Message} {es : List Exchange}
  {ready : List ℕ}

theorem getElem?_set_iff {α : Type*} {l : List α} {j : ℕ} {x a y : α} (h : l[k]? = some x) :
    (l.set k a)[j]? = some y ↔ j = k ∧ y = a ∨ j ≠ k ∧ l[j]? = some y := by
  have hk := (List.getElem?_eq_some_iff.mp h).1
  rw [getElem?_set]
  by_cases hj : k = j
  · subst hj
    rw [if_pos rfl, if_pos hk]
    constructor
    · rintro ⟨⟩
      exact .inl ⟨rfl, rfl⟩
    · rintro (⟨-, rfl⟩ | ⟨hne, -⟩)
      · rfl
      · exact absurd rfl hne
  · rw [if_neg hj]
    constructor
    · exact fun hy => .inr ⟨.symm hj, hy⟩
    · rintro (⟨he, -⟩ | ⟨-, hy⟩)
      · exact absurd he.symm hj
      · exact hy

theorem map_set_of_eq {α β : Type*} {l : List α} {x a : α} (f : α → β) (h : l[k]? = some x)
    (hf : f a = f x) : (l.set k a).map f = l.map f := by
  obtain ⟨hk, rfl⟩ := List.getElem?_eq_some_iff.mp h
  rw [map_set, hf, ← getElem_map f (h := by rwa [length_map]), set_getElem_self]

theorem getElem?_places (h : s.exchanges[k]? = some x) :
    s.places[k]? = some (x.id, x.nth, x.gone) := by
  rw [places, getElem?_map, h, map_some]

theorem places_eq_some {a : UInt64 × ℕ × Bool} (h : s.places[k]? = some a) :
    ∃ x, s.exchanges[k]? = some x ∧ (x.id, x.nth, x.gone) = a := by
  rw [places, getElem?_map] at h
  exact map_eq_some_iff.mp h

theorem Sound.initial : Sound {} := by
  constructor <;> simp [places]

/-- An exchange that waits for an answer is in the table. -/
theorem Sound.in_waiters (hs : s.Sound) (hx : s.exchanges[k]? = some x) (hgone : x.gone = false)
    (hreply : x.reply = none) : (s.waiters x.id)[x.nth - (s.answers x.id).length]? = some k := by
  have hle := (hs.kept k x hx).awaited hgone hreply
  rw [hs.queued, getElem?_places hx, hgone, Nat.add_sub_cancel' hle]

/-- A step that only changes what the callers see: neither the table nor what it depends on. -/
theorem Sound.flags (hs : s.Sound) {closed : Bool} {failure : String}
    (hplaces : es.map (fun x => (x.id, x.nth, x.gone)) = s.places)
    (hkept : ∀ k x, es[k]? = some x → Kept { s with exchanges := es, ready, closed, failure } k x)
    (hready : ready.Nodup ∧ ∀ k ∈ ready, ∃ x, es[k]? = some x ∧ x.gone = false ∧ x.call = .parked) :
    Sound { s with exchanges := es, ready, closed, failure } where
  kept := hkept
  sent := hs.sent
  wire := hs.wire
  received := hs.received
  distinct := by
    have hkeys : es.map (fun x => (x.id, x.nth)) = s.exchanges.map fun x => (x.id, x.nth) := by
      have h := congrArg (List.map fun a : UInt64 × ℕ × Bool => (a.1, a.2.1)) hplaces
      rwa [places, List.map_map, List.map_map] at h
    rw [hkeys]
    exact hs.distinct
  queued := by
    intro id p k
    rw [places, hplaces]
    exact hs.queued id p k
  scheduled := hready

theorem Sound.unused (hs : s.Sound) :
    s.nextId ∉ s.exchanges.map Exchange.id ∧ s.answers s.nextId = [] ∧ s.waiters s.nextId = [] := by
  have hids : s.nextId ∉ s.exchanges.map Exchange.id := by
    intro hmem
    obtain ⟨x, hx, he⟩ := List.mem_map.mp hmem
    obtain ⟨k, hk⟩ := mem_iff_getElem?.mp hx
    exact absurd (hs.kept k x hk).issued (by rw [he]; exact Nat.lt_irrefl _)
  refine ⟨hids, ?_, ?_⟩
  · refine filter_eq_nil_iff.mpr fun e he => ?_
    have hlt := hs.received e he
    simp only [decide_eq_true_eq]
    rintro heq
    rw [heq] at hlt
    exact Nat.lt_irrefl _ hlt
  · refine eq_nil_iff_forall_not_mem.mpr fun k hk => ?_
    obtain ⟨p, hp⟩ := mem_iff_getElem?.mp hk
    obtain ⟨x, hx, he⟩ := places_eq_some ((hs.queued _ p k).mp hp)
    exact hids (List.mem_map.mpr ⟨x, mem_of_getElem? hx, congrArg Prod.fst he⟩)

/-- What is registered for a request. -/
theorem getElem?_made (id : UInt64) (posted : Bool) (n j : ℕ) :
    ((List.range n).map fun i => ({ id, nth := i, posted } : Exchange))[j]? =
      if j < n then some { id, nth := j, posted } else none := by
  rw [getElem?_map]
  split_ifs with h
  · rw [getElem?_range h, map_some]
  · rw [getElem?_eq_none (by rw [length_range]; omega), map_none]

/-- A request opens a queue of its own, behind nobody. -/
theorem Sound.queued_ask (hs : s.Sound) (n : ℕ) (id : UInt64) (p j : ℕ) :
    (Function.update s.waiters s.nextId (s.waiters s.nextId ++ (List.range n).map fun i =>
      s.exchanges.length + i) id)[p]? = some j ↔
      (s.places ++ (List.range n).map fun i => (s.nextId, i, false))[j]? =
      some (id, (s.answers id).length + p, false) := by
  obtain ⟨hids, hnone, hempty⟩ := hs.unused
  rw [getElem?_append, places, length_map, ← places]
  by_cases hid : id = s.nextId
  · subst hid
    rw [update_self, hempty, hnone, nil_append, length_nil, Nat.zero_add, getElem?_map,
      getElem?_map]
    split_ifs with hj
    · constructor
      · intro hp
        obtain ⟨i, hi, rfl⟩ := map_eq_some_iff.mp hp
        omega
      · intro hp
        obtain ⟨x, hx, he⟩ := places_eq_some hp
        exact absurd (List.mem_map.mpr ⟨x, mem_of_getElem? hx, congrArg Prod.fst he⟩) hids
    · simp only [map_eq_some_iff, List.getElem?_eq_some_iff, length_range, getElem_range,
        Prod.mk.injEq, true_and, and_true]
      constructor
      · rintro ⟨i, ⟨hi, he⟩, rfl⟩
        exact ⟨i, ⟨by omega, by omega⟩, he.symm⟩
      · rintro ⟨i, ⟨hi, he⟩, rfl⟩
        exact ⟨i, ⟨by omega, rfl⟩, by omega⟩
  · rw [update_of_ne hid, hs.queued]
    split_ifs with hj
    · rfl
    · constructor
      · intro hp
        obtain ⟨x, hx, -⟩ := places_eq_some hp
        exact absurd (List.getElem?_eq_some_iff.mp hx).1 hj
      · intro hp
        rw [getElem?_map] at hp
        obtain ⟨i, -, he⟩ := map_eq_some_iff.mp hp
        exact absurd (congrArg Prod.fst he).symm hid

theorem Sound.ask {s t : State} {k : Kind} (hs : s.Sound) (h : s.ask k = some t) : t.Sound := by
  obtain ⟨hsmall, h⟩ := ite_none_right_eq_some.mp h
  cases h
  obtain ⟨hids, hnone, -⟩ := hs.unused
  have hnext : (s.nextId + 1).toNat = s.nextId.toNat + 1 := by
    rw [UInt64.toNat_add]
    exact Nat.mod_eq_of_lt hsmall
  have hlater : ∀ id : UInt64, id.toNat < s.nextId.toNat → id.toNat < (s.nextId + 1).toNat := by
    intro id hid
    omega
  refine ⟨?_, fun id hid => hlater id (hs.sent id hid), fun m hm => hlater _ (hs.wire m hm),
    fun e he => hlater _ (hs.received e he), ?_, ?_, ?_⟩
  · intro j x hx
    rw [getElem?_append] at hx
    split_ifs at hx with hj
    · have hkept := hs.kept j x hx
      exact { hkept with issued := hlater _ hkept.issued }
    · rw [getElem?_made] at hx
      obtain rfl := some.inj (ite_none_right_eq_some.mp hx).2
      constructor
      · exact hnext ▸ Nat.lt_succ_self _
      · simp
      · intro _ _
        show (s.answers s.nextId).length ≤ _
        rw [hnone]
        exact Nat.zero_le _
      all_goals simp
  · rw [map_append, List.map_map]
    refine .append hs.distinct ?_ ?_
    · exact nodup_range.map fun a b hab => congrArg Prod.snd hab
    · intro a ha hb
      obtain ⟨x, hx, rfl⟩ := List.mem_map.mp ha
      obtain ⟨i, -, hi⟩ := List.mem_map.mp hb
      exact hids (List.mem_map.mpr ⟨x, hx, (congrArg Prod.fst hi).symm⟩)
  · intro id p j
    have hplaces : (s.exchanges ++ (List.range k.answers).map
        fun n => ({ id := s.nextId, nth := n, posted := k = .posted } : Exchange)).map
        (fun x => (x.id, x.nth, x.gone)) = s.places ++ (List.range k.answers).map fun n =>
          (s.nextId, n, false) := by
      rw [map_append, List.map_map]
      rfl
    show _ ↔ (List.map _ _)[j]? = some (id, (s.answers id).length + p, false)
    rw [hplaces]
    exact hs.queued_ask k.answers id p j
  · refine ⟨hs.scheduled.1, fun j hj => ?_⟩
    obtain ⟨x, hx, hrest⟩ := hs.scheduled.2 j hj
    exact ⟨x, getElem?_append_left (List.getElem?_eq_some_iff.mp hx).1 ▸ hx, hrest⟩

theorem result_eq_ok (h : s.result x = .ok m) : x.reply = some m := by
  rw [result] at h
  cases hreply : x.reply with
  | none => simp [hreply] at h
  | some m' =>
    simp only [hreply] at h
    rw [Except.ok.inj h]

/-- A caller that goes through `wait`, at once or when it is resumed. -/
theorem Kept.through (h : s.Kept k x) (hcaller : x.caller = false) :
    Kept { s with exchanges := es, ready } k { x with call := .finished (s.result x) } where
  issued := h.issued
  given := h.given
  awaited := h.awaited
  finished := fun _ hm => result_eq_ok (Call.finished.inj hm)
  parked := fun _ hp => Call.noConfusion hp
  done := h.done
  caller := fun hc => Bool.noConfusion (hcaller.symm.trans hc)

theorem Sound.wait (hs : s.Sound) (h : s.wait k = some t) : t.Sound := by
  obtain ⟨x, hx, h⟩ := bind_eq_some_iff.mp h
  obtain ⟨hgone, h⟩ := ite_none_left_eq_some.mp h
  have hkept := hs.kept k x hx
  cases hcall : x.call with
  | parked | finished r => simp [hcall] at h
  | idle =>
    -- a caller that has not come yet is neither parked nor scheduled
    have hready : k ∉ s.ready := by
      intro hk
      obtain ⟨y, hy, -, hparked⟩ := hs.scheduled.2 k hk
      obtain rfl := mem_unique hx hy
      rw [hcall] at hparked
      exact Call.noConfusion hparked
    have hscheduled : ∀ y : Exchange, s.ready.Nodup ∧ ∀ j ∈ s.ready, ∃ z,
        (s.exchanges.set k y)[j]? = some z ∧
          z.gone = false ∧ z.call = .parked := by
      refine fun y => ⟨hs.scheduled.1, fun j hj => ?_⟩
      obtain ⟨z, hz, hrest⟩ := hs.scheduled.2 j hj
      exact ⟨z, (getElem?_set_iff hx).mpr (.inr ⟨fun he => hready (he ▸ hj), hz⟩), hrest⟩
    simp only [hcall] at h
    split_ifs at h with hdone
    · cases h
      refine hs.flags (map_set_of_eq _ hx rfl) ?_ (hscheduled _)
      intro j y hy
      rcases (getElem?_set_iff hx).mp hy with ⟨rfl, rfl⟩ | ⟨-, hy⟩
      · refine hkept.through ?_
        cases hcaller : x.caller with
        | false => rfl
        | true => exact Call.noConfusion (hcall.symm.trans (hkept.caller hcaller).2.1)
      · exact { hs.kept j y hy with }
    · cases h
      obtain ⟨hdone, hclosed⟩ := Bool.or_eq_false_iff.mp (Bool.eq_false_iff.mpr hdone)
      refine hs.flags (map_set_of_eq _ hx rfl) ?_ (hscheduled _)
      intro j y hy
      rcases (getElem?_set_iff hx).mp hy with ⟨rfl, rfl⟩ | ⟨-, hy⟩
      · exact { hkept with
          finished := fun m hm => Call.noConfusion hm
          parked := fun _ _ => .inr ⟨rfl, hkept.done hdone, hclosed⟩
          caller := fun _ => ⟨Bool.eq_false_iff.mpr hgone, rfl, hready⟩ }
      · exact { hs.kept j y hy with }

theorem Sound.resume (hs : s.Sound) (h : s.resume = some t) : t.Sound := by
  rw [State.resume] at h
  cases hready : s.ready with
  | nil => simp [hready] at h
  | cons k rest =>
    simp only [hready] at h
    obtain ⟨x, hx, h⟩ := bind_eq_some_iff.mp h
    have hnodup := hs.scheduled.1
    rw [hready, nodup_cons] at hnodup
    cases hcall : x.call with
    | idle | finished r => simp [hcall] at h
    | parked =>
      simp only [hcall] at h
      cases h
      refine hs.flags (map_set_of_eq _ hx rfl) ?_ ⟨hnodup.2, fun j hj => ?_⟩
      · intro j y hy
        rcases (getElem?_set_iff hx).mp hy with ⟨rfl, rfl⟩ | ⟨hj, hy⟩
        · refine (hs.kept j x hx).through ?_
          cases hcaller : x.caller with
          | false => rfl
          | true => exact absurd (hready ▸ mem_cons_self) ((hs.kept j x hx).caller hcaller).2.2
        · have hkept := hs.kept j y hy
          have hmem : j ∈ s.ready ↔ j ∈ rest := by
            rw [hready, mem_cons]
            exact or_iff_right hj
          exact { hkept with
            parked := fun hg hp => (hkept.parked hg hp).imp_left hmem.mp
            caller := fun hc => ⟨(hkept.caller hc).1, (hkept.caller hc).2.1, fun hm =>
              (hkept.caller hc).2.2 (hmem.mpr hm)⟩ }
      · obtain ⟨y, hy, hrest⟩ := hs.scheduled.2 j (hready ▸ mem_cons_of_mem k hj)
        exact ⟨y, (getElem?_set_iff hx).mpr (.inr ⟨fun he => hnodup.1 (he ▸ hj), hy⟩), hrest⟩

theorem failed_place (x : Exchange) (b : Bool) :
    ((x.failed b).id, (x.failed b).nth, (x.failed b).gone) = (x.id, x.nth, x.gone) := by
  cases b <;> rfl

theorem failed_call (x : Exchange) (b : Bool) : (x.failed b).call = x.call := by
  cases b <;> rfl

theorem mem_of_any_caller (hs : s.Sound) (h : (s.exchanges[k]?).any Exchange.caller = true) :
    ∃ x, s.exchanges[k]? = some x ∧ x.gone = false ∧ x.call = .parked ∧ k ∉ s.ready := by
  cases hx : s.exchanges[k]? with
  | none => simp [hx] at h
  | some x =>
    rw [hx, any_some] at h
    exact ⟨x, rfl, (hs.kept k x hx).caller h⟩

theorem Sound.fail {why : String} {order : List ℕ} (hs : s.Sound) (h : s.fail why order = some t) :
    t.Sound := by
  obtain ⟨⟨-, hperm⟩, h⟩ := ite_none_right_eq_some.mp h
  cases h
  refine hs.flags ?_ ?_ ⟨?_, ?_⟩
  · refine ext_getElem? fun k => ?_
    rw [places, getElem?_map, getElem?_map, getElem?_mapIdx, Option.map_map]
    exact congrArg (Option.map · s.exchanges[k]?) (funext fun x => failed_place x _)
  · intro k y hy
    rw [getElem?_mapIdx] at hy
    obtain ⟨x, hx, rfl⟩ := map_eq_some_iff.mp hy
    have hkept := hs.kept k x hx
    by_cases hk : k ∈ order
    · rw [decide_eq_true hk]
      refine { hkept with
        parked := ?_, done := fun hd => Bool.noConfusion hd, caller :=
          fun hc => Bool.noConfusion hc }
      intro hgone hparked
      refine .inl (mem_append.mpr ?_)
      rcases hkept.parked hgone hparked with hready | ⟨hcaller, -, -⟩
      · exact .inl hready
      · exact .inr (mem_filter.mpr ⟨hk, by rw [hx]; exact hcaller⟩)
    · rw [decide_eq_false hk]
      -- everyone who is parked is in the table, so the loop goes past them
      have hready : x.gone = false → x.call = .parked → k ∈ s.ready := by
        intro hgone hparked
        rcases hkept.parked hgone hparked with hready | ⟨-, hreply, -⟩
        · exact hready
        · refine absurd (hperm.mem_iff.mpr (mem_filter.mpr ⟨?_, ?_⟩)) hk
          · exact mem_range.mpr (List.getElem?_eq_some_iff.mp hx).1
          · rw [hx]
            exact decide_eq_true (mem_of_getElem? (hs.in_waiters hx hgone hreply))
      refine { hkept with parked := ?_, caller := ?_ }
      · exact fun hgone hparked => .inl (mem_append_left _ (hready hgone hparked))
      · intro hcaller
        obtain ⟨hgone, hparked, hnot⟩ := hkept.caller hcaller
        exact absurd (hready hgone hparked) hnot
  · refine .append hs.scheduled.1 ?_ ?_
    · exact (hperm.nodup_iff.mpr (nodup_range.filter _)).filter _
    · intro k hk hk'
      obtain ⟨x, -, -, -, hnot⟩ := mem_of_any_caller hs (mem_filter.mp hk').2
      exact hnot hk
  · intro k hk
    have hold : ∃ x, s.exchanges[k]? = some x ∧ x.gone = false ∧ x.call = .parked := by
      rcases mem_append.mp hk with hk | hk
      · exact hs.scheduled.2 k hk
      · obtain ⟨x, hx, hgone, hparked, -⟩ := mem_of_any_caller hs (mem_filter.mp hk).2
        exact ⟨x, hx, hgone, hparked⟩
    obtain ⟨x, hx, hgone, hparked⟩ := hold
    refine ⟨x.failed (k ∈ order), ?_, ?_, ?_⟩
    · rw [getElem?_mapIdx, hx, map_some]
    · exact (congrArg (fun p => p.2.2) (failed_place x _)).trans hgone
    · exact (failed_call x _).trans hparked

theorem owns_eq_true (hx : s.exchanges[k]? = some x) : s.owns id k = true ↔ x.id = id := by
  rw [owns, hx, any_some, decide_eq_true_eq]

theorem destroyed_of_ne (h : x.id ≠ id) : x.destroyed id = x := if_neg h

theorem destroyed_self (h : x.id = id) :
    x.destroyed id = { x with gone := true, caller := false } :=
  if_pos h

theorem destroyed_key (x : Exchange) (id : UInt64) :
    ((x.destroyed id).id, (x.destroyed id).nth) = (x.id, x.nth) := by
  by_cases h : x.id = id
  · rw [destroyed_self h]
  · rw [destroyed_of_ne h]

theorem leave_eq_some {y : Exchange} (hy : (s.leave id).exchanges[k]? = some y) :
    ∃ x, s.exchanges[k]? = some x ∧ x.destroyed id = y := by
  rw [State.leave, getElem?_map] at hy
  exact map_eq_some_iff.mp hy

theorem getElem?_leave (hx : s.exchanges[k]? = some x) (hne : x.id ≠ id) :
    (s.leave id).exchanges[k]? = some x := by
  rw [State.leave, getElem?_map, hx, map_some, destroyed_of_ne hne]

/-- The queue of a request goes with it, and the other queues stay. -/
theorem Sound.queued_leave (hs : s.Sound) (id i : UInt64) (p k : ℕ) :
    ((s.leave id).waiters i)[p]? = some k ↔
    (s.leave id).places[k]? = some (i, (s.answers i).length + p, false) := by
  by_cases hid : i = id
  · subst hid
    -- everything in the queue of a request is its own, and none of it is left
    have hempty : (s.leave i).waiters i = [] := by
      refine (update_self _ _ _).trans (filter_eq_nil_iff.mpr fun j hj => ?_)
      obtain ⟨q, hq⟩ := mem_iff_getElem?.mp hj
      obtain ⟨x, hx, he⟩ := places_eq_some ((hs.queued i q j).mp hq)
      rw [(owns_eq_true hx).mpr (congrArg Prod.fst he)]
      exact Bool.false_ne_true
    rw [hempty, getElem?_nil]
    refine iff_of_false (some_ne_none k).symm fun hk => ?_
    obtain ⟨y, hy, he⟩ := places_eq_some hk
    obtain ⟨x, -, rfl⟩ := leave_eq_some hy
    have hx : x.id = i := (congrArg Prod.fst (destroyed_key x i)).symm.trans (congrArg Prod.fst he)
    rw [destroyed_self hx] at he
    exact Bool.noConfusion (congrArg (fun a => a.2.2) he)
  · refine (iff_of_eq (congrArg (fun l => l[p]? = some k) (update_of_ne hid _ _))).trans
      ((hs.queued i p k).trans ⟨fun hk => ?_, fun hk => ?_⟩)
    · obtain ⟨x, hx, he⟩ := places_eq_some hk
      rw [getElem?_places (getElem?_leave hx fun h => hid ((congrArg Prod.fst he).symm.trans h)),
        he]
    · obtain ⟨y, hy, he⟩ := places_eq_some hk
      obtain ⟨x, hx, rfl⟩ := leave_eq_some hy
      have hne : x.id ≠ id := fun h =>
        hid ((congrArg Prod.fst he).symm.trans ((congrArg Prod.fst (destroyed_key x id)).trans h))
      rw [destroyed_of_ne hne] at he
      rw [getElem?_places hx, he]

theorem Sound.leave (hs : s.Sound) (id : UInt64) : (s.leave id).Sound := by
  have hready : ∀ k x, s.exchanges[k]? = some x → x.id ≠ id →
      (k ∈ (s.leave id).ready ↔ k ∈ s.ready) := by
    intro k x hx hne
    rw [State.leave, mem_filter, Bool.not_eq_true', Bool.eq_false_iff, Ne, owns_eq_true hx]
    exact and_iff_left hne
  refine ⟨?_, hs.sent, hs.wire, hs.received, ?_, hs.queued_leave id, hs.scheduled.1.filter _, ?_⟩
  · intro k y hy
    obtain ⟨x, hx, rfl⟩ := leave_eq_some hy
    have hkept := hs.kept k x hx
    by_cases hid : x.id = id
    · rw [destroyed_self hid]
      exact { hkept with
        awaited := fun hg => Bool.noConfusion hg
        parked := fun hg => Bool.noConfusion hg
        caller := fun hc => Bool.noConfusion hc }
    · rw [destroyed_of_ne hid]
      exact { hkept with
        parked := fun hg hp => (hkept.parked hg hp).imp_left (hready k x hx hid).mpr
        caller := fun hc => ⟨(hkept.caller hc).1, (hkept.caller hc).2.1,
          fun hm => (hkept.caller hc).2.2 ((hready k x hx hid).mp hm)⟩ }
  · rw [State.leave, List.map_map]
    exact (map_congr_left fun x _ => destroyed_key x id).symm ▸ hs.distinct
  · intro k hk
    obtain ⟨hk, howns⟩ := mem_filter.mp hk
    obtain ⟨x, hx, hrest⟩ := hs.scheduled.2 k hk
    rw [Bool.not_eq_true', Bool.eq_false_iff, Ne, owns_eq_true hx] at howns
    exact ⟨x, getElem?_leave hx howns, hrest⟩

/-- The record with one more message in it. -/
theorem answers_concat (s : State) (m : Message) (r : Option ℕ) (id : UInt64) :
    (s.received ++ [(m, r)]).filter (fun e => e.1.id = id) = if m.id = id then s.answers id ++
    [(m, r)] else s.answers id := by
  rw [filter_append, answers, filter_singleton]
  split_ifs with h
  · rw [decide_eq_true h]
    rfl
  · rw [decide_eq_false h]
    exact append_nil _

theorem Sound.received_concat (hs : s.Sound) (hissued : m.id.toNat < s.nextId.toNat)
    (r : Option ℕ) : ∀ e ∈ s.received ++ [(m, r)], e.1.id.toNat < s.nextId.toNat := by
  exact forall_mem_append.mpr ⟨hs.received, forall_mem_singleton.mpr hissued⟩

/-- **The queue of an id advances with its answers**, whether there is anybody in it or not. -/
theorem Sound.queued_tail (hs : s.Sound) (m : Message) (r : Option ℕ) (id : UInt64) (p k : ℕ) :
    (Function.update s.waiters m.id (s.waiters m.id).tail id)[p]? = some k ↔
      s.places[k]? = some (id, ((s.received ++ [(m, r)]).filter fun e => e.1.id = id).length + p,
      false) := by
  rw [answers_concat]
  by_cases h : m.id = id
  · subst h
    rw [update_self, if_pos rfl, length_append, length_singleton, getElem?_tail, hs.queued,
      Nat.add_right_comm, Nat.add_assoc]
  · rw [update_of_ne (Ne.symm h), if_neg h, hs.queued]

/-- An exchange that does not get the message. -/
theorem Kept.past {r : Option ℕ} {waiters : UInt64 → List ℕ} {wire : List Message} (h : s.Kept k x)
    (hready : k ∈ ready ↔ k ∈ s.ready)
    (hlater : x.gone = false → x.reply = none → x.id = m.id → (s.answers m.id).length ≠ x.nth) :
    Kept { s with exchanges := es, waiters, ready, wire, received := s.received ++ [(m, r)] }
    k x where
  issued := h.issued
  given := by
    intro n hn
    have hold := h.given n hn
    rw [answers, answers_concat]
    split_ifs
    · rw [getElem?_append_left (List.getElem?_eq_some_iff.mp hold).1]
      exact hold
    · exact hold
  awaited := by
    intro hgone hreply
    have hold := h.awaited hgone hreply
    rw [answers, answers_concat]
    split_ifs with hid
    · have hne := hlater hgone hreply hid.symm
      rw [hid] at hne
      rw [length_append, length_singleton]
      omega
    · exact hold
  finished := h.finished
  parked := fun hg hp => (h.parked hg hp).imp_left hready.mpr
  done := h.done
  caller := fun hc => ⟨(h.caller hc).1, (h.caller hc).2.1, fun hm =>
    (h.caller hc).2.2 (hready.mp hm)⟩

/-- The exchange at the front of a queue has no answer, and is the one that the next answer belongs
to. -/
theorem Sound.front (hs : s.Sound) {others : List ℕ} (hw : s.waiters id = k :: others)
    (hx : s.exchanges[k]? = some x) :
    x.id = id ∧ x.nth = (s.answers id).length ∧ x.gone = false ∧ x.reply = none := by
  have hk : (s.waiters id)[0]? = some k := by rw [hw, getElem?_cons_zero]
  rw [hs.queued, getElem?_places hx, Nat.add_zero] at hk
  obtain ⟨rfl, hnth, hgone⟩ : x.id = id ∧ x.nth = (s.answers id).length ∧ x.gone = false := by
    simpa only [Option.some.injEq, Prod.mk.injEq] using hk
  refine ⟨rfl, hnth, hgone, ?_⟩
  cases hreply : x.reply with
  | none => rfl
  | some m =>
    have hgiven := (hs.kept k x hx).given m hreply
    rw [hnth, getElem?_eq_none (Nat.le_refl _)] at hgiven
    cases hgiven

theorem Sound.handed (hs : s.Sound) {rest : List Message} {others : List ℕ}
    (hrest : ∀ n ∈ rest, n.id.toNat < s.nextId.toNat) (hissued : m.id.toNat < s.nextId.toNat)
    (hw : s.waiters m.id = k :: others) (hx : s.exchanges[k]? = some x) : Sound { s with
      wire := rest
      received := s.received ++ [(m, some k)]
      waiters := Function.update s.waiters m.id others
      exchanges := s.exchanges.set k { x with reply := some m, done := true, caller := false }
      ready := if x.caller then s.ready ++ [k] else s.ready } := by
  obtain ⟨hid, hnth, hgone, hreply⟩ := hs.front hw hx
  have hkept := hs.kept k x hx
  have hsame : ∀ {β : Type} (f : Exchange → β),
    f { x with reply := some m, done := true, caller := false } = f x →
      (s.exchanges.set k { x with reply := some m, done := true, caller := false }).map f =
      s.exchanges.map f :=
    fun f hf => map_set_of_eq f hx hf
  have hready : ∀ j, j ∈ (if x.caller then s.ready ++ [k] else s.ready) ↔ j ∈ s.ready ∨ j = k ∧
      x.caller = true := by
    intro j
    cases x.caller <;> simp
  refine ⟨?_, hs.sent, hrest, hs.received_concat hissued (some k), ?_, ?_, ?_, ?_⟩
  · intro j y hy
    rcases (getElem?_set_iff hx).mp hy with ⟨rfl, rfl⟩ | ⟨hj, hy⟩
    · refine ⟨hkept.issued, ?_, fun _ h => absurd h (some_ne_none m), ?_, ?_, fun h =>
        Bool.noConfusion h, fun h => Bool.noConfusion h⟩
      · intro n hn
        rw [answers, answers_concat, if_pos hid.symm, hnth, hid, getElem?_concat_length,
          some.inj hn]
      · intro n hn
        exact absurd (hreply.symm.trans (hkept.finished n hn)) (some_ne_none n).symm
      · intro _ hp
        rcases hkept.parked hgone hp with h | ⟨h, -⟩
        · exact .inl ((hready j).mpr (.inl h))
        · exact .inl ((hready j).mpr (.inr ⟨rfl, h⟩))
    · refine (hs.kept j y hy).past ((hready j).trans (or_iff_left fun h => hj h.1)) ?_
      -- only one exchange is next
      intro hg hr he hlen
      have hj' := hs.in_waiters hy hg hr
      rw [he, hlen, Nat.sub_self, hw, getElem?_cons_zero] at hj'
      exact hj (some.inj hj').symm
  · exact (hsame (fun x => (x.id, x.nth)) rfl).symm ▸ hs.distinct
  · intro i p j
    have h := hs.queued_tail m (some k) i p j
    rw [hw, tail_cons] at h
    rw [places, hsame (fun x => (x.id, x.nth, x.gone)) rfl]
    exact h
  · cases hcaller : x.caller with
    | false => exact hs.scheduled.1
    | true => exact concat_eq_append ▸ hs.scheduled.1.concat (hkept.caller hcaller).2.2
  · intro j hj
    by_cases hjk : j = k
    · subst hjk
      refine ⟨_, (getElem?_set_iff hx).mpr (.inl ⟨rfl, rfl⟩), hgone, ?_⟩
      rcases (hready j).mp hj with h | ⟨-, h⟩
      · obtain ⟨z, hz, -, hparked⟩ := hs.scheduled.2 j h
        obtain rfl := mem_unique hx hz
        exact hparked
      · exact (hkept.caller h).2.1
    · obtain ⟨z, hz, hrest⟩ := hs.scheduled.2 j (((hready j).mp hj).resolve_right fun h => hjk h.1)
      exact ⟨z, (getElem?_set_iff hx).mpr (.inr ⟨hjk, hz⟩), hrest⟩

theorem Sound.deliver (hs : s.Sound) (h : s.deliver = some t) : t.Sound := by
  obtain ⟨-, h⟩ := ite_none_left_eq_some.mp h
  cases hwire : s.wire with
  | nil => simp [hwire] at h
  | cons m rest =>
    have hissued : m.id.toNat < s.nextId.toNat := hs.wire m (hwire ▸ mem_cons_self)
    have hrest : ∀ n ∈ rest, n.id.toNat < s.nextId.toNat :=
      fun n hn => hs.wire n (hwire ▸ mem_cons_of_mem m hn)
    cases hw : s.waiters m.id with
    | nil =>
      simp only [hwire, hw] at h
      cases h
      have hqueued := hs.queued_tail m none
      rw [hw, tail_nil, ← hw, update_eq_self] at hqueued
      refine ⟨?_, hs.sent, hrest, hs.received_concat hissued none, hs.distinct, hqueued,
        hs.scheduled⟩
      intro k x hx
      refine (hs.kept k x hx).past Iff.rfl ?_
      intro hg hr he _
      have hk := hs.in_waiters hx hg hr
      rw [he, hw, getElem?_nil] at hk
      cases hk
    | cons k others =>
      simp only [hwire, hw] at h
      obtain ⟨x, hx, rfl⟩ := map_eq_some_iff.mp h
      exact hs.handed hrest hissued hw hx

theorem Sound.step {e : Event} (hs : s.Sound) (h : s.step e = some t) : t.Sound := by
  cases e with
  | ask k => exact hs.ask h
  | send id =>
    obtain ⟨⟨x, hx, hid, -⟩, h⟩ := ite_none_right_eq_some.mp h
    cases h
    refine { hs with kept := fun k y hy => { hs.kept k y hy with }, sent := fun i hi => ?_ }
    rcases mem_cons.mp hi with rfl | hi
    · obtain ⟨k, hk⟩ := mem_iff_getElem?.mp hx
      exact hid ▸ (hs.kept k x hk).issued
    · exact hs.sent i hi
  | answer m =>
    obtain ⟨hm, h⟩ := ite_none_right_eq_some.mp h
    cases h
    exact { hs with
      kept := fun k y hy => { hs.kept k y hy with }
      wire := forall_mem_append.mpr ⟨hs.wire, forall_mem_singleton.mpr (hs.sent _ hm)⟩ }
  | wait k => exact hs.wait h
  | leave id =>
    obtain ⟨-, h⟩ := ite_none_left_eq_some.mp h
    cases h
    exact hs.leave id
  | deliver => exact hs.deliver h
  | fail why order => exact hs.fail h
  | resume => exact hs.resume h

theorem Sound.of_run {es : List Event} (h : Runs.exec State.step {} es = some s) : s.Sound :=
  Runs.exec_invariant (fun hs _ h => Sound.step hs h) Sound.initial (Runs.meets_true es _) h

/-! ## The end of a wait -/

/-- The caller of the exchange has a result. -/
def HasResult (s : State) (k : ℕ) : Prop := ∃ x r, s.exchanges[k]? = some x ∧ x.call = .finished r

/-- The loop goes through everyone who is scheduled, and whoever has a result keeps it. -/
theorem Sound.drains : ∀ {ready : List ℕ} {s : State}, s.Sound → s.ready = ready →
    ∃ t, Runs.exec State.step s (List.replicate ready.length .resume) = some t ∧ t.ready = [] ∧
      ∀ k, k ∈ ready ∨ s.HasResult k → t.HasResult k
  | [], s, _, hready => ⟨s, rfl, hready, fun k hk => hk.resolve_left (not_mem_nil)⟩
  | k :: rest, s, hs, hready => by
    obtain ⟨x, hx, hgone, hparked⟩ := hs.scheduled.2 k (hready ▸ mem_cons_self)
    have hstep : s.step .resume =
        some { s with ready := rest, exchanges := s.exchanges.set k { x with
        call := .finished (s.result x) } } := by
      simp [State.step, State.resume, hready, hx, hparked]
    obtain ⟨t, ht, hempty, hresults⟩ := (hs.step hstep).drains rfl
    refine ⟨t, ?_, hempty, ?_⟩
    · rw [length_cons, replicate_succ, Runs.exec, hstep]
      exact ht
    · intro j hj
      refine hresults j ?_
      by_cases hjk : j = k
      · exact .inr ⟨_, _, (getElem?_set_iff hx).mpr (.inl ⟨hjk, rfl⟩), rfl⟩
      · rcases hj with hj | ⟨y, r, hy, hr⟩
        · exact .inl ((mem_cons.mp hj).resolve_left hjk)
        · exact .inr ⟨y, r, (getElem?_set_iff hx).mpr (.inr ⟨hjk, hy⟩), hr⟩

theorem wait_closed (hclosed : s.closed = true) (hx : s.exchanges[k]? = some x)
    (hgone : x.gone = false) (hcall : x.call = .idle) :
    ∃ t, s.step (.wait k) = some t ∧ t.HasResult k := by
  refine ⟨{ s with exchanges := s.exchanges.set k { x with call := .finished (s.result x) } }, ?_,
    ?_⟩
  · simp [State.step, State.wait, hx, hgone, hcall, hclosed]
  · exact ⟨_, _, (getElem?_set_iff hx).mpr (.inl ⟨rfl, rfl⟩), rfl⟩

/-- **Answers reach their own callers.**  In every state of every run: two requests have different
ids; a caller that got a message got, of the answers with its id, the one that is its own by their
order, and the record has that answer for no other; an exchange that is still there has that answer
as soon as it was received; and once the reader has failed, everyone who waits has a result when the
loop has run, and whoever comes to wait has one at once. -/
theorem answers_reach_callers (es : List Event) (s : State) (hrun : Runs.exec step {} es = some s) :
    (s.exchanges.map fun x => (x.id, x.nth)).Nodup ∧
    ∀ k x, s.exchanges[k]? = some x →
      (∀ m, x.call = .finished (.ok m) → m.id = x.id ∧ (s.answers x.id)[x.nth]? = some (m, some k))
      ∧ (x.gone = false → x.reply = ((s.answers x.id)[x.nth]?).map Prod.fst) ∧
      (s.closed = true → x.gone = false →
        (x.call = .parked →
          ∃ t, Runs.exec step s (List.replicate s.ready.length .resume) = some t ∧ t.HasResult k) ∧
        (x.call = .idle → ∃ t, s.step (.wait k) = some t ∧ t.HasResult k)) := by
  have hs := Sound.of_run hrun
  refine ⟨hs.distinct, fun k x hx =>
    ⟨?_, ?_, fun hclosed hgone => ⟨?_, wait_closed hclosed hx hgone⟩⟩⟩
  · intro m hm
    have hgiven := (hs.kept k x hx).given m ((hs.kept k x hx).finished m hm)
    exact ⟨of_decide_eq_true (mem_filter.mp (mem_of_getElem? hgiven)).2, hgiven⟩
  · intro hgone
    cases hreply : x.reply with
    | none => rw [getElem?_eq_none ((hs.kept k x hx).awaited hgone hreply), map_none]
    | some m => rw [(hs.kept k x hx).given m hreply, map_some]
  · intro hparked
    obtain ⟨t, ht, -, hresults⟩ := hs.drains rfl
    refine ⟨t, ht, hresults k (.inl ?_)⟩
    rcases (hs.kept k x hx).parked hgone hparked with hready | ⟨-, -, hopen⟩
    · exact hready
    · exact Bool.noConfusion (hclosed.symm.trans hopen)

/-- A streamed fetch gets its first answer, and the reader fails before the second. -/
theorem answers_reach_callers_streamed :
    ∃ s, Runs.exec step {} [.ask .streamed, .send 1, .wait 0,
      .answer (.streamReply { id := 1, ok := true }), .deliver, .resume, .wait 1,
      .fail "peer closed" [1]] = some s ∧
      (s.answers 1)[0]? = some (.streamReply { id := 1, ok := true }, some 0) ∧ ∃ t,
      Runs.exec step s (List.replicate s.ready.length .resume) = some t ∧ t.HasResult 1 := by
  refine Runs.exists_exec rfl fun hs => ?_
  have h := answers_reach_callers _ _ hs
  exact ⟨((h.2 0 _ rfl).1 _ rfl).2, ((h.2 1 _ rfl).2.2 rfl rfl).1 rfl⟩

end State
end Rail.Client
