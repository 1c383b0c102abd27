import Rail.Kernel.Control
import Rail.Foundation.Runs
import Mathlib.Data.List.Nodup
import Mathlib.Data.List.Perm.Basic

/-!
# Replies and the reader of a connection

`railfs_reader` and `railfs_deliver` of `src/linux/railfs-tcp.c`, with the handlers of
`src/file-service.cc` that answer the mount.

All calls on a connection share one reader.  A frame that it refuses ends the connection for all of
them: one with a wrong magic or over `RAILFS_MAX_FRAME`, one there is no memory for, one too short
to have an id, one of another type than the call wants, and a second one for a call.  The daemon
answers a request once, with the type that belongs to it and the id it came with, so only the first
two remain; and the limit of the mount is a megabyte, where that of the protocol is sixty-four.

The reply whose size has no bound is that of `onList`, which is as long as the directory.
-/

namespace Rail.Kernel.Replies

open List Option Wire Proto Control

/-- `RAILFS_MAX_FRAME`: one MiB. -/
def kernelMaxFrame : ℕ := 1048576

/-- Why a reader ends a connection. -/
inductive Refusal where
  | proto
  | msgSize
  | noMem
  | badMsg
  deriving DecidableEq

/-! ## The daemon -/

/-- What the daemon finds of a directory: the names with their attributes, where they could be read;
whether the directory was read to its end; its own attributes and those of the one above it. -/
structure Listing where
  entries : List (Bytes × Option FileAttrs)
  readable : Bool
  self : Option FileAttrs
  root : Bool
  parent : Option FileAttrs

/-- `listDirectory`: a name that is gone again is left out. -/
def listDirectory (l : Listing) : List ListEntry :=
  l.entries.filterMap fun e => e.2.map fun attrs => { name := e.1, attrs }

/-- `Service::onList`; the path may lead out of the root. -/
def onList (id : UInt64) : Option Listing → ListReply
  | none => { id }
  | some l =>
    if l.readable then
      match l.self with
      | none => { id, entries := listDirectory l }
      | some self =>
        { id, found := true, entries := listDirectory l, self
          parent := if l.root then self else l.parent.getD {} }
    else { id, entries := listDirectory l }

/-- What a handler finds; the id of a reply is the request's. -/
inductive Outcome where
  | stat (found : Option FileAttrs)
  | list (found : Option Listing)
  | transfer (reply : TransferReply)
  | meta_ (reply : MetaReply)
  | statFs (reply : StatFsReply)

/-- `Service::dispatch`, for the requests of the mount. -/
def dispatch : Message → Outcome → Option Message
  | .stat v, .stat found =>
      some (.statReply { id := v.id, found := found.isSome, attrs := found.getD {} })
  | .list v, .list found => some (.listReply (onList v.id found))
  | .read v, .transfer reply => some (.transferReply { reply with id := v.id })
  | .write v, .transfer reply => some (.transferReply { reply with id := v.id })
  | .meta_ v, .meta_ reply => some (.metaReply { reply with id := v.id })
  | .statFs v, .statFs reply => some (.statFsReply { reply with id := v.id })
  | _, _ => none

/-! ## The mount -/

/-- A `railfs_call` on the list of its connection. -/
structure Call where
  id : UInt64
  want : UInt16
  answered : Bool := false
  deriving DecidableEq

/-- The type that a request waits for, which is of the kernel's own `enum railfs_msg_type`. -/
def want : Request → Option UInt16
  | .hello _ _ => none
  | .stat _ => some 13
  | .list _ => some 15
  | .statFs _ => some 27
  | .read _ _ _ => some 18
  | .write _ _ _ _ _ => some 18
  | .meta_ _ _ _ _ _ _ => some 25

/-- `railfs_read_header`. -/
def readHeader (h : Bytes) : Except Refusal (UInt16 × ℕ) :=
  if ofLE (h.take 4) ≠ wireMagic.toNat then .error .proto
  else if kernelMaxFrame < ofLE ((h.drop 6).take 4) then .error .msgSize
  else .ok (UInt16.ofNat (ofLE ((h.drop 4).take 2)), ofLE ((h.drop 6).take 4))

/-- `railfs_deliver`. -/
def deliver (calls : List Call) (t : UInt16) (payload : Bytes) : Except Refusal (List Call) :=
  if payload.length < 8 then .error .badMsg
  else
    match calls.find? fun c => c.id = UInt64.ofNat (ofLE (payload.take 8)) with
    | none => .ok calls
    | some c =>
      if c.want ≠ t then .error .proto
      else if c.answered then .error .proto
      else .ok (calls.map fun d => if d.id = c.id then { d with answered := true } else d)

/-- One turn of `railfs_reader`: the calls after it, or why the connection ends. -/
def readFrame (calls : List Call) (alloc : Bool) (f : Bytes) : Except Refusal (List Call) :=
  match readHeader f with
  | .error e => .error e
  | .ok (t, n) => if alloc then deliver calls t ((f.drop headerSize).take n) else .error .noMem

/-- A connection, the requests the daemon has not answered, and the replies on their way. -/
structure Session where
  nextId : ℕ := 0
  calls : List Call := []
  asked : List Message := []
  wire : List Message := []
  dead : Option Refusal := none

inductive Event where
  /-- A call is registered and its request sent. -/
  | ask (q : Request)
  /-- A caller leaves, with its reply or without. -/
  | leave (id : UInt64)
  /-- The daemon answers one of the requests. -/
  | answer (k : ℕ) (x : Outcome)
  /-- The reader takes a frame; `alloc` is whether there is memory for it. -/
  | receive (alloc : Bool)

namespace Session

variable (s : Session)

/-- The id after the last one; there are fewer than `2 ^ 64`. -/
def ask (q : Request) : Option Session :=
  if s.nextId + 1 < 2 ^ 64 then
    (want q).map fun w =>
      { s with
        nextId := s.nextId + 1
        calls := s.calls ++ [{ id := UInt64.ofNat (s.nextId + 1), want := w }]
        asked := q.message (UInt64.ofNat (s.nextId + 1)) :: s.asked }
  else none

def answer (k : ℕ) (x : Outcome) : Option Session :=
  (s.asked[k]?).bind fun a =>
  (dispatch a x).bind fun m =>
    if (encode m).length ≤
      maxFrame then some { s with asked := s.asked.eraseIdx k, wire := s.wire ++ [m] } else none

def receive (alloc : Bool) : Option Session :=
  match s.dead, s.wire with
  | none, m :: rest =>
    match readFrame s.calls alloc (frame m) with
    | .error e => some { s with wire := rest, dead := some e }
    | .ok calls => some { s with wire := rest, calls }
  | _, _ => none

def step : Event → Option Session
  | .ask q => s.ask q
  | .leave id => some { s with calls := s.calls.filter fun c => c.id ≠ id }
  | .answer k x => s.answer k x
  | .receive alloc => s.receive alloc

variable {s t : Session} {m : Message} {x : Outcome}

theorem answer_eq {k : ℕ} {a : Message} (ha : s.asked[k]? = some a) (hm : dispatch a x = some m)
    (hfits : (encode m).length ≤ maxFrame) :
    s.answer k x = some { s with asked := s.asked.eraseIdx k, wire := s.wire ++ [m] } := by
  rw [answer, ha, bind_some, hm, bind_some, if_pos hfits]

/-! ## What a reply looks like -/

/-- A message that the daemon answers the mount with: it starts with its id. -/
def IsReply (m : Message) : Prop := ∃ w, encode m = Put.u64 m.id ++ w

/-- The type of the reply to a request. -/
def replyType : Message → Option UInt16
  | .stat _ => some 13
  | .list _ => some 15
  | .read _ => some 18
  | .write _ => some 18
  | .meta_ _ => some 25
  | .statFs _ => some 27
  | _ => none

theorem onList_id (id : UInt64) (found : Option Listing) : (onList id found).id = id := by
  cases found with
  | none => rfl
  | some l =>
    rw [onList]
    cases l.readable with
    | false => rfl
    | true => cases l.self <;> rfl

/-- **The daemon answers with the id of the request and the type that belongs to it.** -/
theorem dispatch_spec {a : Message} (h : dispatch a x = some m) :
    m.id = a.id ∧ replyType a = some m.type.code ∧ IsReply m := by
  cases a with
  | stat v =>
    cases x with
    | stat found =>
      cases h
      exact ⟨rfl, rfl, _, rfl⟩
    | _ => simp [dispatch] at h
  | list v =>
    cases x with
    | list found =>
      cases h
      exact ⟨onList_id _ _, rfl, _, rfl⟩
    | _ => simp [dispatch] at h
  | read v | write v =>
    cases x with
    | transfer reply =>
      cases h
      exact ⟨rfl, rfl, _, rfl⟩
    | _ => simp [dispatch] at h
  | meta_ v =>
    cases x with
    | meta_ reply =>
      cases h
      exact ⟨rfl, rfl, _, rfl⟩
    | _ => simp [dispatch] at h
  | statFs v =>
    cases x with
    | statFs reply =>
      cases h
      exact ⟨rfl, rfl, _, rfl⟩
    | _ => simp [dispatch] at h
  | _ => exact absurd h (by cases x <;> simp [dispatch])

theorem want_eq {q : Request} {w : UInt16} (id : UInt64) (h : want q = some w) :
    replyType (q.message id) = some w ∧ (q.message id).id = id := by
  cases q with
  | hello rdma verify => simp [want] at h
  | _ => exact ⟨h, rfl⟩

/-- The header of a frame of the protocol, as the mount reads it. -/
theorem readHeader_frame (m : Message) (h : (encode m).length ≤ maxFrame) :
    readHeader (frame m) = if (encode m).length ≤ kernelMaxFrame then .ok
    (m.type.code, (encode m).length) else .error .msgSize := by
  have hsmall : (encode m).length < 2 ^ 32 := lt_of_le_of_lt h (by decide)
  obtain ⟨hmagic, htype, hnum, -⟩ := header_fields m.type.code hsmall (encode m)
  have hours : ofLE ((header m.type.code (encode m).length ++ encode m).take 4) = wireMagic.toNat :=
    hmagic
  rw [readHeader, frame, if_neg (not_not_intro hours), hnum, htype]
  split_ifs with h₁ h₂ h₂
  · omega
  · rfl
  · rfl
  · omega

theorem payload_frame (m : Message) :
    ((frame m).drop headerSize).take (encode m).length = encode m := by
  rw [frame, drop_left' (length_header _ _), take_length]

theorem id_payload (h : IsReply m) :
    8 ≤ (encode m).length ∧ UInt64.ofNat (ofLE ((encode m).take 8)) = m.id := by
  obtain ⟨w, hw⟩ := h
  constructor
  · rw [hw, length_append, length_u64]
    omega
  · rw [hw, take_left' (length_u64 _), Put.u64, ofLE_le m.id.toNat_lt, UInt64.ofNat_toNat]

/-- A reply that its call waits for, if the call is still there, is taken; the other calls stay as
they are. -/
theorem deliver_spec {calls : List Call} (hm : IsReply m)
    (hdue : ∀ c ∈ calls, c.id = m.id → c.want = m.type.code ∧ c.answered = false) :
    ∃ calls', deliver calls m.type.code (encode m) = .ok calls' ∧
      ∀ c ∈ calls', ∃ d ∈ calls, c.id = d.id ∧ (c.id ≠ m.id → c = d) := by
  obtain ⟨hlong, hid⟩ := id_payload hm
  rw [deliver, if_neg (by omega), hid]
  cases hfind : calls.find? fun c => c.id = m.id with
  | none => exact ⟨calls, rfl, fun c hc => ⟨c, hc, rfl, fun _ => rfl⟩⟩
  | some c =>
    have hc : c.id = m.id := by simpa using find?_some hfind
    obtain ⟨hwant, hfresh⟩ := hdue c (mem_of_find?_eq_some hfind) hc
    refine ⟨calls.map fun d => if d.id = c.id then { d with answered := true } else d, ?_, ?_⟩
    · simp [hwant, hfresh]
    · intro d hd
      obtain ⟨e, he, rfl⟩ := List.mem_map.mp hd
      split_ifs with h
      · exact ⟨e, he, rfl, fun hne => absurd (h.trans hc) hne⟩
      · exact ⟨e, he, rfl, fun _ => rfl⟩

/-! ## Replies that are due -/

/-- The replies still to come, by id and type: of the requests not answered, and those on their
way. -/
def due (s : Session) : List (UInt64 × Option UInt16) :=
  s.asked.map (fun a => (a.id, replyType a)) ++ s.wire.map fun m => (m.id, some m.type.code)

/-- Each reply that is due is for a request of its own; a call that is still there waits for it. -/
structure Sound (s : Session) : Prop where
  small : s.nextId < 2 ^ 64
  ids : (s.due.map Prod.fst).Nodup
  issued : ∀ d ∈ s.due, d.1.toNat ≤ s.nextId
  called : ∀ c ∈ s.calls, c.id.toNat ≤ s.nextId
  awaited : ∀ d ∈ s.due, ∀ c ∈ s.calls, c.id = d.1 → d.2 = some c.want ∧ c.answered = false
  replies : ∀ m ∈ s.wire, IsReply m ∧ (encode m).length ≤ maxFrame

theorem Sound.initial : Sound {} := by
  constructor <;> simp [due]

theorem Sound.ask {s t : Session} {q : Request} (hs : s.Sound) (h : s.ask q = some t) :
    t.Sound := by
  obtain ⟨hsmall, h⟩ := ite_none_right_eq_some.mp h
  obtain ⟨w, hw, rfl⟩ := map_eq_some_iff.mp h
  obtain ⟨htype, hid⟩ := want_eq (UInt64.ofNat (s.nextId + 1)) hw
  have hnew : (UInt64.ofNat (s.nextId + 1)).toNat = s.nextId + 1 := UInt64.toNat_ofNat_of_lt' hsmall
  -- nothing has the new id yet, neither a call nor a reply that is due
  have hfresh : ∀ i : UInt64, i.toNat ≤ s.nextId → i ≠ UInt64.ofNat (s.nextId + 1) := by
    rintro i hi rfl
    omega
  have hdue : due { s with
      nextId := s.nextId + 1
      calls := s.calls ++ [{ id := UInt64.ofNat (s.nextId + 1), want := w }]
      asked := q.message (UInt64.ofNat (s.nextId + 1)) :: s.asked } =
      (UInt64.ofNat (s.nextId + 1), some w) :: s.due := by
    rw [due, map_cons, htype, hid, due, cons_append]
  constructor
  · exact hsmall
  · rw [hdue, map_cons, nodup_cons]
    refine ⟨?_, hs.ids⟩
    intro hmem
    obtain ⟨d, hd, he⟩ := List.mem_map.mp hmem
    exact hfresh d.1 (hs.issued d hd) he
  · rw [hdue]
    exact forall_mem_cons.mpr ⟨hnew.le, fun d hd => Nat.le_succ_of_le (hs.issued d hd)⟩
  · exact forall_mem_append.mpr ⟨fun c hc => Nat.le_succ_of_le (hs.called c hc),
      forall_mem_singleton.mpr hnew.le⟩
  · rw [hdue]
    intro d hd c hc he
    rcases mem_cons.mp hd with rfl | hd
    · rcases mem_append.mp hc with hc | hc
      · exact absurd he (hfresh c.id (hs.called c hc))
      · rw [mem_singleton.mp hc]
        exact ⟨rfl, rfl⟩
    · rcases mem_append.mp hc with hc | hc
      · exact hs.awaited d hd c hc he
      · rw [mem_singleton.mp hc] at he
        exact absurd he.symm (hfresh d.1 (hs.issued d hd))
  · exact hs.replies

/-- Fewer calls, and the same replies in another order or fewer of them. -/
theorem Sound.weaken (hs : s.Sound) (hnext : t.nextId = s.nextId)
    (hdue : ∃ l, List.Perm l t.due ∧ l.Sublist s.due)
    (hcalls : ∀ c ∈ t.calls, ∃ d ∈ s.calls, c.id = d.id)
    (hsame : ∀ d ∈ t.due, ∀ c ∈ t.calls, c.id = d.1 → c ∈ s.calls)
    (hwire : ∀ m ∈ t.wire, IsReply m ∧ (encode m).length ≤ maxFrame) : t.Sound := by
  obtain ⟨l, hperm, hsub⟩ := hdue
  have hmem : ∀ d ∈ t.due, d ∈ s.due := fun d hd => hsub.mem (hperm.mem_iff.mpr hd)
  constructor
  · exact hnext ▸ hs.small
  · exact (hperm.map Prod.fst).nodup_iff.mp (hs.ids.sublist (hsub.map Prod.fst))
  · exact fun d hd => hnext ▸ hs.issued d (hmem d hd)
  · intro c hc
    obtain ⟨d, hd, he⟩ := hcalls c hc
    rw [he, hnext]
    exact hs.called d hd
  · exact fun d hd c hc he => hs.awaited d (hmem d hd) c (hsame d hd c hc he) he
  · exact hwire

theorem Sound.answer {k : ℕ} (hs : s.Sound) (h : s.answer k x = some t) : t.Sound := by
  obtain ⟨a, ha, h⟩ := bind_eq_some_iff.mp h
  obtain ⟨m, hm, h⟩ := bind_eq_some_iff.mp h
  obtain ⟨hfits, h⟩ := ite_none_right_eq_some.mp h
  cases h
  obtain ⟨hid, htype, hreply⟩ := dispatch_spec hm
  refine hs.weaken rfl ⟨s.due, ?_, .refl _⟩ (fun c hc => ⟨c, hc, rfl⟩) (fun _ _ c hc _ => hc) ?_
  · -- the entry of the request becomes the entry of the reply
    obtain ⟨hk, rfl⟩ := List.getElem?_eq_some_iff.mp ha
    have hasked := (getElem_cons_eraseIdx_perm hk).map fun a => (a.id, replyType a)
    rw [map_cons, htype, ← hid] at hasked
    refine (hasked.symm.append_right _).trans ?_
    rw [due, map_append, map_singleton, ← append_assoc]
    exact (perm_append_singleton _ _).symm
  · exact forall_mem_append.mpr ⟨hs.replies, forall_mem_singleton.mpr ⟨hreply, hfits⟩⟩

/-- **What the reader does with the next reply.** -/
theorem Sound.readFrame (hs : s.Sound) {rest : List Message} (hw : s.wire = m :: rest)
    (alloc : Bool) :
    (alloc = true ∧ (encode m).length ≤ kernelMaxFrame ∧
      ∃ calls, readFrame s.calls alloc (frame m) = .ok calls ∧ ∀ c ∈ calls, ∃ d ∈ s.calls,
      c.id = d.id ∧ (c.id ≠ m.id → c = d)) ∨ (¬(alloc = true ∧ (encode m).length ≤ kernelMaxFrame) ∧
        ∃ e, readFrame s.calls alloc (frame m) = .error e) := by
  have hmem : m ∈ s.wire := hw ▸ mem_cons_self
  obtain ⟨hreply, hfits⟩ := hs.replies m hmem
  rw [Replies.readFrame, readHeader_frame m hfits]
  by_cases hsize : (encode m).length ≤ kernelMaxFrame
  · rw [if_pos hsize]
    cases alloc with
    | false => exact .inr ⟨by simp, .noMem, rfl⟩
    | true =>
      obtain ⟨calls, hcalls, hkeep⟩ := deliver_spec (m := m) hreply fun c hc he => by
        have hdue : (m.id, some m.type.code) ∈ s.due :=
          mem_append_right _ (List.mem_map_of_mem (f := fun m => (m.id, some m.type.code)) hmem)
        obtain ⟨htype, hfresh⟩ := hs.awaited _ hdue c hc he
        exact ⟨(some.inj htype).symm, hfresh⟩
      refine .inl ⟨rfl, hsize, calls, ?_, hkeep⟩
      show deliver s.calls m.type.code (((frame m).drop headerSize).take (encode m).length) = _
      rw [payload_frame, hcalls]
  · rw [if_neg hsize]
    exact .inr ⟨fun h => hsize h.2, .msgSize, rfl⟩

theorem Sound.receive {alloc : Bool} (hs : s.Sound) (h : s.receive alloc = some t) : t.Sound := by
  rw [Session.receive] at h
  cases hdead : s.dead with
  | some e => simp [hdead] at h
  | none =>
    cases hw : s.wire with
    | nil => simp [hdead, hw] at h
    | cons m rest =>
      have hdue : s.due = s.asked.map (fun a => (a.id, replyType a)) ++
          (m.id, some m.type.code) :: rest.map fun m => (m.id, some m.type.code) := by
        rw [due, hw, map_cons]
      have hsub : (s.asked.map (fun a => (a.id, replyType a)) ++ rest.map fun m =>
        (m.id, some m.type.code)).Sublist s.due := by
        rw [hdue]
        exact (List.Sublist.refl _).append (sublist_cons_self _ _)
      have hwire : ∀ n ∈ rest, IsReply n ∧ (encode n).length ≤ maxFrame :=
        fun n hn => hs.replies n (hw ▸ mem_cons_of_mem _ hn)
      rw [hdead, hw] at h
      rcases hs.readFrame hw alloc with ⟨-, -, calls, hread, hkeep⟩ | ⟨-, e, hread⟩
      · simp only [hread] at h
        cases h
        refine hs.weaken rfl ⟨_, .refl _, hsub⟩ (fun c hc => ?_) (fun d hd c hc he => ?_) hwire
        · obtain ⟨d, hd, he, -⟩ := hkeep c hc
          exact ⟨d, hd, he⟩
        · obtain ⟨c', hc', -, heq⟩ := hkeep c hc
          -- the id of the reply just taken is not due a second time
          have hne : d.1 ≠ m.id := by
            have hnodup := hs.ids
            rw [hdue, map_append, map_cons, nodup_middle, nodup_cons, ← map_append] at hnodup
            intro heq
            have hin := List.mem_map_of_mem (f := Prod.fst) hd
            rw [heq] at hin
            exact hnodup.1 hin
          rw [heq (he ▸ hne)]
          exact hc'
      · simp only [hread] at h
        cases h
        exact hs.weaken rfl ⟨_, .refl _, hsub⟩ (fun c hc => ⟨c, hc, rfl⟩) (fun _ _ c hc _ =>
          hc) hwire

theorem Sound.step {e : Event} (hs : s.Sound) (h : s.step e = some t) : t.Sound := by
  cases e with
  | ask q => exact hs.ask h
  | leave id =>
    cases h
    exact hs.weaken rfl ⟨_, .refl _, .refl _⟩
      (fun c hc => ⟨c, (mem_filter.mp hc).1, rfl⟩) (fun _ _ c hc _ => (mem_filter.mp hc).1)
      hs.replies
  | answer k x => exact hs.answer h
  | receive alloc => exact hs.receive h

theorem Sound.of_run {es : List Event} (h : Runs.exec Session.step {} es = some s) : s.Sound :=
  Runs.exec_invariant (fun hs _ h => Sound.step hs h) Sound.initial (Runs.meets_true es _) h

theorem Sound.accepts (hs : s.Sound) (hlive : s.dead = none) {rest : List Message}
    (hw : s.wire = m :: rest) (alloc : Bool) : ∃ t, s.step (.receive alloc) = some t ∧
      (t.dead = none ↔ alloc = true ∧ (encode m).length ≤ kernelMaxFrame) := by
  rcases hs.readFrame hw alloc with ⟨halloc, hsize, calls, hread, -⟩ | ⟨hnot, e, hread⟩
  · refine ⟨{ s with wire := rest, calls }, ?_, iff_of_true hlive ⟨halloc, hsize⟩⟩
    rw [Session.step, Session.receive, hlive, hw]
    simp only [hread]
  · refine ⟨{ s with wire := rest, dead := some e }, ?_, iff_of_false (some_ne_none e) hnot⟩
    rw [Session.step, Session.receive, hlive, hw]
    simp only [hread]

/-- **A reply is accepted if there is memory for it and it is not over the limit of the mount**, and
otherwise ends the connection: in every state of every connection, for whatever the daemon found. -/
theorem reply_accepted_iff (es : List Event) (s : Session) (hrun : Runs.exec step {} es = some s)
    (hlive : s.dead = none) (m : Message) (rest : List Message) (hw : s.wire = m :: rest)
    (alloc : Bool) :
    ∃ t, s.step (.receive alloc) = some t ∧
      (t.dead = none ↔ alloc = true ∧ (encode m).length ≤ kernelMaxFrame) :=
  (Sound.of_run hrun).accepts hlive hw alloc

/-- A file `a`, a name that is gone again, and a directory `cd`. -/
def few : Listing where
  entries := [([97], some {}), ([98], none), ([99, 100], some { directory := true })]
  readable := true
  self := some { directory := true }
  root := true
  parent := none

/-- The mount asks for the root, and the daemon answers with what it finds there. -/
theorem listed {l : Listing} (hfits : (encode (.listReply (onList 1 (some l)))).length ≤ maxFrame) :
    Runs.exec step {} [.ask (.list ⟨[], by decide⟩), .answer 0 (.list (some l))] =
      some { nextId := 1, calls := [{ id := 1, want := 15 }], wire :=
      [.listReply (onList 1 (some l))] } := by
  have hask : Session.ask {} (.list ⟨[], by decide⟩) =
      some { nextId := 1, calls := [{ id := 1, want := 15 }], asked := [.list { id := 1 }] } := rfl
  rw [Runs.exec, step, hask, bind_some, Runs.exec, step, answer_eq rfl rfl hfits]
  rfl

/-- The reply for a directory with two entries is taken. -/
theorem reply_accepted_two :
    ∃ s t, Runs.exec step {} [.ask (.list ⟨[], by decide⟩), .answer 0 (.list (some few))] = some s ∧
      s.step (.receive true) = some t ∧ t.dead = none := by
  have hrun := listed (l := few) (by decide +kernel)
  obtain ⟨t, ht, hiff⟩ := reply_accepted_iff _ _ hrun rfl _ _ rfl true
  exact ⟨_, t, hrun, ht, hiff.mpr ⟨rfl, by decide +kernel⟩⟩

/-! ## A directory that is too large -/

/-- Names of four letters, counted up. -/
def fourLetters (i : ℕ) : Bytes :=
  [i / 17576, i / 676, i / 26, i].map fun k => UInt8.ofNat (97 + k % 26)

/-- A directory of twenty thousand files. -/
def crowded : Listing where
  entries := (List.range 20000).map fun i => (fourLetters i, some {})
  readable := true
  self := some { directory := true }
  root := true
  parent := none

theorem length_crowded (id : UInt64) :
    (encode (.listReply (onList id (some crowded)))).length = 1160113 := by
  have hentries : listDirectory crowded = (List.range 20000).map fun i =>
    { name := fourLetters i } := by
    rw [listDirectory, crowded, filterMap_map]
    exact filterMap_eq_map ▸ rfl
  have heach : (Put.each writeEntry (listDirectory crowded)).length = 20000 * 58 := by
    have hsame : ∀ n ∈ (listDirectory crowded).map fun e => (writeEntry e).length, n = 58 := by
      rw [hentries, List.map_map]
      intro n hn
      obtain ⟨i, -, rfl⟩ := List.mem_map.mp hn
      simp [writeEntry, writeAttrs, fourLetters]
    rw [Put.each, length_flatMap, eq_replicate_of_mem hsame, sum_replicate_nat, length_map,
      hentries, length_map, length_range]
  have hreply : onList id (some crowded) =
      { id, found := true, entries := listDirectory crowded, self := { directory := true },
        parent := { directory := true } } := rfl
  rw [hreply]
  simp [encode, heach, writeAttrs]

/-- The mount lists a directory of twenty thousand files: the reply is far under the limit of the
protocol, and ends the connection. -/
theorem crowded_directory_ends_connection :
    ¬ ∀ (es : List Event) (s : Session), Runs.exec step {} es = some s → s.dead = none →
      ∀ (m : Message) (rest : List Message), s.wire = m :: rest →
        ∃ t, s.step (.receive true) = some t ∧ t.dead = none := by
  intro hall
  have hrun := listed (l := crowded) (by rw [length_crowded]; decide)
  obtain ⟨t, ht, hlive⟩ := hall _ _ hrun rfl _ _ rfl
  obtain ⟨t', ht', hiff⟩ := (Sound.of_run hrun).accepts rfl rfl true
  obtain rfl := mem_unique ht ht'
  have hsize := (hiff.mp hlive).2
  rw [length_crowded] at hsize
  exact absurd hsize (by decide)

end Session
end Rail.Kernel.Replies
