import Rail.Transfer.Landing
import Rail.Transfer.PageSender

/-!
# Receiving a stream of pages

`PageReceiver` of `src/stream/page-stream.cc`.  A receiver keeps receives ahead of it (`Receiving`)
and writes behind it (`Writes`).

* `PageReceiver.Inv`: it names every operation that has not ended; and in a plain file the receives
  posted go on from what was hashed, which is in its place but for the writes still waited for
  (`Landed`).
* `PageReceiver.land_spec`: it returns with nothing outstanding, and when it returns without an
  error the temporary file holds what was hashed.

A page of 2 ^ 32 bytes or more has no length: a loop that comes to one posts empty receives for ever
(`Doomed`).
-/

namespace Rail.Transfer

open List ByteFile Coroutine

variable {π μ γ : Type}

/-- `PageReceiver::Posted`. -/
structure Posted where
  id : ℕ
  offset : ℕ
  length : ℕ
  /-- `Direct`: the sink's own page. -/
  own : Bool := false
  deriving DecidableEq

/-- `PageSink`. -/
structure Sink where
  /-- Writes have to be aligned. -/
  direct : Bool := false
  /-- The sink has a registered page of its own for these bytes. -/
  landing : (offset length : ℕ) → Bool := fun _ _ => false

/-- `writeLength`. -/
def Sink.writeLength (k : Sink) (length : ℕ) : ℕ := if k.direct then alignUp length else length

structure PageReceiver where
  receiving : List Posted := []
  writes : List ℕ := []
  /-- What has been hashed. -/
  whole : Bytes := []
  deriving DecidableEq

namespace PageReceiver

section Code

variable (c : Streaming) (sink : Sink) (s : PageReceiver)

def popReceiving : PageReceiver := { s with receiving := s.receiving.tail }

def popWrites : PageReceiver := { s with writes := s.writes.tail }

/-- A page that has come is hashed, and written unless it is where it belongs.  A direct write is
padded with whatever lies behind it in the page. -/
def keep (p : Posted) (bytes : Bytes) : Pipe π μ γ PageReceiver Unit := do
  Co.modify fun s => { s with whole := s.whole ++ bytes }
  if p.own then return ()
  else
    let padded := min (sink.writeLength bytes.length) c.pageSize
    let tail ← Pipe.slack (padded - bytes.length)
    Pipe.orFail (Pipe.submit (.write p.offset (bytes ++ tail)) fun id s =>
      { s with writes := s.writes ++ [id] }) .submit

/-- `PageReceiver::store`. -/
def store (left : ℕ) : Pipe π μ γ PageReceiver Unit :=
  Pipe.drainWith (·.receiving) Posted.id popReceiving .receive (keep c sink) left

/-- `PageReceiver::awaitWrites`. -/
def awaitWrites (keep : ℕ) : Pipe π μ γ PageReceiver Unit :=
  Pipe.drainTo (·.writes) popWrites .write keep

/-- Post a receive. -/
def post (offset length : ℕ) (own : Bool) : Pipe π μ γ PageReceiver Unit :=
  Pipe.launch (.recv (c.key offset) length) fun id s =>
    { s with receiving := s.receiving ++ [{ id, offset, length, own }] }

/-- The pages in the queues; one that lands where it belongs is not the pool's, but is counted. -/
def held : ℕ := s.receiving.length + s.writes.length

/-- The loop of `run`, from a page on. -/
def runLoop (end_ : ℕ) : (fuel at_ : ℕ) → Pipe π μ γ PageReceiver Unit
  | 0, _ => Co.hang
  | fuel + 1, at_ => do
      if at_ < end_ then
        store c sink (c.geometry.window - 1)
        awaitWrites c.geometry.writeDepth
        let take := c.take (end_ - at_)
        if sink.landing at_ take then
          post c at_ take true
          runLoop end_ fuel (at_ + take)
        else
          Pipe.orFail (Pipe.acquire held) .memory
          post c at_ take false
          runLoop end_ fuel (at_ + take)
      else return ()

/-- `PageReceiver::run`. -/
def run (fuel offset length : ℕ) : Pipe π μ γ PageReceiver ℕ := do
  runLoop c sink (pastEnd offset length) fuel offset
  store c sink 0
  awaitWrites 0
  return length

/-- `PageReceiver::quiesce`. -/
def quiesce : Pipe π μ γ PageReceiver Unit := do
  Pipe.quiesceQueue (fun s => s.receiving.map Posted.id) popReceiving
  Pipe.quiesceQueue (·.writes) popWrites

/-- `PageReceiver::land`. -/
def land (fuel offset length : ℕ) : Pipe π μ γ PageReceiver ℕ := do
  let outcome ← Co.outcome (run c sink fuel offset length)
  quiesce
  match outcome with
  | .ok n => return n
  | .error f => Co.fail f

end Code

/-! ### What a receiver keeps to -/

/-- The operations that the receiver has to look after. -/
def ids (s : PageReceiver) : List ℕ := s.receiving.map Posted.id ++ s.writes

end PageReceiver

/-- The pages posted follow each other from one offset to another; all but the last of the file are
aligned when writes have to be. -/
def Queued (c : Streaming) (sink : Sink) (size : ℕ) : ℕ → List Posted → ℕ → Prop
  | a, [], b => a = b
  | a, p :: rest, b =>
    (p.offset = a ∧ p.own = false ∧ p.length ≤ c.pageSize ∧
      (sink.direct = true → p.length % directAlignment = 0 ∨ a + p.length = size)) ∧
      Queued c sink size (a + p.length) rest b

variable {p : Posted} {q : List Posted}

theorem Queued.le {c : Streaming} {sink : Sink} {size a b : ℕ} (h : Queued c sink size a q b) :
    a ≤ b := by
  induction q generalizing a with
  | nil => exact le_of_eq h
  | cons p rest ih => exact (Nat.le_add_right _ _).trans (ih h.2)

theorem Queued.snoc {c : Streaming} {sink : Sink} {size a b : ℕ} (h : Queued c sink size a q b)
    (hoffset : p.offset = b) (hown : p.own = false) (hpage : p.length ≤ c.pageSize)
    (halign : sink.direct = true → p.length % directAlignment = 0 ∨ b + p.length = size) :
    Queued c sink size a (q ++ [p]) (b + p.length) := by
  induction q generalizing a with
  | nil =>
    obtain rfl : a = b := h
    exact ⟨⟨hoffset, hown, hpage, halign⟩, rfl⟩
  | cons q₀ rest ih => exact ⟨h.1, ih h.2⟩

/-- A whole file lands in a sink that has no pages of its own. -/
structure Sink.Plain (e : Env μ) (c : Streaming) (sink : Sink) (offset : ℕ) : Prop where
  start : offset = 0
  landing : ∀ offset length, sink.landing offset length = false
  aligned : sink.direct = true → c.pageSize % directAlignment = 0
  lengths : ∀ key length bytes, e.brings key length bytes → bytes.length = length

/-- What arrives under a key is what the file has there. -/
def Brings (e : Env μ) (c : Streaming) (remote : Bytes) (size : ℕ) : Prop :=
  ∀ offset length bytes, offset + length ≤ size → e.brings (c.key offset) length bytes →
    bytes = slice remote offset length

namespace PageReceiver

section Invariant

variable (e : Env μ) (c : Streaming) (sink : Sink) (w₀ : Io π μ γ) (remote : Bytes)
  (offset size : ℕ)

/-- The receives posted go on from what was hashed, and what was hashed lands. -/
structure Sound (at_ : ℕ) (s : PageReceiver) (w : Io π μ γ) : Prop where
  queued : Queued c sink size s.whole.length s.receiving at_
  at_le : at_ ≤ size
  landed : Landed size s.whole s.writes w
  got : Brings e c remote size → s.whole = slice remote 0 s.whole.length

/-- The loop posts empty pages for ever: what is left fits a page and has no 32-bit length. -/
def Doomed (at_ : ℕ) : Prop := at_ < size ∧ c.take (size - at_) = 0

/-- What a receiver keeps to. -/
structure Inv (at_ : ℕ) (s : PageReceiver) (w : Io π μ γ) : Prop where
  held : Held e w₀ s.ids w
  asked : ∀ p ∈ s.receiving, w.works[p.id]? = some (.recv (c.key p.offset) p.length)
  sound : sink.Plain e c offset → Sound e c sink remote size at_ s w ∨ Doomed c size at_

/-- A page has come, and is at the front still: it is to be taken off and hashed. -/
structure Took (at_ : ℕ) (p : Posted) (bytes : Bytes) (s : PageReceiver) (w : Io π μ γ) : Prop where
  inv : Inv e c sink w₀ remote offset size at_ s w
  front : ∃ rest, s.receiving = p :: rest
  ended : w.ops[p.id]? = some ⟨.recv (c.key p.offset) p.length, some (.done bytes)⟩

/-- The receiver with the front taken off and hashed. -/
def hashed (bytes : Bytes) (s : PageReceiver) : PageReceiver :=
  { s.popReceiving with whole := s.whole ++ bytes }

/-- What a receiver that has returned without an error leaves. -/
def Received (s : PageReceiver) (w : Io π μ γ) : Prop :=
  sink.Plain e c offset → Landed size s.whole [] w ∧ s.whole.length = size ∧
    (Brings e c remote size → s.whole = slice remote 0 size)

end Invariant

section Invariant

variable {e : Env μ} {c : Streaming} {sink : Sink} {w₀ : Io π μ γ} {remote : Bytes}
  {offset size at_ : ℕ}

variable {bytes : Bytes} {s : PageReceiver} {w : Io π μ γ}

theorem inv_stable [DecidableEq π] : Stable (io e) (Inv e c sink w₀ remote offset size at_) := by
  intro s w w' h hd
  refine ⟨h.held.drift hd, ?_, fun hplain => (h.sound hplain).imp_left fun hs => ?_⟩
  · rw [works_of_drift hd]
    exact h.asked
  · exact { hs with landed := hs.landed.drift hd }

/-- A write that worked is taken off. -/
theorem Inv.pop_writes (h : Inv e c sink w₀ remote offset size at_ s w) {id : ℕ} {rest : List ℕ}
    {work : Work} (hq : s.writes = id :: rest)
    (hended : w.ops[id]? = some ⟨work, some (.done bytes)⟩) :
    Inv e c sink w₀ remote offset size at_ s.popWrites w where
  held := h.held.drop hended (mem_of_pop_right hq)
  asked := h.asked
  sound := fun hplain => (h.sound hplain).imp_left fun hs => by
    have hlanded := hs.landed
    rw [hq] at hlanded
    refine { hs with landed := ?_ }
    rw [popWrites, hq]
    exact hlanded.reap hended

/-- A page that is neither aligned nor the last is what is left of a page too long for its
length. -/
theorem doomed_of_unaligned (hpage : c.pageSize % directAlignment = 0) (hlt : at_ < size)
    (halign : c.take (size - at_) % directAlignment ≠ 0)
    (hlast : at_ + c.take (size - at_) ≠ size) : Doomed c size (at_ + c.take (size - at_)) := by
  have htake := c.take_le (size - at_)
  refine ⟨by omega, ?_⟩
  rw [directAlignment] at hpage halign
  rw [Nat.sub_add_eq, Streaming.take]
  generalize hleft : size - at_ = left at *
  generalize ht : c.take left = t at *
  rw [Streaming.take] at ht
  omega

/-- A receive is posted for the next page. -/
theorem Inv.post (h : Inv e c sink w₀ remote offset size at_ s w) (hlt : at_ < size) {own : Bool}
    (hown : own = sink.landing at_ (c.take (size - at_))) :
    Inv e c sink w₀ remote offset size (at_ + c.take (size - at_))
      { s with receiving := s.receiving ++ [⟨w.ops.length, at_, c.take (size - at_), own⟩] }
      (w.begin_ (.recv (c.key at_) (c.take (size - at_)))) where
  held := by
    refine h.held.begin _ ?_
    rw [ids, ids, map_append]
    exact push_left_subset _ _ _
  asked := forall_mem_append.mpr ⟨fun p hp => works_begin_of_some (h.asked p hp),
    forall_mem_singleton.mpr (works_begin_last w _)⟩
  sound := by
    intro hplain
    have htake := c.take_le (size - at_)
    rcases h.sound hplain with hs | hdoomed
    · by_cases halign : sink.direct = true →
        c.take (size - at_) % directAlignment = 0 ∨ at_ + c.take (size - at_) = size
      · refine .inl ⟨?_, by omega, hs.landed.begin_ fun _ _ hw => (by cases hw), hs.got⟩
        exact hs.queued.snoc rfl (hown.trans (hplain.landing _ _)) (c.take_le_page _) halign
      · -- a page of at least 2 ^ 32 bytes is left, and less than the pool's: the rest has length 0
        obtain ⟨hdirect, hrest⟩ := Classical.not_imp.mp halign
        exact .inr (doomed_of_unaligned (hplain.aligned hdirect) hlt (fun h0 => hrest (.inl h0))
          fun hend => hrest (.inr hend))
    · rw [hdoomed.2, Nat.add_zero]
      exact .inr hdoomed

theorem Took.stable [DecidableEq π] :
    Stable (io e) (Took e c sink w₀ remote offset size at_ p bytes) :=
  fun s w w' h hd => ⟨inv_stable s w w' h.inv hd, h.front, ended_of_drift hd h.ended⟩

section

variable (h : Took e c sink w₀ remote offset size at_ p bytes s w)
include h

theorem Took.held : Held e w₀ (s.hashed bytes).ids w := by
  obtain ⟨rest, hq⟩ := h.front
  exact h.inv.held.drop h.ended (mem_of_pop_left hq)

theorem Took.asked :
    ∀ q ∈ (s.hashed bytes).receiving, w.works[q.id]? = some (.recv (c.key q.offset) q.length) := by
  obtain ⟨rest, hq⟩ := h.front
  intro q hmem
  refine h.inv.asked q ?_
  rw [hashed, popReceiving, hq] at hmem
  rw [hq]
  exact mem_cons_of_mem _ hmem

theorem Took.brought : e.brings (c.key p.offset) p.length bytes :=
  h.inv.held.honest _ (mem_of_getElem? h.ended)

/-- A page that came straight to its place. -/
theorem Took.landed (hown : p.own = true) :
    Inv e c sink w₀ remote offset size at_ (s.hashed bytes) w where
  held := h.held
  asked := h.asked
  sound := fun hplain => (h.inv.sound hplain).imp_left fun hs => by
    obtain ⟨rest, hq⟩ := h.front
    have hqueued := hs.queued
    rw [hq] at hqueued
    rw [hqueued.1.2.1] at hown
    cases hown

end

theorem writeLength_sub (hdirect : sink.direct = true → p.length % directAlignment = 0)
    (hlen : bytes.length = p.length) :
    min (sink.writeLength bytes.length) c.pageSize - bytes.length = 0 := by
  have hsame : sink.writeLength bytes.length = bytes.length := by
    rw [Sink.writeLength]
    split_ifs with hd
    · exact alignUp_of_aligned (by rw [hlen]; exact hdirect hd)
    · rfl
  omega

/-- A page is hashed, and its write is submitted. -/
theorem Took.written {tail : Bytes} (h : Took e c sink w₀ remote offset size at_ p bytes s w)
    (htail : tail.length = min (sink.writeLength bytes.length) c.pageSize - bytes.length) :
    Inv e c sink w₀ remote offset size at_
      { s.hashed bytes with writes := (s.hashed bytes).writes ++ [w.ops.length] }
      (w.begin_ (.write p.offset (bytes ++ tail))) where
  held := by
    refine h.held.begin _ ?_
    rw [ids, ids, append_assoc]
    exact .refl _
  asked := fun q hq => works_begin_of_some (h.asked q hq)
  sound := by
    intro hplain
    refine (h.inv.sound hplain).imp_left fun hs => ?_
    obtain ⟨rest, hq⟩ := h.front
    have hqueued := hs.queued
    rw [hq] at hqueued
    obtain ⟨⟨hoffset, -, -, halign⟩, hqueued⟩ := hqueued
    have hlen := hplain.lengths _ _ _ h.brought
    have hle := hqueued.le
    have hat := hs.at_le
    have hpad : tail = [] ∨ s.whole.length + bytes.length = size := by
      by_cases hlast : s.whole.length + p.length = size
      · exact .inr (by omega)
      · refine .inl (length_eq_zero_iff.mp ?_)
        rw [htail]
        exact writeLength_sub (fun hd => (halign hd).resolve_right hlast) hlen
    refine ⟨?_, hat, ?_, fun hbrings => ?_⟩
    · rw [show (s.hashed bytes).whole = s.whole ++ bytes from rfl, length_append, hlen, hashed,
        popReceiving, hq]
      exact hqueued
    · rw [hoffset]
      exact hs.landed.write (by omega) hpad
    · have hslice := hbrings _ _ _ (by omega) h.brought
      rw [show (s.hashed bytes).whole = s.whole ++ bytes from rfl, length_append, hlen,
        ← slice_append_slice, ← hs.got hbrings, Nat.zero_add, ← hoffset, ← hslice]

variable [DecidableEq π]

theorem keep_spec : Triple (io e) (fun _ _ => True)
      (fun s w => ∃ u, s = popReceiving u ∧ Took e c sink w₀ remote offset size at_ p bytes u w)
      (keep c sink p bytes) (fun _ => Inv e c sink w₀ remote offset size at_)
      fun _ s w => Held e w₀ s.ids w := by
  rw [keep]
  refine .bind (M := fun _ s w => ∃ u, s = hashed bytes u ∧
    Took e c sink w₀ remote offset size at_ p bytes u w)
    (.modify ?_) fun _ => .ite (fun hown => .pure ?_) fun _ => ?_
  · rintro s w ⟨u, rfl, h⟩
    exact ⟨u, rfl, h⟩
  · rintro s w ⟨u, rfl, h⟩
    exact h.landed hown
  have hstable : Stable (io (π := π) (γ := γ) e)
      fun s w => ∃ u, s = hashed bytes u ∧ Took e c sink w₀ remote offset size at_ p bytes u w := by
    rintro s w w' ⟨u, hs, h⟩ hd
    exact ⟨u, hs, .stable u w w' h hd⟩
  refine .bind (M := fun (tail : Bytes) s w =>
      (∃ u, s = hashed bytes u ∧ Took e c sink w₀ remote offset size at_ p bytes u w) ∧
        tail.length = min (sink.writeLength bytes.length) c.pageSize - bytes.length)
    (.ask hstable free ?_) fun tail => ?_
  · rintro s w tail w' h ⟨hlen, rfl⟩
    exact ⟨h, hlen⟩
  refine Pipe.orFail_spec (Pipe.submit_spec ?_ free ?_ ?_)
  · exact fun s w w' h hd => ⟨hstable s w w' h.1 hd, h.2⟩
  · rintro s w left ⟨⟨u, rfl, h⟩, -⟩
    exact h.held.left left
  · rintro s w ⟨⟨u, rfl, h⟩, hlen⟩
    exact h.written hlen

theorem store_spec {left : ℕ} :
    Triple (io e) (fun _ _ => True) (Inv e c sink w₀ remote offset size at_)
    (store c sink left) (fun _ s w => Inv e c sink w₀ remote offset size at_ s w ∧
      s.receiving.length ≤ left) fun _ s w => Held e w₀ s.ids w := by
  refine Pipe.drainWith_spec inv_stable (fun _ => free) ?_ ?_ fun p bytes => keep_spec
  · intro s w p rest work bytes h hq hended
    have hwork := h.asked p (by rw [hq]; exact mem_cons_self)
    rw [works_getElem? hended] at hwork
    cases hwork
    exact ⟨s, rfl, h, ⟨rest, hq⟩, hended⟩
  · exact fun s w p rest work h hq hended => h.held.drop hended (mem_of_pop_left hq)

theorem awaitWrites_spec {left posted : ℕ} : Triple (io e) (fun _ _ => True)
      (fun s w => Inv e c sink w₀ remote offset size at_ s w ∧ s.receiving.length ≤ posted)
      (awaitWrites left)
      (fun _ s w => (Inv e c sink w₀ remote offset size at_ s w ∧ s.receiving.length ≤ posted) ∧
      s.writes.length ≤ left) fun _ s w => Held e w₀ s.ids w := by
  refine Pipe.drainTo_spec ?_ (fun _ => free) ?_ ?_
  · exact fun s w w' h hd => ⟨inv_stable s w w' h.1 hd, h.2⟩
  · exact fun s w id rest work bytes h hq hended => ⟨h.1.pop_writes hq hended, h.2⟩
  · exact fun s w id rest work h hq hended => h.1.held.drop hended (mem_of_pop_right hq)

theorem post_spec {own : Bool} (hlt : at_ < size)
    (hown : own = sink.landing at_ (c.take (size - at_))) :
    Triple (io e) (fun _ _ => True) (Inv e c sink w₀ remote offset size at_)
      (post c at_ (c.take (size - at_)) own)
      (fun _ => Inv e c sink w₀ remote offset size (at_ + c.take (size - at_))) fun _ s w =>
      Held e w₀ s.ids w :=
  Pipe.launch_spec inv_stable free fun _ _ h => h.post hlt hown

theorem runLoop_spec (fuel at_ : ℕ) :
    Triple (io e) (fun _ _ => True) (Inv e c sink w₀ remote offset size at_)
    (runLoop c sink size fuel at_)
    (fun _ s w => ∃ a, size ≤ a ∧ Inv e c sink w₀ remote offset size a s w) fun _ s w =>
    Held e w₀ s.ids w := by
  induction fuel generalizing at_ with
  | zero => exact .hang
  | succ fuel ih =>
    rw [runLoop]
    refine .ite (fun hlt => ?_) fun hstop => .pure fun s w h => ⟨at_, Nat.le_of_not_lt hstop, h⟩
    refine .bind store_spec fun _ => .bind awaitWrites_spec fun _ => ?_
    dsimp only
    refine .ite (fun hown => ?_) fun hown => ?_
    · exact .bind ((post_spec hlt hown.symm).pre fun _ _ h => h.1.1) fun _ => ih _
    · refine .bind (M := fun _ => Inv e c sink w₀ remote offset size at_)
        ((Pipe.acquire_spec inv_stable free fun _ _ h => h.held).pre fun _ _ h => h.1.1) fun _ => ?_
      exact .bind (post_spec hlt (Bool.eq_false_iff.mpr hown).symm) fun _ => ih _

theorem run_spec {fuel length : ℕ} :
    Triple (io e) (fun _ _ => True) (Inv e c sink w₀ remote offset (pastEnd offset length) offset)
      (run c sink fuel offset length)
      (fun n s w => n = length ∧ (s.receiving = [] ∧ s.writes = []) ∧ Held e w₀ s.ids w ∧
        Received e c sink remote offset (pastEnd offset length) s w) fun _ s w =>
        Held e w₀ s.ids w := by
  rw [run]
  refine .bind (runLoop_spec fuel offset) fun _ => .exists fun a => .fact fun hend => ?_
  refine .bind store_spec fun _ => .bind awaitWrites_spec fun _ => .pure ?_
  rintro s w ⟨⟨h, hposted⟩, hwrites⟩
  have hposted := length_eq_zero_iff.mp (Nat.le_zero.mp hposted)
  have hwrites := length_eq_zero_iff.mp (Nat.le_zero.mp hwrites)
  refine ⟨rfl, ⟨hposted, hwrites⟩, h.held, fun hplain => ?_⟩
  rcases h.sound hplain with hs | hdoomed
  · have hqueued := hs.queued
    rw [hposted] at hqueued
    have hfull : s.whole.length = pastEnd offset length := by
      have hat := hs.at_le
      have hdone : s.whole.length = a := hqueued
      omega
    have hlanded := hs.landed
    rw [hwrites] at hlanded
    refine ⟨hlanded, hfull, fun hbrings => ?_⟩
    rw [← hfull]
    exact hs.got hbrings
  · exact absurd hdoomed.1 (Nat.not_lt.mpr hend)

/-- **Whatever the receiver started has ended when it has gone quiet.** -/
theorem quiesce_spec {G : PageReceiver → Io π μ γ → Prop} (hG : Stable (io e) G)
    (hreceived : ∀ s w p rest, s.receiving = p :: rest → G s w → G s.popReceiving w)
    (hwritten : ∀ s w id rest, s.writes = id :: rest → G s w → G s.popWrites w) :
    Triple (io e) (fun _ _ => True) (fun s w => Held e w₀ s.ids w ∧ G s w)
    (quiesce (π := π) (γ := γ)) (fun _ s w => Held e w₀ [] w ∧ G s w) fun _ _ _ => False := by
  rw [quiesce]
  have hstable : Stable (io (π := π) (γ := γ) e) fun s w => Held e w₀ s.ids w ∧ G s w :=
    fun s w w' h hd => ⟨h.1.drift hd, hG s w w' h.2 hd⟩
  refine Triple.bind (Pipe.quiesceQueue_spec hstable (fun _ => free) ?_) fun _ =>
    (Pipe.quiesceQueue_spec (P := fun s w => (Held e w₀ s.ids w ∧ G s w) ∧ s.receiving = []) ?_
      (fun _ => free) ?_).conseq (fun s w h => ⟨h.1, map_eq_nil_iff.mp h.2⟩) ?_ fun _ _ _ h => h
  · rintro s w id rest work r ⟨hheld, hg⟩ hq hended
    obtain ⟨p, rest', hp, rfl, -⟩ := map_eq_cons_iff.mp hq
    exact ⟨hheld.drop hended (mem_of_pop_left hp), hreceived s w p rest' hp hg⟩
  · exact fun s w w' h hd => ⟨hstable s w w' h.1 hd, h.2⟩
  · rintro s w id rest work r ⟨⟨hheld, hg⟩, hnil⟩ hq hended
    exact ⟨⟨hheld.drop hended (mem_of_pop_right hq), hwritten s w id rest hq hg⟩, hnil⟩
  · rintro _ s w ⟨⟨⟨hheld, hg⟩, hposted⟩, hwrites⟩
    have hwrites : s.writes = [] := hwrites
    rw [ids, hposted, hwrites] at hheld
    exact ⟨hheld, hg⟩

variable (remote) in
/-- **A stream lands with nothing outstanding**, and when it lands well the temporary file holds
what was hashed. -/
theorem land_spec {fuel length : ℕ} : Triple (io e) (fun _ _ => True)
      (fun s w => s = {} ∧ Held e w₀ [] w ∧ (sink.Plain e c offset → w.temp = some []))
      (land c sink fuel offset length)
      (fun n s w => n = length ∧ Held e w₀ [] w ∧
      Received e c sink remote offset (pastEnd offset length) s w) fun _ _ w => Held e w₀ [] w := by
  let M : Except Fault ℕ → PageReceiver → Io π μ γ → Prop
    | .ok n, s, w => n = length ∧ (s.receiving = [] ∧ s.writes = []) ∧ Held e w₀ s.ids w ∧
        Received e c sink remote offset (pastEnd offset length) s w
    | .error _, s, w => Held e w₀ s.ids w
  rw [land]
  refine .bind (M := M) (.outcome (run_spec.pre ?_)) fun r => ?_
  · rintro s w ⟨rfl, hheld, htemp⟩
    refine ⟨hheld, nofun, fun hplain => .inl ⟨?_, ?_, ?_, ?_⟩⟩
    · exact hplain.start.symm
    · rw [hplain.start]
      exact Nat.zero_le _
    · exact landed_new (htemp hplain) hheld.covered
    · exact fun _ => rfl
  cases r with
  | ok n =>
    refine .bind (M := fun _ s w => Held e w₀ [] w ∧ n = length ∧
      (s.receiving = [] ∧ s.writes = []) ∧
        Received e c sink remote offset (pastEnd offset length) s w)
      ((quiesce_spec ?_ ?_ ?_).conseq (fun s w h => ⟨h.2.2.1, h.1, h.2.1, h.2.2.2⟩)
        (fun _ _ _ h => h) fun _ _ _ h => h.elim) fun _ => .pure fun s w h => ⟨h.2.1, h.1, h.2.2.2⟩
    · rintro s w w' ⟨hn, hnil, h⟩ hd
      refine ⟨hn, hnil, fun hplain => ?_⟩
      obtain ⟨hlanded, hrest⟩ := h hplain
      exact ⟨hlanded.drift hd, hrest⟩
    · rintro s w p rest hq ⟨-, ⟨hnil, -⟩, -⟩
      rw [hnil] at hq
      cases hq
    · rintro s w id rest hq ⟨-, ⟨-, hnil⟩, -⟩
      rw [hnil] at hq
      cases hq
  | error f =>
    refine .bind (M := fun _ _ w => Held e w₀ [] w)
      ((quiesce_spec (G := fun _ _ => True) (fun _ _ _ _ _ => trivial) (fun _ _ _ _ _ _ => trivial)
        fun _ _ _ _ _ _ => trivial).conseq (fun s w h => ⟨h, trivial⟩) (fun _ _ _ h =>
        h.1) fun _ _ _ h => h.elim)
      fun _ => .fail fun _ _ h => h

end Invariant

end PageReceiver

end Rail.Transfer
