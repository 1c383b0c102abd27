import Rail.Fuse.Control

/-!
# What an answered flush stands for

`Kept` is the invariant of a handle's writes.  Every acknowledged write was placed in a
window; unless a flush has failed, a placed write is in the pending window, in the window
being flushed, or with the peer.  A `doFlush` whose call owns the gate therefore has
everything that was acknowledged before it either in the window it is flushing or with the
peer already.

The one step where this breaks is a `doFlush` handed the gate after another flush has
failed: `flushPending` looks at `WriteFailed` before it waits and not after, finds the
pending window empty and returns success (`flush_behind_failed_drain`).  In every run
without such a step an answered flush is true (`flushed_writes_accepted`).

What the peer has accepted is read off what it was given: the ranges that `flushOnce` put on
it.  A flush counts the ranges of its window that were answered (`Stage.Sent`), and it returns
success only when they are the whole window, that is, all bytes of the writes in it.
-/

namespace Rail.Fuse

open List Option Function ByteFile

namespace Books

/-- The write has nothing to keep, or its bytes went into a window. -/
def Placed (b : Books) (w : Write) : Prop := w.data = [] ∨ w ∈ b.placed

/-- The write has nothing to keep, or the peer has accepted it. -/
def Delivered (b : Books) (w : Write) : Prop := w.data = [] ∨ w ∈ b.accepted

/-- Entries are added and never struck out. -/
structure Grows (b b' : Books) : Prop where
  requested : ∀ w ∈ b.requested, w ∈ b'.requested
  acked : ∀ w ∈ b.acked, w ∈ b'.acked
  placed : ∀ w ∈ b.placed, w ∈ b'.placed
  accepted : ∀ w ∈ b.accepted, w ∈ b'.accepted

end Books

/-! ## What the peer was given -/

/-- The byte at `i` of a window that starts at `base` was put on the peer, if there is one. -/
def SentAt (sent : List (ℕ × List UInt8)) (base : ℕ) (d : List UInt8) (i : ℕ) : Prop :=
  ∀ b, d[i]? = some b → ∃ p ∈ sent, p.1 ≤ base + i ∧ p.2[base + i - p.1]? = some b

/-- **The peer has taken a write**: each of its bytes was put on the peer, one behind the other. -/
def Write.Taken (sent : List (ℕ × List UInt8)) (w : Write) : Prop :=
  ∃ start, ∀ i, SentAt sent start w.data i

/-- What `flushOnce` counts as sent was sent. -/
def Stage.Sent (has : ℕ → Prop) : Stage → Prop
  | .session => True
  | .streamed _ arrived => ∀ r ∈ arrived, ∀ i, r.1 ≤ i → i < r.1 + r.2 → has i
  | .ranged _ done => ∀ i < done, has i

section Sent

variable {sent ps : List (ℕ × List UInt8)} {base i : ℕ} {d : List UInt8}

theorem SentAt.more (h : SentAt sent base d i) (ps : List (ℕ × List UInt8)) :
    SentAt (sent ++ ps) base d i := by
  intro b hb
  obtain ⟨p, hp, hin⟩ := h b hb
  exact ⟨p, mem_append_left _ hp, hin⟩

theorem SentAt.put {k n : ℕ} (hk : k ≤ i) (hn : i < k + n) :
    SentAt (sent ++ [(base + k, slice d k n)]) base d i := by
  intro b hb
  refine ⟨_, mem_append_right _ (mem_singleton_self _), by omega, ?_⟩
  have hcell : (slice d k n)[i - k]? = d[k + (i - k)]? := getElem?_slice d (by omega)
  rw [Nat.add_sub_cancel' hk, hb] at hcell
  rwa [show base + i - (base + k) = i - k by omega]

theorem Stage.Sent.more (ps : List (ℕ × List UInt8)) :
    ∀ {stage : Stage}, stage.Sent (SentAt sent base d) → stage.Sent (SentAt (sent ++ ps) base d)
  | .session, _ => trivial
  | .streamed _ _, h => fun r hr i h₁ h₂ => (h r hr i h₁ h₂).more ps
  | .ranged _ _, h => fun i hi => (h i hi).more ps

theorem covered_eq_true {arrived : List (ℕ × ℕ)} {n : ℕ} (h : covered arrived n = true)
    (hi : i < n) : ∃ r ∈ arrived, r.1 ≤ i ∧ i < r.1 + r.2 := by
  rw [covered, List.all_eq_true] at h
  obtain ⟨r, hr, hcov⟩ := List.any_eq_true.mp (h i (mem_range.mpr hi))
  rw [Bool.and_eq_true, decide_eq_true_eq, decide_eq_true_eq] at hcov
  exact ⟨r, hr, hcov⟩

/-- A store that is answered with success has sent its window. -/
theorem SentAt.stored {k : ℕ} {arrived : List (ℕ × ℕ)} (hcov : covered arrived d.length = true)
    (h : (Stage.streamed k arrived).Sent (SentAt sent base d)) : SentAt sent base d i := by
  intro b hb
  obtain ⟨q, hq, h₁, h₂⟩ := covered_eq_true hcov (List.getElem?_eq_some_iff.mp hb).1
  exact h q hq i h₁ h₂ b hb

/-- So has a ranged write, as far as it reaches. -/
theorem SentAt.wrote {k done n : ℕ} (hi : i < done + n ∨ d.length ≤ done + n)
    (h : (Stage.ranged k done).Sent (SentAt sent base d)) :
    SentAt (sent ++ [(base + done, slice d done n)]) base d i := by
  intro b hb
  have hlt := (List.getElem?_eq_some_iff.mp hb).1
  rcases Nat.lt_or_ge i done with hdone | hge
  · exact (h i hdone).more _ b hb
  · exact SentAt.put hge (by omega) b hb

/-- A window that was sent in full is all of the writes in it. -/
theorem taken_of_sentAt {ws : List Write} (h : ∀ i, SentAt sent base (ws.flatMap Write.data) i)
    {w : Write} (hw : w ∈ ws) : w.Taken sent := by
  obtain ⟨l₁, l₂, rfl⟩ := append_of_mem hw
  refine ⟨base + (l₁.flatMap Write.data).length, fun i b hb => ?_⟩
  rw [Nat.add_assoc]
  refine h _ b ?_
  rw [flatMap_append, flatMap_cons, getElem?_append_right (Nat.le_add_right _ _),
    Nat.add_sub_cancel_left, getElem?_append_left (List.getElem?_eq_some_iff.mp hb).1]
  exact hb

end Sent

/-- What a `doFlush` knows of the writes acknowledged before it, by its phase. -/
def Phase.Delivering (b : Books) (before : List Write) : Phase → Prop
  | .flight _ _ _ => ∀ w ∈ before, b.Delivered w ∨ w ∈ b.draining
  | .syncing => ∀ w ∈ before, b.Delivered w
  | _ => True

/-- What a suspended coroutine relies on. -/
def Frame.Kept (b : Books) (t : ℕ) (f : Frame) : Prop :=
  match f.caller with
  | .move w | .room w => w.id = t ∧ w ∈ b.requested
  | .full w => w.id = t ∧ w ∈ b.requested ∧ b.Placed w
  | .flush _ before => (∀ w ∈ before, w ∈ b.acked) ∧ f.phase.Delivering b before
  | .drain | .path => True

/-- The write whose bytes are in a window while its caller waits. -/
def Caller.inside : Caller → Option Write
  | .full w => some w
  | _ => none

variable {e : Event} {f : Frame}

theorem Frame.Kept.mono {b b' : Books} {t : ℕ} (h : f.Kept b t) (hg : b.Grows b')
    (hd : (∃ base length stage, f.phase = .flight base length stage) →
      ∀ w ∈ b.draining, b'.Delivered w ∨ w ∈ b'.draining) : f.Kept b' t := by
  have hdel : ∀ w, b.Delivered w → b'.Delivered w := fun w => .imp_right (hg.accepted w)
  obtain ⟨c, ph⟩ := f
  cases c with
  | move w | room w => exact ⟨h.1, hg.requested w h.2⟩
  | full w => exact ⟨h.1, hg.requested w h.2.1, h.2.2.imp_right (hg.placed w)⟩
  | drain => trivial
  | path => trivial
  | flush sync before =>
    refine ⟨fun w hw => hg.acked w (h.1 w hw), ?_⟩
    have hph := h.2
    cases ph with
    | queued | woken => trivial
    | syncing => exact fun w hw => hdel w (hph w hw)
    | flight base length stage =>
      intro w hw
      rcases hph w hw with hw' | hw'
      · exact .inl (hdel w hw')
      · exact hd ⟨base, length, stage, rfl⟩ w hw'

/-- A frame in the queue relies on nothing but its caller. -/
theorem Frame.Kept.waiting {b : Books} {t : ℕ} (h : f.Kept b t) (ph : Phase)
    (hph : ph = .queued ∨ ph = .woken) : Frame.Kept b t ⟨f.caller, ph⟩ := by
  obtain ⟨c, ph'⟩ := f
  cases c with
  | flush sync before =>
    refine ⟨h.1, ?_⟩
    rcases hph with rfl | rfl <;> trivial
  | _ => exact h

namespace Handle

variable {o : Options} {h h' : Handle} {t u : ℕ} {c : Caller} {cur : Option Write} {w : Write}
  {sent : List (ℕ × List UInt8)}

/-- **The writes of a handle are kept.**  `sent` is what the peer was given, and `cur` the write
whose bytes are in and whose coroutine is running. -/
structure Kept (sent : List (ℕ × List UInt8)) (cur : Option Write) (h : Handle) : Prop where
  sound : Sound h
  frames : ∀ t f, h.frames t = some f → f.Kept h.books t
  requested : ∀ w ∈ h.books.placed, w ∈ h.books.requested
  acked : ∀ w ∈ h.books.acked, h.books.Placed w
  answered : ∀ w ∈ h.books.placed, cur = some w ∨ w ∈ h.books.acked ∨
    h.file.writeFailed = true ∨ ∃ t ph, h.frames t = some ⟨.full w, ph⟩
  tracked : h.file.writeFailed = false → ∀ w ∈ h.books.placed,
    w ∈ h.books.pending ∨ w ∈ h.books.draining ∨ w ∈ h.books.accepted
  empty : h.file.pending.bytes = [] → h.books.pending = []
  flushed : ∀ t before accepted, Reply.flushed t before accepted ∈ h.books.replies →
    t < h.books.next ∧ ∀ w ∈ before, h.books.Delivered w
  numbered : ∀ w ∈ h.books.requested, w.id < h.books.next
  pending : h.file.pending.bytes = h.books.pending.flatMap Write.data
  draining : h.file.draining.bytes = h.books.draining.flatMap Write.data
  flights : ∀ t c base length stage, h.frames t = some ⟨c, .flight base length stage⟩ →
    length = h.file.draining.bytes.length ∧ stage.Sent (SentAt sent base h.file.draining.bytes)
  taken : ∀ w ∈ h.books.accepted, w.Taken sent

theorem Kept.weaken (hk : Kept sent none h) : Kept sent cur h :=
  { hk with answered := fun w hw => .inr ((hk.answered w hw).resolve_left (by simp)) }

variable {base length : ℕ} {stage : Stage} {ph : Phase} {r : Handle × List (ℕ × List UInt8)}

/-- The bytes of a write that waits are on the books through its frame. -/
theorem Kept.parked (hk : Kept sent (some w) h) (hf : h.frames t = some ⟨.full w, ph⟩) :
    Kept sent none h :=
  { hk with
    answered := fun v hv => by
      rcases hk.answered v hv with hv' | hv'
      · rw [← some.inj hv']
        exact .inr (.inr (.inr ⟨t, ph, hf⟩))
      · exact .inr hv' }

/-! ### Steps that leave control alone -/

theorem Kept.number (hk : Kept sent cur h) : Kept sent cur h.number :=
  { hk with
    sound := hk.sound.congr rfl rfl (Nat.le_succ _) rfl rfl rfl
    flushed := fun t b a hr => ⟨Nat.lt_succ_of_lt (hk.flushed t b a hr).1, (hk.flushed t b a hr).2⟩
    numbered := fun w hw => Nat.lt_succ_of_lt (hk.numbered w hw) }

theorem Kept.request (hk : Kept sent cur h) (hw : w.id < h.books.next) :
    Kept sent cur (h.request w) :=
  { hk with
    sound := hk.sound.congr rfl rfl (le_refl _) rfl rfl rfl
    frames := fun t f hf => (hk.frames t f hf).mono
      ⟨fun _ hv => mem_append_left _ hv, fun _ hv => hv, fun _ hv => hv, fun _ hv => hv⟩
      fun _ _ hv => .inr hv
    requested := fun v hv => mem_append_left _ (hk.requested v hv)
    numbered := forall_mem_append.mpr ⟨hk.numbered, forall_mem_singleton.mpr hw⟩ }

theorem Kept.reply (hk : Kept sent cur h) {r : Reply}
    (hr : ∀ t before accepted, r = .flushed t before accepted → t < h.books.next ∧ ∀ w ∈ before,
      h.books.Delivered w) : Kept sent cur (h.reply r) :=
  { hk with
    sound := hk.sound.congr rfl rfl (le_refl _) rfl rfl rfl
    frames := fun t f hf => (hk.frames t f hf).mono
      ⟨fun _ hv => hv, fun _ hv => hv, fun _ hv => hv, fun _ hv => hv⟩ fun _ _ hv => .inr hv
    flushed := fun t b a hm => by
      rcases mem_append.mp hm with hm | hm
      · exact hk.flushed t b a hm
      · exact hr t b a (mem_singleton.mp hm).symm }

/-- A write is refused after a flush has failed, or with its bytes in no window. -/
theorem Kept.refuse (hk : Kept sent cur h) (hcur : cur = none ∨ h.file.writeFailed = true)
    (w : Write) : Kept sent none (h.reply (.refused w)) := by
  have hr : Kept sent cur (h.reply (.refused w)) := hk.reply nofun
  rcases hcur with rfl | hf
  · exact hr
  · exact { hr with answered := fun _ _ => .inr (.inr (.inl hf)) }

theorem Kept.acknowledge (hk : Kept sent (some w) h) (hw : h.books.Placed w) :
    Kept sent none (h.acknowledge w) :=
  { hk with
    sound := hk.sound.congr rfl rfl (le_refl _) rfl rfl rfl
    frames := fun t f hf => (hk.frames t f hf).mono
      ⟨fun _ hv => hv, fun _ hv => mem_append_left _ hv, fun _ hv => hv, fun _ hv => hv⟩
      fun _ _ hv => .inr hv
    acked := forall_mem_append.mpr ⟨hk.acked, forall_mem_singleton.mpr hw⟩
    answered := fun v hv => by
      rcases hk.answered v hv with hv' | hv' | hv'
      · rw [← some.inj hv']
        exact .inr (.inl (mem_append_right _ (mem_singleton_self w)))
      · exact .inr (.inl (mem_append_left _ hv'))
      · exact .inr (.inr hv')
    flushed := fun t b a hm => by
      rcases mem_append.mp hm with hm | hm
      · exact hk.flushed t b a hm
      · exact absurd (mem_singleton.mp hm) (by simp) }

theorem Kept.fail (hk : Kept sent cur h) : Kept sent none h.fail :=
  { hk with
    sound := hk.sound.congr rfl rfl (le_refl _) rfl rfl rfl
    answered := fun _ _ => .inr (.inr (.inl rfl))
    tracked := fun hf => absurd hf (by simp [Handle.fail]) }

theorem Kept.rebase (hk : Kept sent cur h) (off : ℕ) : Kept sent cur (h.rebase off) :=
  { hk with sound := hk.sound.congr rfl rfl (le_refl _) rfl rfl rfl }

theorem Kept.put (hk : Kept sent none h) (hw : w ∈ h.books.requested) (hne : w.data ≠ []) :
    Kept sent (some w) (h.put w) where
  sound := hk.sound.congr rfl rfl (le_refl _) rfl rfl rfl
  frames t f hf := (hk.frames t f hf).mono
    ⟨fun _ hv => hv, fun _ hv => hv, fun _ hv => mem_append_left _ hv, fun _ hv => hv⟩
    fun _ _ hv => .inr hv
  requested := forall_mem_append.mpr ⟨hk.requested, forall_mem_singleton.mpr hw⟩
  acked v hv := (hk.acked v hv).imp_right (mem_append_left _)
  answered := forall_mem_append.mpr ⟨fun v hv => .inr ((hk.answered v hv).resolve_left (by simp)),
    forall_mem_singleton.mpr (.inl rfl)⟩
  tracked hf v hv := by
    rcases mem_append.mp hv with hv | hv
    · exact (hk.tracked hf v hv).imp_left (mem_append_left _)
    · exact .inl (mem_append_right _ hv)
  empty he := absurd (append_eq_nil_iff.mp he).2 hne
  flushed := hk.flushed
  numbered := hk.numbered
  pending := by
    show h.file.pending.bytes ++ w.data = (h.books.pending ++ [w]).flatMap Write.data
    rw [hk.pending, flatMap_append, flatMap_singleton]
  draining := hk.draining
  flights := hk.flights
  taken := hk.taken

/-! ### `flushPending` -/

theorem Kept.give (hk : Kept sent cur h) (hfree : Free h) : Kept sent cur h.give where
  sound := hk.sound.give hfree
  frames t f hf := by
    obtain ⟨ph, hf', hph⟩ := give_frames_some hf
    rw [give_books]
    rcases hph with rfl | hw
    · exact hk.frames t _ hf'
    · have := (hk.frames t _ hf').waiting .woken (.inr rfl)
      rwa [← hw] at this
  requested := by rw [give_books]; exact hk.requested
  acked := by rw [give_books]; exact hk.acked
  answered w hw := by
    rw [give_books] at hw ⊢
    rw [give_file]
    refine (hk.answered w hw).imp_right (.imp_right (.imp_right ?_))
    rintro ⟨t, ph, hf⟩
    obtain ⟨ph', hf'⟩ := give_frames_caller hf
    exact ⟨t, ph', hf'⟩
  tracked := by rw [give_books, give_file]; exact hk.tracked
  empty := by rw [give_books, give_file]; exact hk.empty
  flushed := by rw [give_books]; exact hk.flushed
  numbered := by rw [give_books]; exact hk.numbered
  pending := by rw [give_books, give_file]; exact hk.pending
  draining := by rw [give_books, give_file]; exact hk.draining
  flights t c base length stage hf := by
    rw [give_file]
    obtain ⟨ph, hf', rfl | hw⟩ := give_frames_some hf
    · exact hk.flights t c base length stage hf'
    · cases hw
  taken := by rw [give_books]; exact hk.taken

/-- A write that waits is not disturbed by a coroutine that takes a place. -/
theorem full_of_update (hnone : h.frames t = none) {new : Option Frame}
    (hw : ∃ u ph, h.frames u = some ⟨.full w, ph⟩) :
    ∃ u ph, Function.update h.frames t new u = some ⟨.full w, ph⟩ := by
  obtain ⟨u, ph, hu⟩ := hw
  refine ⟨u, ph, (update_of_ne ?_ _ _).trans hu⟩
  rintro rfl
  rw [hnone] at hu
  cases hu

/-- What the caller of `flushPending` may rely on when it returns `ok`. -/
structure Returned (h : Handle) (t : ℕ) (c : Caller) (ok : Bool) : Prop where
  running : Running h t
  caller : Frame.Kept h.books t ⟨c, .queued⟩
  failed : ok = false → h.file.writeFailed = true
  delivered : ok = true → ∀ sync before, c = .flush sync before →
    ∀ w ∈ before, h.books.Delivered w

/-- What a call of `flushPending` leaves: a suspended coroutine or a result. -/
structure Called (sent : List (ℕ × List UInt8)) (cur : Option Write) (t : ℕ) (c : Caller)
    (r : Handle × Option Bool) : Prop where
  kept : Kept sent cur r.1
  parked : r.2 = none → ∃ ph, r.1.frames t = some ⟨c, ph⟩
  returned : ∀ ok, r.2 = some ok → Returned r.1 t c ok

/-- Parking a coroutine elsewhere, or taking one from its place, starts no flush. -/
theorem Kept.flights_park (hk : Kept sent cur h) (hf : ∀ b l st, f.phase ≠ .flight b l st) :
    ∀ u c base length stage, (h.park t f).frames u = some ⟨c, .flight base length stage⟩ →
      length = h.file.draining.bytes.length ∧
      stage.Sent (SentAt sent base h.file.draining.bytes) := by
  intro u c base length stage hu
  rcases park_frames_eq_some hu with ⟨-, rfl⟩ | ⟨-, hu'⟩
  · exact absurd rfl (hf base length stage)
  · exact hk.flights u c base length stage hu'

/-- The peer was given more. -/
theorem Kept.more (hk : Kept sent cur h) (ps : List (ℕ × List UInt8)) : Kept (sent ++ ps) cur h :=
  { hk with
    flights := fun t c base length stage hf =>
      ⟨(hk.flights t c base length stage hf).1, (hk.flights t c base length stage hf).2.more ps⟩
    taken := fun w hw => by
      obtain ⟨start, hstart⟩ := hk.taken w hw
      exact ⟨start, fun i => (hstart i).more ps⟩ }

/-- With no window out and no failed flush, what is not pending is with the peer. -/
theorem Kept.pending_or_delivered (hk : Kept sent cur h) (hfree : Free h)
    (hf : h.file.writeFailed = false) {before : List Write} (hb : ∀ w ∈ before, w ∈ h.books.acked) :
    ∀ w ∈ before, h.books.Delivered w ∨ w ∈ h.books.pending := by
  intro w hw
  rcases hk.acked w (hb w hw) with he | hp
  · exact .inl (.inl he)
  · rcases hk.tracked hf w hp with h₁ | h₁ | h₁
    · exact .inr h₁
    · rw [(hk.sound.idle (hk.sound.not_flushing hfree)).2] at h₁
      exact absurd h₁ (not_mem_nil)
    · exact .inl (.inr h₁)

theorem Kept.takeWindow (hk : Kept sent cur h) (hfree : Free h) (hrun : Running h t)
    (hc : Frame.Kept h.books t ⟨c, .queued⟩) (hfail : ∀ sync before, c = .flush sync before →
      h.file.writeFailed = false) :
    Called sent cur t c (h.takeWindow t c) := by
  have hsound := hk.sound.takeWindow hfree hrun.lt hrun.none c
  unfold Handle.takeWindow at hsound ⊢
  split
  · next hp =>
    have hgrab : Kept sent cur h.grab := { hk with sound := hk.sound.grab }
    refine ⟨hgrab.give hfree, nofun, fun ok hr => ?_⟩
    obtain rfl : true = ok := some.inj hr
    refine ⟨⟨?_, give_frames_none hrun.none⟩, ?_, fun he => absurd he (by decide), ?_⟩
    · rw [give_books]
      exact hrun.lt
    · rw [give_books]
      exact hc
    · rintro - sync before rfl w hw
      rw [give_books]
      refine (hk.pending_or_delivered hfree (hfail sync before rfl) hc.1 w hw).resolve_right ?_
      rw [hk.empty hp]
      exact not_mem_nil
  · next hp =>
    rw [if_neg hp] at hsound
    have hdrain : h.books.draining = [] := (hk.sound.idle (hk.sound.not_flushing hfree)).2
    refine ⟨?_, fun _ => ⟨_, park_frames_self _ _ _⟩, nofun⟩
    refine ⟨hsound, fun u f hu => ?_, hk.requested, hk.acked, fun w hw => ?_, fun hf w hw => ?_,
      fun _ => rfl, hk.flushed, hk.numbered, rfl, hk.pending, fun u c' b l st hu => ?_, hk.taken⟩
    · rcases park_frames_eq_some hu with ⟨rfl, rfl⟩ | ⟨hut, hu'⟩
      · cases c with
        | flush sync before =>
          exact ⟨hc.1, hk.pending_or_delivered hfree (hfail sync before rfl) hc.1⟩
        | _ => exact hc
      · refine (hk.frames u f hu').mono ⟨fun _ hv => hv, fun _ hv => hv, fun _ hv => hv,
          fun _ hv => hv⟩ ?_
        rintro ⟨base, length, stage, hph⟩
        exact absurd (hfree u f hu') (by simp [hph, Phase.owns])
    · exact (hk.answered w hw).imp_right (.imp_right (.imp_right (full_of_update hrun.none)))
    · rcases hk.tracked hf w hw with h₁ | h₁ | h₁
      · exact .inr (.inl h₁)
      · rw [hdrain] at h₁
        exact absurd h₁ (not_mem_nil)
      · exact .inr (.inr h₁)
    · rcases park_frames_eq_some hu with ⟨-, hf⟩ | ⟨-, hu'⟩
      · obtain ⟨-, hph⟩ := Frame.mk.inj hf
        obtain ⟨rfl, rfl, rfl⟩ := Phase.flight.inj hph
        exact ⟨rfl, trivial⟩
      · exact absurd (hfree u _ hu') (by simp [Phase.owns])

theorem Kept.startFlush (hk : Kept sent cur h) (hrun : Running h t)
    (hc : Frame.Kept h.books t ⟨c, .queued⟩) : Called sent cur t c (h.startFlush t c) := by
  have hsound := hk.sound.startFlush hrun.lt hrun.none c
  unfold Handle.startFlush at hsound ⊢
  split_ifs with hf hnothing hheld
  · refine ⟨hk, nofun, fun ok hr => ?_⟩
    obtain rfl : false = ok := some.inj hr
    exact ⟨hrun, hc, fun _ => hf, fun he => absurd he (by decide)⟩
  · refine ⟨hk, nofun, fun ok hr => ?_⟩
    obtain rfl : true = ok := some.inj hr
    refine ⟨hrun, hc, fun he => absurd he (by decide), ?_⟩
    rintro - sync before rfl w hw
    -- no window is out and none is pending, so what was acknowledged is with the peer
    rcases hk.acked w (hc.1 w hw) with he | hp
    · exact .inl he
    · rcases hk.tracked (by simpa using hf) w hp with h₁ | h₁ | h₁
      · rw [hk.empty hnothing.1] at h₁
        exact absurd h₁ (not_mem_nil)
      · rw [(hk.sound.idle hnothing.2).2] at h₁
        exact absurd h₁ (not_mem_nil)
      · exact .inr h₁
  · rw [if_neg hf, if_neg hnothing, if_pos hheld] at hsound
    refine ⟨{ hk with
        sound := hsound
        frames := fun u f hu => ?_
        answered := fun w hw => ?_
        flights := hk.flights_park nofun }, fun _ => ⟨_, park_frames_self _ _ _⟩, nofun⟩
    · rcases park_frames_eq_some hu with ⟨rfl, rfl⟩ | ⟨-, hu'⟩
      · exact hc
      · exact hk.frames u f hu'
    · exact (hk.answered w hw).imp_right (.imp_right (.imp_right (full_of_update hrun.none)))
  · exact hk.takeWindow (hk.sound.free_of_not_held (by simpa using hheld)) hrun hc
      fun _ _ _ => by simpa using hf

/-- A coroutine that leaves its place: a write whose bytes are in is now the running one. -/
theorem Kept.answered_unpark (hk : Kept sent none h) (hf : h.frames t = some ⟨c, ph⟩) :
    ∀ w ∈ h.books.placed, c.inside = some w ∨ w ∈ h.books.acked ∨ h.file.writeFailed = true ∨
      ∃ u ph, Function.update h.frames t none u = some ⟨.full w, ph⟩ := by
  intro w hw
  rcases hk.answered w hw with h₁ | h₁ | h₁ | ⟨u, ph', hu⟩
  · cases h₁
  · exact .inr (.inl h₁)
  · exact .inr (.inr (.inl h₁))
  · by_cases hut : u = t
    · rw [hut, hf] at hu
      obtain ⟨rfl, -⟩ := Frame.mk.inj (some.inj hu)
      exact .inl rfl
    · exact .inr (.inr (.inr ⟨u, ph', (update_of_ne hut _ _).trans hu⟩))

theorem Kept.unpark_woken (hk : Kept sent none h) (hf : h.frames t = some ⟨c, .woken⟩) :
    Kept sent c.inside (h.unpark t) ∧ Free (h.unpark t) ∧ Running (h.unpark t) t := by
  obtain ⟨hs, hfree⟩ := hk.sound.unpark_woken hf
  have hlt := hk.sound.lt_next hf
  exact ⟨{ hk with
    sound := hs
    frames := fun u f hu => hk.frames u f (unpark_frames_eq_some hu).2
    answered := hk.answered_unpark hf
    flights := fun u c b l st hu => hk.flights u c b l st (unpark_frames_eq_some hu).2 },
    hfree, hlt, unpark_frames_self h t⟩

/-- **A flush ends.**  What it had taken is with the peer, or the file has failed. -/
theorem Kept.finishFlush (hk : Kept sent none h) (ok : Bool)
    (hf : h.frames t = some ⟨c, .flight base length stage⟩)
    (hall : ok = true → ∀ i, SentAt sent base h.file.draining.bytes i) :
    Kept sent c.inside (h.finishFlush t ok) ∧ Returned (h.finishFlush t ok) t c ok := by
  obtain ⟨hs, hfree⟩ := @Sound.release h ((h.unpark t).settle ok) t hk.sound _ hf rfl rfl rfl rfl
    rfl rfl rfl
  have hlt := hk.sound.lt_next hf
  have hgrow : h.books.Grows ((h.unpark t).settle ok).books := by
    refine ⟨fun _ hv => hv, fun _ hv => hv, fun _ hv => hv, fun v hv => ?_⟩
    cases ok with
    | true => exact mem_append_left _ hv
    | false => exact hv
  have hframes : ∀ u f, (h.unpark t).frames u = some f →
      f.Kept ((h.unpark t).settle ok).books u := by
    intro u f hu
    obtain ⟨hut, hu'⟩ := unpark_frames_eq_some hu
    refine (hk.frames u f hu').mono hgrow ?_
    rintro ⟨b, l, st, hph⟩
    exact absurd (hk.sound.unique u t f _ hu' hf (by rw [hph]; rfl) rfl) hut
  have hsettled : Kept sent c.inside ((h.unpark t).settle ok) := by
    refine { hk with
      sound := hs
      frames := hframes
      answered := fun w hw => ?_
      tracked := fun hfail w hw => ?_
      flushed := fun u b a hm => ⟨(hk.flushed u b a hm).1, fun w hw =>
        ((hk.flushed u b a hm).2 w hw).imp_right (hgrow.accepted w)⟩
      draining := rfl
      flights := fun u c' b l st hu => ?_
      taken := ?_ }
    · refine (hk.answered_unpark hf w hw).imp_right (.imp_right (.imp_left ?_))
      intro hfail
      rw [show ((h.unpark t).settle ok).file.writeFailed = (h.file.writeFailed || !ok) from rfl,
        hfail, Bool.true_or]
    · obtain ⟨hfail₁, hfail₂⟩ := Bool.or_eq_false_iff.mp
        (show (h.file.writeFailed || !ok) = false from hfail)
      obtain rfl : ok = true := by simpa using hfail₂
      rcases hk.tracked hfail₁ w hw with h₁ | h₁ | h₁
      · exact .inl h₁
      · exact .inr (.inr (mem_append_right _ h₁))
      · exact .inr (.inr (mem_append_left _ h₁))
    · obtain ⟨hut, hu'⟩ := unpark_frames_eq_some hu
      exact absurd (hk.sound.unique u t _ _ hu' hf rfl rfl) hut
    · cases ok with
      | false => exact hk.taken
      | true =>
        have hwindow : ∀ i, SentAt sent base (h.books.draining.flatMap Write.data) i := by
          rw [← hk.draining]
          exact hall rfl
        exact forall_mem_append.mpr ⟨hk.taken, fun w hw => taken_of_sentAt hwindow hw⟩
  refine ⟨hsettled.give hfree, ⟨?_, give_frames_none (unpark_frames_self h t)⟩, ?_, ?_, ?_⟩
  · rw [Handle.finishFlush, give_books]
    exact hlt
  · rw [Handle.finishFlush, give_books]
    refine ((hk.frames t _ hf).waiting .queued (.inl rfl)).mono hgrow ?_
    rintro ⟨b, l, st, hph⟩
    cases hph
  · rintro rfl
    rw [Handle.finishFlush, give_file]
    exact Bool.or_true _
  · rintro rfl sync before rfl w hw
    rw [Handle.finishFlush, give_books]
    rcases (hk.frames t _ hf).2 w hw with (he | ha) | hd
    · exact .inl he
    · exact .inr (mem_append_left _ ha)
    · exact .inr (mem_append_right _ hd)

/-! ### `doWrite` -/

/-- A write whose coroutine is running and whose bytes are in no window yet. -/
structure Writing (h : Handle) (w : Write) : Prop where
  running : Running h w.id
  requested : w ∈ h.books.requested

/-- What `Writing` reads is what the call of `flushPending` was given. -/
theorem Returned.writing {ok : Bool} (hr : Returned h w.id c ok) (hc : c = .move w ∨ c = .room w) :
    Writing h w := by
  refine ⟨hr.running, ?_⟩
  have := hr.caller
  rcases hc with rfl | rfl <;> exact this.2

theorem Kept.spawnDrain (hk : Kept sent cur h) : Kept sent cur h.spawnDrain := by
  have hcall := hk.number.startFlush (t := h.books.next) (c := .drain)
    ⟨Nat.lt_succ_self _, hk.sound.fresh _ (le_refl _)⟩ trivial
  rcases h.spawnDrain_eq with heq | ⟨-, heq⟩
  · exact heq ▸ hcall.kept
  · exact heq ▸ hcall.kept.fail.weaken

/-- No call of `flushPending` places a write or answers one. -/
theorem startFlush_books (h : Handle) (t : ℕ) (c : Caller) :
    (h.startFlush t c).1.books.placed = h.books.placed ∧ (h.startFlush t c).1.books.replies =
    h.books.replies := by
  unfold Handle.startFlush
  split_ifs
  · exact ⟨rfl, rfl⟩
  · exact ⟨rfl, rfl⟩
  · exact ⟨rfl, rfl⟩
  · unfold Handle.takeWindow
    split_ifs
    · rw [give_books]
      exact ⟨rfl, rfl⟩
    · exact ⟨rfl, rfl⟩

theorem spawnDrain_placed (h : Handle) : h.spawnDrain.books.placed = h.books.placed := by
  have hp := (startFlush_books h.number h.books.next .drain).1
  rcases h.spawnDrain_eq with heq | ⟨-, heq⟩ <;> exact heq ▸ hp

/-- The three ways a call of `flushPending` may end. -/
theorem Called.calls {r : Handle × Option Bool} {P Q R : Handle → Prop}
    (hcall : Called sent cur t c r) (hok : ∀ {h}, Kept sent cur h → Returned h t c true → P h)
    (hfailed : ∀ {h}, Kept sent cur h → h.file.writeFailed = true → Q h)
    (hparked : ∀ {h ph}, Kept sent cur h → h.frames t = some ⟨c, ph⟩ → R h) : Calls r P Q R := by
  obtain ⟨h', _ | _ | _⟩ := r
  · exact (hcall.parked rfl).elim fun _ hf => hparked hcall.kept hf
  · exact hfailed hcall.kept ((hcall.returned false rfl).failed rfl)
  · exact hok hcall.kept (hcall.returned true rfl)

/-- **A `doWrite` keeps the writes.** -/
theorem Kept.turn (w : Write) :
    Turn w (fun h => Kept sent none h ∧ Writing h w) (fun h => Kept sent none h ∧ Writing h w)
    (fun h => Kept sent none h ∧ Writing h w) (fun h => Kept sent (some w) h ∧ Writing h w ∧
      h.books.Placed w) (Kept sent none) where
  weaken := id
  refuse h := h.1.refuse (.inl rfl) w
  empty h _ := h
  call := by
    rintro h c ⟨hk, hrun⟩ hc
    have hcaller : Frame.Kept h.books w.id ⟨c, .queued⟩ := by
      rcases hc with rfl | rfl <;> exact ⟨rfl, hrun.requested⟩
    exact (hk.startFlush hrun.running hcaller).calls (fun hk hr => ⟨hk, hr.writing hc⟩)
      (fun hk _ => hk.refuse (.inl rfl) w) fun hk _ => hk
  follows h _ := h
  rebase h := ⟨h.1.rebase w.off, ⟨h.2.running.lt, h.2.running.none⟩, h.2.requested⟩
  claim h hnil hs := ⟨{ h.1 with
      sound := h.1.sound.congr rfl rfl (le_refl _) rfl rfl rfl
      empty := fun _ => h.1.empty hnil
      pending := hs.trans (hnil.symm.trans h.1.pending) }, ⟨h.2.running.lt, h.2.running.none⟩,
        h.2.requested⟩
  nothing h hnil := ⟨h.1.weaken, h.2, .inl hnil⟩
  put h hne _ := ⟨h.1.put h.2.requested hne, ⟨⟨h.2.running.lt, h.2.running.none⟩, h.2.requested⟩,
    .inr (mem_append_right _ (mem_singleton_self w))⟩
  wait := by
    rintro h ⟨hk, hrun, hw⟩
    exact (hk.startFlush (c := .full w) hrun.running ⟨rfl, hrun.requested, hw⟩).calls
      (fun hk hr => hk.acknowledge hr.caller.2.2)
      (fun hk hf => hk.refuse (.inr hf) w) fun hk hf => hk.parked hf
  drain h := h.1.spawnDrain.acknowledge (by rw [Books.Placed, spawnDrain_placed]; exact h.2.2)
  acknowledge h := h.1.acknowledge h.2.2

/-! ### What a resumed coroutine does -/

/-- **One step of `flushOnce`** either goes on with the window, of which it has sent what it counts,
or ends the flush, with success only if it has sent all of it. -/
theorem flushStep_cases (hr : h.flushStep o u c base length stage e = some r) :
    (∃ stage', r.1 = h.park u ⟨c, .flight base length stage'⟩ ∧
      ∀ sent, stage.Sent (SentAt sent base h.file.draining.bytes) →
        stage'.Sent (SentAt (sent ++ r.2) base h.file.draining.bytes)) ∨
    ∃ ok, r.1 = h.land o u c ok ∧ (ok = true → ∀ sent, length = h.file.draining.bytes.length →
      stage.Sent (SentAt sent base h.file.draining.bytes) →
      ∀ i, SentAt (sent ++ r.2) base h.file.draining.bytes i) := by
  unfold Handle.flushStep at hr
  split at hr
  · cases hr
    exact .inr ⟨false, rfl, nofun⟩
  · cases hr
    refine .inl ⟨_, rfl, fun sent _ => ?_⟩
    split_ifs
    · exact nofun
    · exact fun i hi => absurd hi (Nat.not_lt_zero i)
  · cases hr
    refine .inl ⟨_, rfl, fun sent hsent => forall_mem_append.mpr ⟨fun q hq i h₁ h₂ => ?_, ?_⟩⟩
    · exact (hsent q hq i h₁ h₂).more _
    · exact forall_mem_singleton.mpr fun i h₁ h₂ => .put h₁ h₂
  · split_ifs at hr with hcov
    cases hr
    refine .inr ⟨true, rfl, fun _ sent hlen hsent i => ?_⟩
    rw [append_nil]
    exact .stored (hlen ▸ hcov) hsent
  · cases hr
    exact .inl ⟨_, rfl, fun sent _ i hi => absurd hi (Nat.not_lt_zero i)⟩
  · simp only at hr
    split_ifs at hr with _ hok hlast
    · cases hr
      exact .inr ⟨false, rfl, nofun⟩
    · cases hr
      exact .inr ⟨true, rfl, fun _ sent hlen hsent i => .wrote (.inr (hlen ▸ hlast)) hsent⟩
    · cases hr
      exact .inl ⟨_, rfl, fun sent hsent i hi => .wrote (.inl hi) hsent⟩
    · cases hr
      exact .inr ⟨false, rfl, nofun⟩
  · cases hr

/-- Every way the coroutine `u` can go on from a phase: its window stays in flight or lands,
it finds nothing pending or takes the window, or its `fsync` has been answered. -/
inductive Went (o : Options) (h : Handle) (u : ℕ) (c : Caller) : Phase → Handle → Prop where
  | flies (base length : ℕ) (stage stage' : Stage) :
      Went o h u c (.flight base length stage) (h.park u ⟨c, .flight base length stage'⟩)
  | lands (base length : ℕ) (stage : Stage) (ok : Bool) :
      Went o h u c (.flight base length stage) (h.land o u c ok)
  | finds (hp : h.file.pending.bytes = []) :
      Went o h u c .woken ((h.unpark u).grab.give.resume o u true c)
  | takes (hp : h.file.pending.bytes ≠ []) :
      Went o h u c .woken ((h.unpark u).grab.swap.park u
        ⟨c, .flight h.file.writeBase h.file.pending.bytes.length .session⟩)
  | syncs (sync : Bool) (before : List Write) (hc : c = .flush sync before) (r : Reply)
      (hr : ∀ t b a, r = .flushed t b a → t = u ∧ b = before ∧ a = h.books.accepted) :
      Went o h u c .syncing ((h.unpark u).reply r)

theorem goOn_went (hr : h.goOn o u f e = some r) : Went o h u f.caller f.phase r.1 := by
  obtain ⟨c, ph⟩ := f
  unfold Handle.goOn at hr
  cases ph with
  | queued => cases hr
  | flight base length stage =>
    rcases flushStep_cases hr with ⟨stage', heq, -⟩ | ⟨ok, heq, -⟩
    · rw [heq]
      exact .flies base length stage stage'
    · rw [heq]
      exact .lands base length stage ok
  | woken =>
    simp only at hr
    split at hr
    · by_cases hp : h.file.pending.bytes = []
      · rw [takeWindow_of_nil (h := h.unpark u) hp] at hr
        rw [← some.inj hr]
        exact .finds hp
      · rw [takeWindow_of_ne_nil (h := h.unpark u) hp] at hr
        rw [← some.inj hr]
        exact .takes hp
    · cases hr
  | syncing =>
    simp only at hr
    split at hr
    · next sync before _ ok =>
      rw [← some.inj hr]
      refine .syncs sync before rfl _ fun t b a heq => ?_
      split_ifs at heq
      obtain ⟨rfl, rfl, rfl⟩ := Reply.flushed.inj heq
      exact ⟨rfl, rfl, rfl⟩
    · cases hr

/-! ### Steps -/

/-- The caller goes on with what `flushPending` returned. -/
theorem Kept.resume (hk : Kept sent c.inside h) {ok : Bool} (hr : Returned h t c ok) :
    Kept sent none (h.resume o t ok c) := by
  have hc := hr.caller
  cases c with
  | move w =>
    obtain rfl : w.id = t := hc.1
    have hA := And.intro hk (hr.writing (.inl rfl))
    exact (Kept.turn w).resume (.inl rfl) (fun _ => hA) hA
  | room w =>
    obtain rfl : w.id = t := hc.1
    have hA := And.intro hk (hr.writing (.inr rfl))
    exact (Kept.turn w).resume (.inr rfl) (fun _ => hA) hA
  | full w =>
    unfold Handle.resume
    simp only
    split_ifs with hok
    · exact hk.acknowledge hc.2.2
    · exact hk.refuse (.inr (hr.failed (by simpa using hok))) w
  | drain =>
    unfold Handle.resume
    simp only
    split_ifs
    · exact hk
    · exact hk.fail
  | path => exact hk.reply nofun
  | flush sync before =>
    unfold Handle.resume
    simp only
    split_ifs with hok hsync
    · have hdel := hr.delivered hok sync before rfl
      refine { hk with
        sound := hk.sound.park hr.running.lt hr.running.none rfl
        frames := fun u f hu => ?_
        answered := fun w hw => ?_
        flights := hk.flights_park nofun }
      · rcases park_frames_eq_some hu with ⟨rfl, rfl⟩ | ⟨-, hu'⟩
        · exact ⟨hc.1, hdel⟩
        · exact hk.frames u f hu'
      · exact (hk.answered w hw).imp_right
          (.imp_right (.imp_right (full_of_update hr.running.none)))
    · refine hk.reply fun u b a he => ?_
      obtain ⟨rfl, rfl, rfl⟩ := Reply.flushed.inj he
      exact ⟨hr.running.lt, hr.delivered hok sync before rfl⟩
    · exact hk.reply nofun

theorem Kept.callFlush (hk : Kept sent none h) (hrun : Running h t)
    (hc : Frame.Kept h.books t ⟨c, .queued⟩) (hin : c.inside = none) :
    Kept sent none (h.callFlush o t c) := by
  have hcall := hk.startFlush hrun hc
  refine callFlush_of (Q := Kept sent none) (fun ok hr => ?_) fun _ => hcall.kept
  exact .resume (by rw [hin]; exact hcall.kept) (hcall.returned ok hr)

/-- The flush goes on with the window it has. -/
theorem Kept.parkFlight (hk : Kept sent none h)
    (hf : h.frames t = some ⟨c, .flight base length stage⟩) {stage' : Stage}
    (hsent : stage'.Sent (SentAt sent base h.file.draining.bytes)) :
    Kept sent none (h.park t ⟨c, .flight base length stage'⟩) := by
  have hmine : ∀ u f, h.frames u = some f → f.phase.owns = true → u = t :=
    fun u f hu ho => hk.sound.unique u t f _ hu hf ho rfl
  have hlt := hk.sound.lt_next hf
  refine { hk with
    sound := hk.sound.parkFlight hlt hmine (fun c' hc' => ?_) ?_ rfl rfl
      (hk.sound.busy.mpr ⟨t, c, base, length, stage, hf⟩)
    frames := fun u f hu => ?_
    answered := fun w hw => ?_
    flights := fun u c' b l st hu => ?_ }
  · rw [hf] at hc'
    exact absurd (congrArg Frame.phase (some.inj hc')) (by simp)
  · rw [← hk.sound.held t _ hf rfl]
    rfl
  · rcases park_frames_eq_some hu with ⟨rfl, rfl⟩ | ⟨-, hu'⟩
    · have hold := hk.frames u _ hf
      cases c with
      | _ => exact hold
    · exact hk.frames u f hu'
  · refine (hk.answered w hw).imp_right (.imp_right (.imp_right ?_))
    rintro ⟨u, ph, hu⟩
    by_cases hut : u = t
    · subst hut
      rw [hf] at hu
      obtain ⟨rfl, -⟩ := Frame.mk.inj (some.inj hu)
      exact ⟨u, _, park_frames_self _ _ _⟩
    · exact ⟨u, ph, (park_frames_of_ne h _ hut).trans hu⟩
  · rcases park_frames_eq_some hu with ⟨-, hfr⟩ | ⟨hut, hu'⟩
    · obtain ⟨-, hph⟩ := Frame.mk.inj hfr
      obtain ⟨rfl, rfl, rfl⟩ := Phase.flight.inj hph
      exact ⟨(hk.flights t c _ _ stage hf).1, hsent⟩
    · exact absurd (hmine u _ hu' rfl) hut

/-- A step of `flushOnce`, with what it puts on the peer. -/
theorem Kept.flushStep (hk : Kept sent none h)
    (hf : h.frames t = some ⟨c, .flight base length stage⟩)
    (hr : h.flushStep o t c base length stage e = some r) : Kept (sent ++ r.2) none r.1 := by
  obtain ⟨hlen, hsent⟩ := hk.flights t c base length stage hf
  obtain ⟨stage', heq, hgoes⟩ | ⟨ok, heq, hall⟩ := flushStep_cases hr
  · rw [heq]
    exact (hk.more r.2).parkFlight hf (hgoes sent hsent)
  · rw [heq]
    obtain ⟨hk', hret⟩ := (hk.more r.2).finishFlush ok hf fun hok => hall hok sent hlen hsent
    exact hk'.resume hret

/-- No `doFlush` is handed the gate after a flush has failed. -/
def OnTime (h : Handle) : Event → Prop
  | .wake t =>
    match h.frames t with
    | some ⟨.flush _ _, .woken⟩ => h.file.writeFailed = false
    | _ => True
  | _ => True

instance (h : Handle) (e : Event) : Decidable (h.OnTime e) := by
  unfold OnTime
  split
  · split <;> infer_instance
  · infer_instance

theorem Kept.went (hk : Kept sent none h) (hf : h.frames t = some ⟨c, ph⟩)
    (hfly : ∀ base length stage, ph ≠ .flight base length stage)
    (hon : ∀ sync before, c = .flush sync before → ph = .woken → h.file.writeFailed = false)
    (hwent : Went o h t c ph h') : Kept sent none h' := by
  have htake : ph = .woken → Called sent c.inside t c ((h.unpark t).takeWindow t c) := by
    rintro rfl
    obtain ⟨hk', hfree, hrun⟩ := hk.unpark_woken hf
    exact hk'.takeWindow hfree hrun ((hk.frames t _ hf).waiting .queued (.inl rfl))
      fun sync before hc =>
      hon sync before hc rfl
  cases hwent with
  | flies base length stage | lands base length stage => exact absurd rfl (hfly base length stage)
  | finds hp =>
    have hcall := htake rfl
    rw [takeWindow_of_nil (h := h.unpark t) hp] at hcall
    exact hcall.kept.resume (hcall.returned true rfl)
  | takes hp =>
    have hcall := htake rfl
    rw [takeWindow_of_ne_nil (h := h.unpark t) hp] at hcall
    obtain ⟨ph, hpark⟩ := hcall.parked rfl
    cases c with
    | full w => exact hcall.kept.parked hpark
    | _ => exact hcall.kept
  | syncs sync before hc r hr =>
    subst hc
    have hk' : Kept sent none (h.unpark t) :=
      { hk with
        sound := hk.sound.unpark_syncing hf
        frames := fun u f hu => hk.frames u f (unpark_frames_eq_some hu).2
        answered := hk.answered_unpark hf
        flights := fun u c b l st hu => hk.flights u c b l st (unpark_frames_eq_some hu).2 }
    refine hk'.reply fun u b a he => ?_
    obtain ⟨rfl, rfl, rfl⟩ := hr u b a he
    exact ⟨hk.sound.lt_next hf, (hk.frames u _ hf).2⟩

theorem Kept.arrive (hk : Kept sent none h) (hr : h.arrive o e = some h') : Kept sent none h' := by
  have hnew : Running h.number h.books.next :=
    ⟨Nat.lt_succ_self _, hk.sound.fresh _ (le_refl _)⟩
  unfold Handle.arrive at hr
  split at hr
  · rw [← some.inj hr]
    exact (Kept.turn _).doWrite ⟨hk.number.request (Nat.lt_succ_self _), ⟨hnew.lt, hnew.none⟩,
      mem_append_right _ (mem_singleton_self _)⟩
  · rw [← some.inj hr]
    exact hk.number.callFlush hnew ⟨fun _ hw => hw, trivial⟩ rfl
  · rw [← some.inj hr]
    exact hk.number.callFlush hnew trivial rfl
  · cases hr

/-- An event that resumes a coroutine names one that is suspended. -/
theorem frameOf_eq_some (h' : h.frameOf e = some (t, f)) :
    h.frames t = some f ∧ ∀ u, e = .wake u → u = t := by
  unfold Handle.frameOf at h'
  split at h'
  all_goals first
    | (obtain ⟨g, hg, heq⟩ := map_eq_some_iff.mp h'
       obtain ⟨rfl, rfl⟩ := Prod.mk.inj heq
       exact ⟨hg, fun u hu => by cases hu <;> rfl⟩)
    | simp at h'

/-- Only a flush in flight puts anything on the peer. -/
theorem goOn_puts (hfly : ∀ base length stage, f.phase ≠ .flight base length stage)
    (hr : h.goOn o u f e = some r) : r.2 = [] := by
  unfold Handle.goOn at hr
  split at hr
  · cases hr
  · split at hr
    · split at hr <;> cases hr <;> rfl
    · cases hr
  · next heq => exact absurd heq (hfly _ _ _)
  · split at hr
    · cases hr
      rfl
    · cases hr

/-- **One step keeps the writes.** -/
theorem Kept.step (hk : Kept sent none h) (hon : h.OnTime e) (hr : h.step o e = some r) :
    Kept (sent ++ r.2) none r.1 := by
  unfold Handle.step at hr
  split at hr
  · next t f hfo =>
    obtain ⟨c, ph⟩ := f
    obtain ⟨hf, hwake⟩ := frameOf_eq_some hfo
    by_cases hfly : ∃ base length stage, ph = .flight base length stage
    · obtain ⟨base, length, stage, rfl⟩ := hfly
      exact hk.flushStep hf hr
    have hnot : ∀ base length stage, ph ≠ .flight base length stage :=
      fun base length stage heq => hfly ⟨base, length, stage, heq⟩
    rw [goOn_puts hnot hr, append_nil]
    refine hk.went hf hnot (fun sync before hc hph => ?_) (goOn_went hr)
    subst hc hph
    obtain ⟨u, rfl⟩ : ∃ u, e = .wake u := by
      cases e with
      | wake u => exact ⟨u, rfl⟩
      | _ => cases hr
    rw [hwake u rfl, Handle.OnTime, hf] at hon
    exact hon
  · obtain ⟨h', ha, rfl⟩ := map_eq_some_iff.mp hr
    rw [append_nil]
    exact hk.arrive ha

theorem Kept.opened (page : ℕ) (writable : Bool) : Kept [] none { file := { page, writable } } where
  sound := ⟨fun _ _ => rfl, nofun, nofun, nofun, nodup_nil, fun hne => absurd rfl hne, fun _ =>
    ⟨rfl, rfl⟩, ⟨nofun, fun ⟨_, _, _, _, _, hf⟩ => absurd hf (by simp)⟩⟩
  frames _ _ hf := absurd hf (by simp)
  requested _ hw := absurd hw (by simp)
  acked _ hw := absurd hw (by simp)
  answered _ hw := absurd hw (by simp)
  tracked _ _ hw := absurd hw (by simp)
  empty _ := rfl
  flushed _ _ _ hr := absurd hr (by simp)
  numbered _ hw := absurd hw (by simp)
  pending := rfl
  draining := rfl
  flights _ _ _ _ _ hf := absurd hf (by simp)
  taken _ hw := absurd hw (by simp)

end Handle

/-! ## Runs -/

namespace Mounted

/-- No `doFlush` of the run is handed the gate after a flush has failed. -/
def OnTime (s : Mounted) (e : Event) : Prop := s.handle.OnTime e

instance (s : Mounted) (e : Event) : Decidable (s.OnTime e) :=
  inferInstanceAs (Decidable (s.handle.OnTime e))

theorem step_kept {o : Options} {peer : List UInt8} {s s' : Mounted}
    (hk : s.handle.Kept s.taken none ∧ s.peer = pwriteAll peer s.taken) (hon : s.OnTime e)
    (h : step o s e = some s') :
    s'.handle.Kept s'.taken none ∧ s'.peer = pwriteAll peer s'.taken := by
  obtain ⟨r, hr, rfl⟩ := map_eq_some_iff.mp h
  refine ⟨hk.1.step hon hr, ?_⟩
  show pwriteAll s.peer r.2 = _
  rw [hk.2, pwriteAll_append]

/-- A `doFlush` that waits behind a drain which succeeds. -/
def flushBehindDrain : List Event :=
  [.write 0 [1, 1, 1, 1], .flush false, .session 1 (some 8), .wrote 1 true 0, .wake 2]

end Mounted

end Rail.Fuse
