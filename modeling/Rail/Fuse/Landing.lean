import Rail.Fuse.Settling

/-!
# Where the bytes of a write land

What a handle still holds back is two windows: the one being flushed and the pending one.
`view` is the peer file with both of them put over it, the file the handle is working
towards.  Flushing does not change the view: a part of a window that reaches the peer is
covered by the window still (`view_put`), the windows that change places cover what they
did, and a window that has arrived in full may go.  Placing a write changes the view by
exactly that write, at the offset the write asked for, provided the pending window ends
there.  `Advance` states this of every stretch of code between two suspensions.

The proviso can fail in one place.  A `doWrite` whose offset does not continue the pending
window flushes it and then sets `WriteBase` to its own offset.  Another `doWrite` may have
filled the window in the meantime, since an empty one starts wherever a write does; its
bytes are then sent to the wrong place (`write_moves_another_window`).  In every run in
which the window is still empty when such a flush returns, all writes land where they
should (`writes_land_at_their_offsets`).
-/

namespace Rail.Fuse

open List Option ByteFile

/-- Where the bytes of a write go. -/
def Write.range (w : Write) : ℕ × List UInt8 := (w.off, w.data)

/-- The range of the write holds the position. -/
def Write.Covers (w : Write) (i : ℕ) : Prop := w.off ≤ i ∧ i < w.off + w.data.length

/-- The caller moves the pending window to its own offset. -/
def Caller.moves : Caller → Bool
  | .move _ | .room _ => true
  | _ => false

/-- The write whose bytes the caller has still to place. -/
def Caller.placing : Caller → Option Write
  | .move w | .room w => some w
  | _ => none

namespace Handle

variable {o : Options} {h h' h'' : Handle} {t : ℕ} {c : Caller} {cur W : Option Write} {w : Write}
  {ws ws' : List Write} {peer : List UInt8} {sent : List (ℕ × List UInt8)}

/-- The peer file with the window being flushed and the pending one put over it. -/
def view (h : Handle) (peer : List UInt8) : List UInt8 :=
  pwrite (pwrite peer h.books.drainBase h.file.draining.bytes) h.file.writeBase
    h.file.pending.bytes

/-- The position is in one of the two windows. -/
def Covers (h : Handle) (i : ℕ) : Prop :=
  (h.books.drainBase ≤ i ∧ i < h.books.drainBase + h.file.draining.bytes.length) ∨
    (h.file.writeBase ≤ i ∧ i < h.file.writeBase + h.file.pending.bytes.length)

/-- The writes `ws` have been placed: none of them but `W`, and the windows have grown by
nothing else. -/
structure Places (W : Option Write) (h h' : Handle) (ws : List Write) : Prop where
  mine : ∀ w ∈ ws, W = some w
  placed : h'.books.placed = h.books.placed ++ ws
  covers : ∀ i, h'.Covers i → h.Covers i ∨ ∃ w ∈ ws, w.Covers i

theorem Places.nil (hp : h'.books.placed = h.books.placed) (hc : ∀ i, h'.Covers i → h.Covers i) :
    Places W h h' [] :=
  ⟨nofun, by rw [hp, append_nil], fun i hi => .inl (hc i hi)⟩

theorem Places.trans (h₁ : Places W h h' ws) (h₂ : Places W h' h'' ws') :
    Places W h h'' (ws ++ ws') where
  mine w hw := (mem_append.mp hw).elim (h₁.mine w) (h₂.mine w)
  placed := by rw [h₂.placed, h₁.placed, append_assoc]
  covers i hi := by
    rcases h₂.covers i hi with hi' | ⟨w, hw, hi'⟩
    · rcases h₁.covers i hi' with hi'' | ⟨w, hw, hi''⟩
      · exact .inl hi''
      · exact .inr ⟨w, mem_append_left _ hw, hi''⟩
    · exact .inr ⟨w, mem_append_right _ hw, hi'⟩

/-- Nothing has failed, and the windows have the pages their bytes need. -/
structure Clean (h : Handle) : Prop where
  ok : h.file.writeFailed = false
  answers : ∀ t, Reply.pathFlushed t false ∉ h.books.replies
  pending : h.file.pending.bytes.length ≤ h.file.pending.capacity
  draining : h.file.draining.bytes.length ≤ h.file.draining.capacity

/-- A handle without a failure is never late. -/
theorem Clean.onTime (hc : Clean h) (e : Event) : h.OnTime e := by
  unfold Handle.OnTime
  split
  · split
    · exact hc.ok
    · trivial
  · trivial

/-- What a stretch of code may do: place the write `W` at its offset, and start a flush of
the window it has taken. -/
structure Advance (W : Option Write) (h h' : Handle) : Prop where
  view : ∃ ws, Places W h h' ws ∧
    ∀ peer, h'.view peer = pwriteAll (h.view peer) (ws.map Write.range)
  flights : ∀ t c base length stage, h'.frames t = some ⟨c, .flight base length stage⟩ →
    (h.frames t = some ⟨c, .flight base length stage⟩ ∧
      h'.file.draining = h.file.draining ∧ h'.books.drainBase = h.books.drainBase) ∨
    (stage = .session ∧ base = h'.books.drainBase ∧ length = h'.file.draining.bytes.length ∧
      0 < length)
  clean : Clean h → Clean h'

theorem Advance.refl (h : Handle) : Advance W h h :=
  ⟨⟨[], .nil rfl fun _ hi => hi, fun _ => rfl⟩, fun _ _ _ _ _ hf => .inl ⟨hf, rfl, rfl⟩, id⟩

theorem Advance.trans (h₁ : Advance W h h') (h₂ : Advance W h' h'') : Advance W h h'' where
  view := by
    obtain ⟨ws, hws, hv⟩ := h₁.view
    obtain ⟨ws', hws', hv'⟩ := h₂.view
    refine ⟨ws ++ ws', hws.trans hws', fun peer => ?_⟩
    rw [hv', hv, map_append, pwriteAll_append]
  flights t c base length stage hf := by
    rcases h₂.flights t c base length stage hf with ⟨hf', hd, hb⟩ | hnew
    · rcases h₁.flights t c base length stage hf' with ⟨hf'', hd', hb'⟩ | ⟨hs, hbase, hlen, hpos⟩
      · exact .inl ⟨hf'', hd.trans hd', hb.trans hb'⟩
      · exact .inr ⟨hs, by rw [hb, hbase], by rw [hd, hlen], hpos⟩
    · exact .inr hnew
  clean hc := h₂.clean (h₁.clean hc)

/-- A stretch that leaves the windows alone and starts no flush. -/
theorem Advance.neutral (hf : h'.file = h.file) (hp : h'.books.placed = h.books.placed)
    (hb : h'.books.drainBase = h.books.drainBase)
    (hr : ∀ t, Reply.pathFlushed t false ∈ h'.books.replies → Reply.pathFlushed t false ∈
      h.books.replies)
      (hfr : ∀ t c base length stage, h'.frames t = some ⟨c, .flight base length stage⟩ →
      h.frames t = some ⟨c, .flight base length stage⟩) : Advance W h h' where
  view := by
    refine ⟨[], .nil hp fun i hi => ?_, fun peer => ?_⟩
    · rw [Covers, hb, hf] at hi
      exact hi
    · rw [Handle.view, hb, hf]
      rfl
  flights t c base length stage h₁ := .inl ⟨hfr t c base length stage h₁, by rw [hf], hb⟩
  clean hc := ⟨by rw [hf]; exact hc.ok, fun t ht => hc.answers t (hr t ht),
    by rw [hf]; exact hc.pending, by rw [hf]; exact hc.draining⟩

theorem Advance.number (h : Handle) : Advance W h h.number :=
  .neutral rfl rfl rfl (fun _ ht => ht) fun _ _ _ _ _ hf => hf

theorem Advance.request (h : Handle) (w : Write) : Advance W h (h.request w) :=
  .neutral rfl rfl rfl (fun _ ht => ht) fun _ _ _ _ _ hf => hf

theorem Advance.reply (h : Handle) {r : Reply} (hr : ∀ t, r ≠ .pathFlushed t false) :
    Advance W h (h.reply r) :=
  .neutral rfl rfl rfl (fun t ht => (mem_append.mp ht).resolve_right fun hm =>
    hr t (mem_singleton.mp hm).symm) fun _ _ _ _ _ hf => hf

theorem Advance.acknowledge (h : Handle) (w : Write) : Advance W h (h.acknowledge w) :=
  .neutral rfl rfl rfl (fun _ ht => (mem_append.mp ht).resolve_right (by simp))
    fun _ _ _ _ _ hf => hf

theorem Advance.unpark (h : Handle) (t : ℕ) : Advance W h (h.unpark t) :=
  .neutral rfl rfl rfl (fun _ ht => ht) fun _ _ _ _ _ hf => (unpark_frames_eq_some hf).2

theorem Advance.give (h : Handle) : Advance W h h.give := by
  refine .neutral give_file (by rw [give_books]) (by rw [give_books])
    (fun t ht => by rwa [give_books] at ht) fun t c b l st hf => ?_
  obtain ⟨ph, hf', hph⟩ := give_frames_some hf
  rcases hph with rfl | hw
  · exact hf'
  · cases hw

/-- Parking a coroutine outside `flushOnce`. -/
theorem Advance.park (h : Handle) (t : ℕ) {f : Frame}
    (hf : ∀ base length stage, f.phase ≠ .flight base length stage) : Advance W h (h.park t f) := by
  refine .neutral rfl rfl rfl (fun _ ht => ht) fun u c b l st hu => ?_
  rcases park_frames_eq_some hu with ⟨-, rfl⟩ | ⟨-, hu'⟩
  · exact absurd rfl (hf b l st)
  · exact hu'

/-- An empty window may start anywhere, and have new pages. -/
theorem Advance.refit (hp : h.file.pending.bytes = []) {space : Space} (hs : space.bytes = [])
    (off : ℕ) :
    Advance W h { h with file := { h.file with pending := space, writeBase := off } } where
  view := by
    refine ⟨[], .nil rfl fun i hi => ?_, fun peer => ?_⟩
    · rcases hi with hi | hi
      · exact .inl hi
      · rw [hs, length_nil] at hi
        omega
    · rw [Handle.view, Handle.view, hs, hp]
      rfl
  flights _ _ _ _ _ hf := .inl ⟨hf, rfl, rfl⟩
  clean hc := { hc with pending := (congrArg List.length hs).le.trans (Nat.zero_le _) }

/-- The window ends where the write starts. -/
def Aligned (h : Handle) (w : Write) : Prop :=
  w.off = h.file.writeBase + h.file.pending.bytes.length

/-- **A write is placed at its own offset** when the window ends there. -/
theorem Advance.put (hal : h.Aligned w)
    (hfit : h.file.pending.bytes.length + w.data.length ≤ h.file.pending.capacity) :
    Advance (some w) h (h.put w) where
  view := by
    have hput : (h.put w).file.pending.bytes = h.file.pending.bytes ++ w.data := rfl
    refine ⟨[w], ⟨fun v hv => by rw [mem_singleton.mp hv], rfl, fun i hi => ?_⟩, fun peer => ?_⟩
    · rcases hi with hi | hi
      · exact .inl (.inl hi)
      · rw [hput, length_append, show (h.put w).file.writeBase = h.file.writeBase from rfl] at hi
        rcases Nat.lt_or_ge i (h.file.writeBase + h.file.pending.bytes.length) with hlt | hge
        · exact .inl (.inr ⟨hi.1, hlt⟩)
        · refine .inr ⟨w, mem_singleton_self w, ?_⟩
          rw [Write.Covers, hal]
          omega
    · rw [map_singleton, pwriteAll_cons, pwriteAll_nil, Write.range, hal, Handle.view, Handle.view,
        pwrite_append]
      rfl
  flights _ _ _ _ _ hf := .inl ⟨hf, rfl, rfl⟩
  clean hc := ⟨hc.ok, hc.answers, by
    rw [show (h.put w).file.pending.bytes = h.file.pending.bytes ++ w.data from rfl, length_append]
    exact hfit, hc.draining⟩

/-! ## `flushPending` -/

/-- The windows change places, by a coroutine that has the gate. -/
theorem Advance.takeWindow (hs : Sound h) (hfree : Free h) (t : ℕ) (c : Caller) :
    Advance W h (h.takeWindow t c).1 := by
  unfold Handle.takeWindow
  split_ifs with hp
  · have hgrab : Advance W h h.grab := .neutral rfl rfl rfl (fun _ ht => ht) fun _ _ _ _ _ hf => hf
    exact hgrab.trans (.give _)
  · have hd := (hs.idle (hs.not_flushing hfree)).1
    refine ⟨⟨[], .nil rfl fun i hi => ?_, fun peer => ?_⟩, fun u c' b l st hu => ?_, fun hc => ?_⟩
    · rcases hi with hi | hi
      · exact .inr hi
      · exact absurd hi.2 (Nat.not_lt.mpr hi.1)
    · rw [Handle.view, Handle.view, hd, pwrite_nil]
      rfl
    · rcases park_frames_eq_some hu with ⟨-, hf⟩ | ⟨-, hu'⟩
      · obtain ⟨-, hph⟩ := Frame.mk.inj hf
        obtain ⟨rfl, rfl, rfl⟩ := Phase.flight.inj hph
        exact .inr ⟨rfl, rfl, rfl, length_pos_iff.mpr hp⟩
      · exact absurd (hfree u _ hu') (by simp [Phase.owns])
    · exact ⟨hc.ok, hc.answers, Nat.zero_le _, hc.pending⟩

theorem Advance.startFlush (hs : Sound h) (t : ℕ) (c : Caller) :
    Advance W h (h.startFlush t c).1 := by
  unfold Handle.startFlush
  split_ifs with _ _ hheld
  · exact .refl h
  · exact .refl h
  · have henq : Advance W h (h.enqueue t) :=
      .neutral rfl rfl rfl (fun _ ht => ht) fun _ _ _ _ _ hf => hf
    exact henq.trans (.park _ t nofun)
  · exact .takeWindow hs (hs.free_of_not_held (by simpa using hheld)) t c

/-- `flushPending` returns success at once only with nothing pending. -/
theorem takeWindow_pending (hr : (h.takeWindow t c).2 ≠ none) :
    (h.takeWindow t c).1.file.pending.bytes = [] := by
  unfold Handle.takeWindow at hr ⊢
  split_ifs at hr ⊢ with hp
  · rw [give_file]
    exact hp
  · exact absurd rfl hr

theorem startFlush_pending (hr : (h.startFlush t c).2 = some true) :
    (h.startFlush t c).1.file.pending.bytes = [] := by
  unfold Handle.startFlush at hr ⊢
  split_ifs at hr ⊢ with _ hn
  · exact absurd (some.inj hr) (by decide)
  · exact hn.1
  · exact takeWindow_pending (by rw [hr]; simp)

/-- A clean handle fails no call of `flushPending`. -/
theorem Clean.startFlush (hc : Clean h) : (h.startFlush t c).2 ≠ some false := by
  unfold Handle.startFlush
  rw [if_neg (by rw [hc.ok]; decide)]
  split_ifs
  · simp
  · simp
  · unfold Handle.takeWindow
    split_ifs <;> simp

/-! ## `doWrite` -/

theorem Advance.spawnDrain (hk : Kept sent cur h) : Advance W h h.spawnDrain := by
  have hadv := (Advance.number (W := W) h).trans
    (.startFlush hk.number.sound h.books.next .drain)
  have hclean : Clean h → (h.number.startFlush h.books.next .drain).2 ≠ some false :=
    fun hc => Clean.startFlush { hc with }
  rcases h.spawnDrain_eq with heq | ⟨hfailed, heq⟩
  · exact heq ▸ hadv
  · obtain ⟨ws, hws, hv⟩ := hadv.view
    rw [heq]
    exact ⟨⟨ws, { hws with }, hv⟩, hadv.flights, fun hc => absurd hfailed (hclean hc)⟩

/-- **A `doWrite` places its write**, from a state `g` on. -/
theorem Advance.turn (g : Handle) (w : Write) :
    Turn w (fun h => Advance (some w) g h ∧ Kept sent none h ∧ Writing h w)
    (fun h => Advance (some w) g h ∧ (Kept sent none h ∧ Writing h w) ∧ h.file.pending.bytes = [])
    (fun h => Advance (some w) g h ∧ (Kept sent none h ∧ Writing h w) ∧ h.Aligned w)
    (fun h => Advance (some w) g h ∧ Kept sent (some w) h ∧ Writing h w ∧ h.books.Placed w)
    (Advance (some w) g) where
  weaken h := ⟨h.1, h.2.1⟩
  refuse h := h.1.trans (.reply _ fun _ => by simp)
  empty h hnil := ⟨h.1, h.2, hnil⟩
  call := by
    rintro h c ⟨hadv, hk, hrun⟩ hc
    have hcall := (Kept.turn w).call ⟨hk, hrun⟩ hc
    have hadv' := hadv.trans (.startFlush hk.sound w.id c)
    have hpend := @startFlush_pending h w.id c
    generalize h.startFlush w.id c = r at hcall hadv' hpend ⊢
    obtain ⟨h', _ | _ | _⟩ := r
    · exact hadv'
    · exact hadv'.trans (.reply _ fun _ => by simp)
    · exact ⟨hadv', hcall, hpend rfl⟩
  follows h hal := ⟨h.1, h.2, hal⟩
  rebase h := by
    obtain ⟨hadv, hk, hnil⟩ := h
    refine ⟨hadv.trans (.refit hnil hnil w.off), (Kept.turn w).rebase hk, ?_⟩
    rw [Aligned, Handle.rebase, hnil]
    rfl
  claim h hnil hs := by
    obtain ⟨hadv, hk, hal⟩ := h
    refine ⟨hadv.trans (.refit hnil hs _), (Kept.turn w).claim hk hnil hs, ?_⟩
    rw [Aligned, hnil] at hal
    rw [Aligned, Handle.claim, hs]
    exact hal
  nothing h hnil := ⟨h.1, (Kept.turn w).nothing h.2.1 hnil⟩
  put h hne hfit := ⟨h.1.trans (.put h.2.2 hfit), (Kept.turn w).put h.2.1 hne hfit⟩
  wait := by
    rintro h ⟨hadv, hk, -⟩
    have hadv' := hadv.trans (.startFlush hk.sound w.id (.full w))
    generalize h.startFlush w.id (.full w) = r at hadv' ⊢
    obtain ⟨h', _ | _ | _⟩ := r
    · exact hadv'
    · exact hadv'.trans (.reply _ fun _ => by simp)
    · exact hadv'.trans (.acknowledge _ w)
  drain h := (h.1.trans (.spawnDrain h.2.1)).trans (.acknowledge _ w)
  acknowledge h := h.1.trans (.acknowledge _ w)

/-- The caller goes on after a flush that succeeded.  One that moves the window finds it
empty. -/
theorem Advance.resume (hk : Kept sent c.inside h) (hr : Returned h t c true)
    (hp : c.moves = true → h.file.pending.bytes = []) :
    Advance c.placing h (h.resume o t true c) := by
  have hc := hr.caller
  cases c with
  | move w =>
    obtain rfl : w.id = t := hc.1
    exact (Advance.turn h w).reserveAppend
      ((Advance.turn h w).rebase ⟨.refl h, ⟨hk, hr.writing (.inl rfl)⟩, hp rfl⟩)
  | room w =>
    obtain rfl : w.id = t := hc.1
    exact (Advance.turn h w).afterRoom ⟨.refl h, ⟨hk, hr.writing (.inr rfl)⟩, hp rfl⟩
  | full w => exact .acknowledge h w
  | drain => exact .refl h
  | path => exact .reply h fun _ => by simp
  | flush sync before =>
    unfold Handle.resume
    simp only [if_true]
    split_ifs
    · exact .park h t nofun
    · exact .reply h fun _ => by simp

theorem Advance.callFlush (hk : Kept sent none h) (hrun : Running h t)
    (hc : Frame.Kept h.books t ⟨c, .queued⟩) (hin : c.inside = none) (hclean : Clean h) :
    Advance c.placing h (h.callFlush o t c) := by
  have hcall := hk.startFlush hrun hc
  have hadv := Advance.startFlush (W := c.placing) hk.sound t c
  have hpend := @startFlush_pending h t c
  have hnf := @Clean.startFlush h t c hclean
  refine callFlush_of (Q := Advance c.placing h) (fun ok hr => ?_) fun _ => hadv
  obtain rfl : ok = true := by
    cases ok with
    | true => rfl
    | false => exact absurd hr hnf
  exact hadv.trans (.resume (by rw [hin]; exact hcall.kept) (hcall.returned true hr) fun _ =>
    hpend hr)

end Handle

/-! ## The window in flight -/

/-- The peer holds the byte at `i` of a window that starts at `base`. -/
def Has (peer : List UInt8) (base : ℕ) (d : List UInt8) (i : ℕ) : Prop :=
  base + i < peer.length ∧ cellAt peer (base + i) = cellAt d i

/-- What `flushOnce` has seen answered is with the peer. -/
def Stage.Arrived (has : ℕ → Prop) (length : ℕ) : Stage → Prop
  | .session => True
  | .streamed _ arrived => ∀ r ∈ arrived, ∀ i, r.1 ≤ i → i < r.1 + r.2 → i < length → has i
  | .ranged _ done => done < length ∧ ∀ i < done, has i

variable {base length : ℕ}

theorem Stage.Arrived.imp {p q : ℕ → Prop} (hpq : ∀ i < length, p i → q i) :
    ∀ {stage : Stage}, stage.Arrived p length → stage.Arrived q length
  | .session, _ => trivial
  | .streamed _ _, h => fun r hr i h₁ h₂ h₃ => hpq i h₃ (h r hr i h₁ h₂ h₃)
  | .ranged _ _, h => ⟨h.1, fun i hi => hpq i (hi.trans h.1) (h.2 i hi)⟩

/-- A part of the window reaches the peer: it has that part, and what it had. -/
theorem Has.put {peer d : List UInt8} {k n i : ℕ} (hi : i < d.length)
    (h : Has peer base d i ∨ (k ≤ i ∧ i < k + n)) :
    Has (pwrite peer (base + k) (slice d k n)) base d i := by
  have hle := length_le_length_pwrite peer (base + k) (slice d k n)
  rw [Has, cellAt_pwrite, length_slice]
  by_cases hin : k ≤ i ∧ i < k + n
  · have hne : slice d k n ≠ [] := slice_ne_nil (by omega) (by omega)
    refine ⟨?_, ?_⟩
    · rw [length_pwrite _ _ hne, length_slice]
      omega
    · rw [if_pos (by omega), cellAt_slice _ (by omega)]
      congr 1
      omega
  · obtain ⟨hlt, hcell⟩ := h.resolve_right hin
    refine ⟨by omega, ?_⟩
    rw [if_neg (by omega), hcell]

namespace Handle

/-- Every flush knows its window, and what it counts as sent has arrived. -/
def InFlight (h : Handle) (peer : List UInt8) : Prop :=
  ∀ t c base length stage, h.frames t = some ⟨c, .flight base length stage⟩ →
    base = h.books.drainBase ∧ length = h.file.draining.bytes.length ∧ 0 < length ∧
      stage.Arrived (Has peer base h.file.draining.bytes) length

/-- From one suspension to another, with what was put on the peer. -/
structure Lands (W : Option Write) (h : Handle) (peer : List UInt8) (h' : Handle)
    (peer' : List UInt8) : Prop where
  view : ∃ ws, Places W h h' ws ∧
    h'.view peer' = pwriteAll (h.view peer) (ws.map Write.range)
  inFlight : InFlight h' peer'
  clean : Clean h'

variable {o : Options} {h h' h'' : Handle} {t : ℕ} {c : Caller} {peer peer' : List UInt8}
  {W : Option Write} {sent : List (ℕ × List UInt8)}

theorem InFlight.advance (hin : InFlight h peer) (ha : Advance W h h') : InFlight h' peer := by
  intro t c base length stage hf
  rcases ha.flights t c base length stage hf with ⟨hf', hd, hb⟩ | ⟨rfl, hb, hl, hpos⟩
  · obtain ⟨h₁, h₂, h₃, h₄⟩ := hin t c base length stage hf'
    rw [hd, hb]
    exact ⟨h₁, h₂, h₃, h₄⟩
  · exact ⟨hb, hl, hpos, trivial⟩

theorem Advance.lands (ha : Advance W h h') (hin : InFlight h peer) (hc : Clean h) :
    Lands W h peer h' peer := by
  obtain ⟨ws, hws, hv⟩ := ha.view
  exact ⟨⟨ws, hws, hv peer⟩, hin.advance ha, ha.clean hc⟩

theorem Lands.advance (hl : Lands W h peer h' peer') (ha : Advance W h' h'') :
    Lands W h peer h'' peer' := by
  obtain ⟨ws, hws, hv⟩ := hl.view
  obtain ⟨ws', hws', hv'⟩ := ha.view
  refine ⟨⟨ws ++ ws', hws.trans hws', ?_⟩, hl.inFlight.advance ha, ha.clean hl.clean⟩
  rw [hv', hv, map_append, pwriteAll_append]

/-- A part of the window in flight that reaches the peer is under the window still. -/
theorem view_put (h : Handle) (peer : List UInt8) (k n : ℕ) :
    h.view (pwrite peer (h.books.drainBase + k) (slice h.file.draining.bytes k n)) =
      h.view peer := by
  rw [view, view, pwrite_slice_pwrite]

variable {e : Event} {stage : Stage} {r : Handle × List (ℕ × List UInt8)}

/-- The flush goes on, with a part of its window put on the peer. -/
theorem Lands.parkFlight (hs : Sound h) (hclean : Clean h) {stage' : Stage}
    (hf : h.frames t = some ⟨c, .flight base length stage⟩) (hbase : base = h.books.drainBase)
    (hlen : length = h.file.draining.bytes.length) (hpos : 0 < length)
    (hview : h.view peer' = h.view peer)
    (harr : stage'.Arrived (Has peer' base h.file.draining.bytes) length) :
    Lands W h peer (h.park t ⟨c, .flight base length stage'⟩) peer' := by
  refine ⟨⟨[], .nil rfl fun _ hi => hi, hview⟩, fun u c' b l st hu => ?_,
    { hclean with }⟩
  rcases park_frames_eq_some hu with ⟨-, hfr⟩ | ⟨hne, hu'⟩
  · obtain ⟨-, hph⟩ := Frame.mk.inj hfr
    obtain ⟨rfl, rfl, rfl⟩ := Phase.flight.inj hph
    exact ⟨hbase, hlen, hpos, harr⟩
  · exact absurd (hs.unique u t _ _ hu' hf rfl rfl) hne

/-- **A window that has arrived in full may go.** -/
theorem Lands.finishFlush (hs : Sound h) (hclean : Clean h)
    (hf : h.frames t = some ⟨c, .flight base length stage⟩) (hview : h.view peer' = h.view peer)
    (hall : ∀ i < h.file.draining.bytes.length,
      Has peer' h.books.drainBase h.file.draining.bytes i) :
    Lands W h peer (h.finishFlush t true) peer' := by
  refine ⟨⟨[], .nil ?_ fun i hi => ?_, ?_⟩, fun u c' b l st hu => ?_, ?_⟩
  · rw [Handle.finishFlush, give_books]
    rfl
  · rw [Covers, Handle.finishFlush, give_file, give_books] at hi
    rcases hi with hi | hi
    · exact absurd hi.2 (Nat.not_lt.mpr hi.1)
    · exact .inr hi
  · rw [map_nil, pwriteAll_nil, ← hview, Handle.view, Handle.view, pwrite_of_cells hall,
      Handle.finishFlush, give_file, give_books]
    rfl
  · obtain ⟨ph, hu', hph⟩ := give_frames_some hu
    rcases hph with rfl | hw
    · obtain ⟨hne, hu''⟩ := unpark_frames_eq_some hu'
      exact absurd (hs.unique u t _ _ hu'' hf rfl rfl) hne
    · cases hw
  · rw [Handle.finishFlush]
    refine ⟨?_, ?_, ?_, ?_⟩
    · rw [give_file]
      exact (Bool.or_false _).trans hclean.ok
    · rw [give_books]
      exact hclean.answers
    · rw [give_file]
      exact hclean.pending
    · rw [give_file]
      exact Nat.zero_le _

/-- The caller whose flush an event completes. -/
def returning (h : Handle) : Event → Option Caller
  | .stored t true =>
    match h.frames t with
    | some ⟨c, .flight _ length (.streamed _ arrived)⟩ =>
      if covered arrived length then some c else none
    | _ => none
  | .wrote t true _ =>
    match h.frames t with
    | some ⟨c, .flight _ length (.ranged slice done)⟩ =>
      if length ≤ done + h.piece length slice done then some c else none
    | _ => none
  | _ => none

/-- No `doWrite` that flushes in order to move the window finds bytes in it when its flush
completes. -/
def Undisturbed (h : Handle) (e : Event) : Prop :=
  match h.returning e with
  | some (.move _) | some (.room _) => h.file.pending.bytes = []
  | _ => True

instance (h : Handle) (e : Event) : Decidable (h.Undisturbed e) := by
  unfold Undisturbed
  split <;> infer_instance

theorem Undisturbed.pending (hu : h.Undisturbed e) (hr : h.returning e = some c)
    (hm : c.moves = true) : h.file.pending.bytes = [] := by
  rw [Undisturbed, hr] at hu
  cases c with
  | move w => exact hu
  | room w => exact hu
  | _ => simp [Caller.moves] at hm

/-- A flush that has sent everything returns to its caller. -/
theorem Lands.land (hk : Kept sent none h) (hclean : Clean h)
    (hf : h.frames t = some ⟨c, .flight base length stage⟩) (hview : h.view peer' = h.view peer)
    (hall : ∀ i < h.file.draining.bytes.length, Has peer' h.books.drainBase h.file.draining.bytes i)
    (hsent : ∀ i, SentAt sent base h.file.draining.bytes i)
    (hp : c.moves = true → h.file.pending.bytes = []) :
    Lands c.placing h peer (h.land o t c true) peer' := by
  obtain ⟨hk', hr⟩ := hk.finishFlush true hf fun _ => hsent
  refine (Lands.finishFlush hk.sound hclean hf hview hall).advance (.resume hk' hr fun hm => ?_)
  rw [Handle.finishFlush, give_file]
  exact hp hm

/-- **One step of a flush that succeeds.** -/
theorem Lands.flushStep (hk : Kept sent none h) (hclean : Clean h) (hin : InFlight h peer)
    {stage : Stage} (hf : h.frames t = some ⟨c, .flight base length stage⟩)
    (hok : e.succeeds = true) (hp : ∀ {c'}, h.returning e = some c' → c'.moves = true →
      h.file.pending.bytes = []) (ht : h.frameOf e = some (t, ⟨c, .flight base length stage⟩))
      (hr : h.flushStep o t c base length stage e = some r)
    : Lands c.placing h peer r.1 (pwriteAll peer r.2) := by
  obtain ⟨hbase, hlen, hpos, harr⟩ := hin t c base length stage hf
  have hsent := (hk.flights t c base length stage hf).2
  unfold Handle.flushStep at hr
  split at hr
  · simp [Event.succeeds] at hok
  · next slice =>
    rw [← some.inj hr]
    refine .parkFlight hk.sound hclean hf hbase hlen hpos rfl ?_
    split_ifs
    · exact nofun
    · exact ⟨hpos, fun i hi => absurd hi (by omega)⟩
  · next slice arrived u k n =>
    rw [← some.inj hr]
    subst hbase
    refine .parkFlight hk.sound hclean hf rfl hlen hpos (view_put h peer k n) ?_
    intro r hr i h₁ h₂ h₃
    refine .put (by omega) ?_
    rcases mem_append.mp hr with hr | hr
    · exact .inl (harr r hr i h₁ h₂ h₃)
    · rw [mem_singleton.mp hr] at h₁ h₂
      exact .inr ⟨h₁, h₂⟩
  · next slice arrived u =>
    split_ifs at hr with hcov
    rw [← some.inj hr]
    subst hbase
    refine .land hk hclean hf rfl (fun i hi => ?_) (fun i => .stored (hlen ▸ hcov) hsent) (hp ?_)
    · obtain ⟨q, hq, h₁, h₂⟩ := covered_eq_true hcov (show i < length by omega)
      exact harr q hq i h₁ h₂ (by omega)
    · obtain ⟨g, hg, heq⟩ := map_eq_some_iff.mp
        (show (h.frames u).map (fun f => (u, f)) = some _ from ht)
      obtain ⟨rfl, -⟩ := Prod.mk.inj heq
      rw [returning, hf]
      exact if_pos hcov
  · simp [Event.succeeds] at hok
  · next slice done u ok part =>
    obtain rfl : ok = true := hok
    obtain ⟨hdone, hhas⟩ := harr
    have hcap := hclean.draining
    simp only [if_true] at hr
    rw [if_neg (by omega)] at hr
    subst hbase
    have hview := view_put h peer done (h.piece length slice done)
    have hput : ∀ i < done + h.piece length slice done, i < length →
        Has (pwrite peer (h.books.drainBase + done)
          (ByteFile.slice h.file.draining.bytes done (h.piece length slice done)))
          h.books.drainBase h.file.draining.bytes i := by
      intro i hi hil
      refine Has.put (by omega) ?_
      rcases Nat.lt_or_ge i done with hlt | hge
      · exact .inl (hhas i hlt)
      · exact .inr ⟨hge, hi⟩
    split_ifs at hr with hlast
    · rw [← some.inj hr]
      refine .land (hk.more _) hclean hf hview (fun i hi => hput i (by omega) (by omega))
        (fun i => .wrote (.inr (hlen ▸ hlast)) hsent) (hp ?_)
      obtain ⟨g, hg, heq⟩ := map_eq_some_iff.mp
        (show (h.frames u).map (fun f => (u, f)) = some _ from ht)
      obtain ⟨rfl, -⟩ := Prod.mk.inj heq
      rw [returning, hf]
      exact if_pos hlast
    · rw [← some.inj hr]
      refine .parkFlight hk.sound hclean hf rfl hlen hpos hview ?_
      exact ⟨by omega, fun i hi => hput i hi (by omega)⟩
  · cases hr

theorem Lands.goOn (hk : Kept sent none h) (hclean : Clean h) (hin : InFlight h peer) {f : Frame}
    {r : Handle × List (ℕ × List UInt8)} (hf : h.frames t = some f) (hok : e.succeeds = true)
    (hu : h.Undisturbed e) (ht : h.frameOf e = some (t, f)) (hr : h.goOn o t f e = some r) :
    Lands f.caller.placing h peer r.1 (pwriteAll peer r.2) := by
  obtain ⟨c, ph⟩ := f
  unfold Handle.goOn at hr
  cases ph with
  | queued => cases hr
  | flight base length stage =>
    exact .flushStep hk hclean hin hf hok (fun h₁ => hu.pending h₁) ht hr
  | woken =>
    simp only at hr
    split at hr
    · obtain ⟨hk', hfree, hrun⟩ := hk.unpark_woken hf
      have hcall := hk'.takeWindow hfree hrun ((hk.frames t _ hf).waiting .queued (.inl rfl))
        fun _ _ _ => hclean.ok
      have hadv := (Advance.unpark (W := c.placing) h t).trans (.takeWindow hk'.sound hfree t c)
      have hpend := @takeWindow_pending (h.unpark t) t c
      split at hr
      · next h' ok heq =>
        rw [heq] at hcall hadv hpend
        rw [← some.inj hr]
        obtain rfl : ok = true := by
          cases ok with
          | true => rfl
          | false =>
            exact absurd ((hcall.returned false rfl).failed rfl)
              (by rw [(hadv.clean hclean).ok]; decide)
        exact (hadv.trans (.resume hcall.kept (hcall.returned true rfl) fun _ =>
          hpend (by simp))).lands hin hclean
      · next h' heq =>
        rw [heq] at hadv
        rw [← some.inj hr]
        exact hadv.lands hin hclean
    · cases hr
  | syncing =>
    simp only at hr
    split at hr
    · rw [← some.inj hr]
      refine ((Advance.unpark h t).trans (.reply _ fun u => ?_)).lands hin hclean
      split_ifs <;> simp
    · cases hr

/-- The write that arrives with an event. -/
def arriving (h : Handle) : Event → Option Write
  | .write off data => some ⟨h.books.next, off, data⟩
  | _ => none

theorem Advance.arrive (hk : Kept sent none h) (hclean : Clean h) (hr : h.arrive o e = some h') :
    Advance (h.arriving e) h h' := by
  have hnew : Running h.number h.books.next :=
    ⟨Nat.lt_succ_self _, hk.sound.fresh _ (le_refl _)⟩
  have hcn : Clean h.number := { hclean with }
  unfold Handle.arrive at hr
  split at hr
  · rw [← some.inj hr]
    exact (Advance.turn h _).doWrite ⟨(Advance.number h).trans (.request _ _),
      hk.number.request (Nat.lt_succ_self _), ⟨hnew.lt, hnew.none⟩,
      mem_append_right _ (mem_singleton_self _)⟩
  · rw [← some.inj hr]
    exact (Advance.number h).trans (.callFlush (c := .flush _ h.books.acked) hk.number hnew
      ⟨fun _ hw => hw, trivial⟩ rfl hcn)
  · rw [← some.inj hr]
    exact (Advance.number h).trans (.callFlush (c := .path) hk.number hnew trivial rfl hcn)
  · cases hr

/-- The write an event may place: the one that arrives, or that of the `doWrite` it
resumes. -/
def placing (h : Handle) (e : Event) : Option Write :=
  match h.frameOf e with
  | some (_, f) => f.caller.placing
  | none => h.arriving e

/-- **One step of a handle whose peer refuses nothing**: the view changes by the write the
step places, and by nothing else. -/
theorem Lands.step (hk : Kept sent none h) (hclean : Clean h) (hin : InFlight h peer)
    (hok : e.succeeds = true) (hu : h.Undisturbed e) (hr : h.step o e = some r) :
    Lands (h.placing e) h peer r.1 (pwriteAll peer r.2) := by
  rw [Handle.step] at hr
  rw [placing]
  cases hfo : h.frameOf e with
  | some p =>
    obtain ⟨t, f⟩ := p
    rw [hfo] at hr
    exact .goOn hk hclean hin (frameOf_eq_some hfo).1 hok hu hfo hr
  | none =>
    rw [hfo] at hr
    obtain ⟨h', ha, rfl⟩ := map_eq_some_iff.mp hr
    exact (Advance.arrive hk hclean ha).lands hin hclean

end Handle

/-! ## Runs -/

/-- The ranges of two writes do not meet. -/
def Write.Disjoint (v w : Write) : Prop :=
  v.off + v.data.length ≤ w.off ∨ w.off + w.data.length ≤ v.off

instance (v w : Write) : Decidable (v.Disjoint w) := by
  unfold Write.Disjoint
  infer_instance

namespace Mounted

variable {o : Options} {file : List UInt8} {s s' : Mounted} {e : Event} {es : List Event}

/-- No `doWrite` finds another's bytes in the window it flushed in order to move it. -/
def Undisturbed (s : Mounted) (e : Event) : Prop := s.handle.Undisturbed e

instance (s : Mounted) (e : Event) : Decidable (s.Undisturbed e) :=
  inferInstanceAs (Decidable (s.handle.Undisturbed e))

/-- The handle is working towards `file` with the placed writes put on it in turn. -/
structure Landed (file : List UInt8) (s : Mounted) : Prop where
  kept : s.handle.Kept s.taken none
  clean : s.handle.Clean
  inFlight : s.handle.InFlight s.peer
  view_eq : s.handle.view s.peer = pwriteAll file (s.handle.books.placed.map Write.range)

theorem Landed.opened (page : ℕ) (file : List UInt8) : Landed file (Mounted.opened page file) :=
  ⟨.opened page true, ⟨rfl, fun _ ht => absurd ht (by simp [Mounted.opened]), Nat.zero_le _,
    Nat.zero_le _⟩, fun _ _ _ _ _ hf => absurd hf (by
    simp [Mounted.opened]), rfl⟩

theorem Landed.step (hl : Landed file s) (h : s.Undisturbed e ∧ e.succeeds = true)
    (hs : step o s e = some s') : Landed file s' := by
  obtain ⟨r, hr, rfl⟩ := map_eq_some_iff.mp hs
  have hlands := Handle.Lands.step hl.kept hl.clean hl.inFlight h.2 h.1 hr
  refine ⟨hl.kept.step (hl.clean.onTime e) hr, hlands.clean, hlands.inFlight, ?_⟩
  obtain ⟨ws, hws, hv⟩ := hlands.view
  rw [hv, hl.view_eq, hws.placed, map_append, pwriteAll_append]

theorem Landed.run {s : Mounted} (hl : Landed file s) (hok : ∀ e ∈ es, e.succeeds = true)
    (hu : Runs.Meets (Mounted.step o) Undisturbed s es)
    (hrun : Runs.exec (Mounted.step o) s es = some s') : Landed file s' :=
  Runs.exec_invariant (I := Landed file) Landed.step hl (hu.and_events hok) hrun

/-- A flush under way, with no write in progress. -/
structure Closing (file : List UInt8) (t : ℕ) (s : Mounted) : Prop where
  landed : Landed file s
  quiet : s.handle.Quiet
  settling : s.handle.Settling t

variable {t : ℕ}

theorem Closing.step (hc : Closing file t s) (h : s.Undisturbed e ∧ e.succeeds = true ∧
      e.writes = false) (hs : step o s e = some s') : Closing file t s' := by
  have hl := hc.landed.step ⟨h.1, h.2.1⟩ hs
  obtain ⟨r, hr, rfl⟩ := map_eq_some_iff.mp hs
  exact ⟨hl, hc.quiet.step h.2.2 hr, hc.settling.step hc.landed.kept hc.quiet h.2.2 hr⟩

/-- The final flush is requested when every write has been answered. -/
theorem Closing.flush {sync : Bool} (hl : Landed file s) (hq : s.handle.Quiet)
    (hu : s.Undisturbed (.flush sync)) (hs : Mounted.step o s (.flush sync) = some s') :
    Closing file s.handle.books.next s' := by
  have hl' := hl.step ⟨hu, rfl⟩ hs
  obtain ⟨r, hr, rfl⟩ := map_eq_some_iff.mp hs
  refine ⟨hl', hq.step rfl hr, ?_⟩
  obtain rfl := some.inj
    (show some (s.handle.number.callFlush o s.handle.books.next _, []) = some r from hr)
  exact .call (c := .flush sync s.handle.books.acked) hl.kept hl.clean.ok rfl

/-- A handle that holds nothing back has put exactly the acknowledged writes on the peer. -/
theorem Closing.peer_eq (hc : Closing file t s) (hset : s.handle.Settled) :
    s.peer = pwriteAll file (s.handle.books.placed.map Write.range) := by
  rw [← hc.landed.view_eq, Handle.view, hset.1, (hc.landed.kept.sound.idle hset.2).1]
  rfl

theorem Closing.mem_acked (hc : Closing file t s) {w : Write} (hw : w ∈ s.handle.books.placed) :
    w ∈ s.handle.books.acked := by
  rcases hc.landed.kept.answered w hw with h | h | h | ⟨u, ph, hu⟩
  · cases h
  · exact h
  · rw [hc.landed.clean.ok] at h
    exact absurd h (by decide)
  · exact absurd (hc.quiet u _ hu) (by simp [Caller.writes])

/-- **Writes land at their own offsets.**  A file is opened, any writes and flushes run in
any interleaving, and the peer refuses nothing.  When every write has been answered a last
flush is requested, and it is answered with success.  If the requested ranges do not
overlap, the peer then holds every acknowledged write where it was asked for, no other byte
has changed, and the file is no longer than that needs: in every run in which the window is
empty whenever the flush of a `doWrite` that moves it completes. -/
theorem writes_land_at_their_offsets {page : ℕ} {sync : Bool} {es' : List Event}
    (hok : ∀ e ∈ es ++ .flush sync :: es', e.succeeds = true)
    (hu : Runs.Meets (step o) Undisturbed (opened page file) (es ++ .flush sync :: es'))
    (hrun : Runs.exec (step o) (opened page file) es = some s) (hanswered : s.handle.Quiet)
    (hlast : ∀ e ∈ es', e.writes = false)
    (hrun' : Runs.exec (step o) s (.flush sync :: es') = some s') {before accepted : List Write}
    (hflush : Reply.flushed s.handle.books.next before accepted ∈ s'.handle.books.replies)
    (hdisj : ∀ v ∈ s'.handle.books.requested, ∀ w ∈ s'.handle.books.requested, v ≠ w →
      v.Disjoint w) :
    (∀ w ∈ s'.handle.books.acked, slice s'.peer w.off w.data.length = w.data) ∧
      (∀ i, (∀ w ∈ s'.handle.books.acked, ¬ (w.off ≤ i ∧ i < w.off + w.data.length)) →
        cellAt s'.peer i = cellAt file i) ∧
      ∀ i, i < s'.peer.length ↔ i < file.length ∨
        ∃ w ∈ s'.handle.books.acked, w.data ≠ [] ∧ i < w.off + w.data.length := by
  obtain ⟨hu₁, hu₂⟩ := hu.append hrun
  have hl := (Landed.opened page file).run (fun e he => hok e (mem_append_left _ he)) hu₁ hrun
  obtain ⟨s₁, hs₁, hrun₁⟩ := Runs.exec_cons_eq_some hrun'
  obtain ⟨hflushed, hu₃⟩ := hu₂.cons hs₁
  have hmeets := hu₃.and_events (p := fun e => e.succeeds = true ∧ e.writes = false) fun e he =>
    ⟨hok e (mem_append_right _ (mem_cons_of_mem _ he)), hlast e he⟩
  have hclosing : Closing file s.handle.books.next s' :=
    Runs.exec_invariant (I := Closing file s.handle.books.next) Closing.step
      (.flush hl hanswered hflushed hs₁) hmeets hrun₁
  have hset : s'.handle.Settled := by
    rcases hclosing.settling with ⟨-, hun⟩ | hset
    · exact absurd hflush (hun before accepted)
    · exact hset
  have hpeer := hclosing.peer_eq hset
  have hk := hclosing.landed.kept
  -- two placed writes that reach one position are one write
  have hone : ∀ v ∈ s'.handle.books.placed, ∀ w ∈ s'.handle.books.placed, ∀ i,
      v.off ≤ i ∧ i < v.off + v.data.length → w.off ≤ i ∧ i < w.off + w.data.length → v = w := by
    intro v hv w hw i hi hi'
    by_contra hne
    rcases hdisj v (hk.requested v hv) w (hk.requested w hw) hne with h | h <;> omega
  refine ⟨fun w hw => ?_, fun i hi => ?_, fun i => ?_⟩
  · rcases hk.acked w hw with hnil | hplaced
    · rw [hnil, length_nil, slice_zero_length]
    have hmem : w.range ∈ s'.handle.books.placed.map Write.range := List.mem_map_of_mem hplaced
    have hreach : ∀ i, i < w.off + w.data.length → w.data ≠ [] → i < s'.peer.length := by
      intro i hi hne
      rw [hpeer, lt_length_pwriteAll_iff]
      exact .inr ⟨w.range, hmem, hne, hi⟩
    refine ext_cellAt ?_ fun i hi => ?_
    · rw [length_slice]
      rcases Nat.eq_zero_or_pos w.data.length with h0 | hpos
      · omega
      · have := hreach (w.off + w.data.length - 1) (by omega) (ne_nil_of_length_pos hpos)
        omega
    · rw [length_slice] at hi
      rw [cellAt_slice _ (by omega), hpeer]
      have hlt : i < w.data.length := by omega
      have hin : w.range.1 ≤ w.off + i ∧ w.off + i < w.range.1 + w.range.2.length :=
        ⟨Nat.le_add_right _ _, Nat.add_lt_add_left hlt _⟩
      rw [cellAt_pwriteAll_of_mem hin hmem, Write.range, Nat.add_sub_cancel_left]
      intro q hq hcov
      obtain ⟨v, hv, rfl⟩ := List.mem_map.mp hq
      rw [hone v hv w hplaced (w.off + i) hcov hin]
  · rw [hpeer]
    refine cellAt_pwriteAll_of_not_covered fun q hq => ?_
    obtain ⟨v, hv, rfl⟩ := List.mem_map.mp hq
    exact hi v (hclosing.mem_acked hv)
  · rw [hpeer, lt_length_pwriteAll_iff]
    refine or_congr_right ⟨?_, ?_⟩
    · rintro ⟨q, hq, hne, hlt⟩
      obtain ⟨v, hv, rfl⟩ := List.mem_map.mp hq
      exact ⟨v, hclosing.mem_acked hv, hne, hlt⟩
    · rintro ⟨w, hw, hne, hlt⟩
      exact ⟨w.range, List.mem_map_of_mem ((hk.acked w hw).resolve_left hne), hne, hlt⟩

/-- Two writes, the second of which moves the window; each part of the run up to the last
flush, and from it on. -/
def movedWindow : List Event :=
  [.write 0 [1, 1], .write 8 [2], .session 1 (some 4), .wrote 1 true 0]

def lastFlush : List Event := [.session 2 (some 4), .wrote 2 true 0]

theorem writes_land_at_their_offsets_moved_window :
    ∃ s s', Runs.exec (step ⟨100⟩) (opened 4 []) movedWindow = some s ∧
      Runs.exec (step ⟨100⟩) s (.flush false :: lastFlush) = some s' ∧
      s'.handle.books.acked = [⟨0, 0, [1, 1]⟩, ⟨1, 8, [2]⟩] ∧
      (∀ w ∈ s'.handle.books.acked, slice s'.peer w.off w.data.length = w.data) := by
  have hok : ∀ e ∈ movedWindow ++ .flush false :: lastFlush, e.succeeds = true := by decide
  have hu : Runs.Meets (step ⟨100⟩) Undisturbed (opened 4 [])
      (movedWindow ++ .flush false :: lastFlush) := by decide
  refine ⟨_, _, rfl, rfl, rfl, (writes_land_at_their_offsets hok hu rfl ?_ (by decide) rfl
    (show Reply.flushed 2 [⟨0, 0, [1, 1]⟩, ⟨1, 8, [2]⟩] [⟨0, 0, [1, 1]⟩, ⟨1, 8, [2]⟩] ∈ _ by decide)
    (by decide)).1⟩
  intro t f hf
  match t, hf with
  | 0, hf | 1, hf | t + 2, hf => exact absurd (show none = some f from hf) (by simp)

/-- **A write moves another's window.**  The second write does not continue the window of
the first and flushes it.  Meanwhile a third one fills the empty window and is
acknowledged.  The second then sets `WriteBase` to its own offset, and the byte of the
third is sent there; its own position keeps the gap's zero.  The ranges do not overlap and
the peer refuses nothing. -/
theorem write_moves_another_window :
    ∃ s', Runs.exec (step ⟨100⟩) (opened 4 [])
        [.write 0 [1, 1], .write 8 [2], .write 4 [3], .session 1 (some 4), .wrote 1 true 0,
          .flush false, .session 3 (some 4), .wrote 3 true 0] = some s' ∧
      (∀ v ∈ s'.handle.books.requested, ∀ w ∈ s'.handle.books.requested, v ≠ w →
        v.Disjoint w) ∧
      s'.handle.books.replies.getLast? =
        some (.flushed 3 s'.handle.books.acked s'.handle.books.accepted) ∧
      s'.peer = [1, 1, 0, 0, 0, 0, 0, 0, 3, 2] ∧
      ¬ ∀ w ∈ s'.handle.books.acked, slice s'.peer w.off w.data.length = w.data :=
  ⟨_, rfl, by decide, rfl, rfl, by decide⟩

end Mounted

end Rail.Fuse
