import Rail.Nfs.Gateway

/-!
# Where the bytes of an NFS read come from

The invariant of a session, kept by every step.  The buffer in front of a window, a fill that the
daemon has served, and a reply that is being sent each carry the tag of a read the daemon made, and
the bytes are the bytes of that read.  For the reply this needs the two buffers: the memory it
points into is not filled again before it is sent (`Keeps.sending`).  For the fill it needs the
gate: nobody else fills, or swaps the buffers, before it has installed what it read
(`Keeps.filling`).

A change settles when its answer arrives and the windows forget its path.  From then on no buffer in
front holds an earlier content of the file (`Fresh`), so a read that arrives later cannot return
one.  Two things are beyond the reach of `forget`, and `settles` excludes them: a fill that the
daemon served before the change and that installs after it, and a window that holds the file under
another name.  A window that fell back to the heap does not return what was read into it, which is
what `registers` excludes.
-/

namespace Rail.Nfs

open List Option Function ByteFile Memory

/-! ## Keeping what others hold -/

namespace Cached

variable {c c' c'' : Cached} {J : ℕ → Prop} {k : ℕ} {side : Bool} {b : Buffer}

@[simp] theorem buffer_setBuffer (c : Cached) (side : Bool) (b : Buffer) :
    (c.setBuffer side b).buffer side = b := by
  cases side <;> rfl

theorem buffer_setBuffer_of_ne (c : Cached) {side other : Bool} (h : other ≠ side) (b : Buffer) :
    (c.setBuffer side b).buffer other = c.buffer other := by
  cases side <;> cases other <;> first | rfl | exact absurd rfl h

@[simp] theorem front_setBuffer (c : Cached) (side : Bool) (b : Buffer) :
    (c.setBuffer side b).front = c.front := by
  cases side <;> rfl

@[simp] theorem path_setBuffer (c : Cached) (side : Bool) (b : Buffer) :
    (c.setBuffer side b).path = c.path := by
  cases side <;> rfl

@[simp] theorem users_setBuffer (c : Cached) (side : Bool) (b : Buffer) :
    (c.setBuffer side b).users = c.users := by
  cases side <;> rfl

@[simp] theorem filling_setBuffer (c : Cached) (side : Bool) (b : Buffer) :
    (c.setBuffer side b).filling = c.filling := by
  cases side <;> rfl

@[simp] theorem buffer_forget (c : Cached) (side : Bool) :
    c.forget.buffer side = (c.buffer side).forget := by
  cases side <;> rfl

@[simp] theorem buffer_give (c : Cached) (side : Bool) : c.give.buffer side = c.buffer side := by
  rw [give]
  split <;> rfl

@[simp] theorem front_give (c : Cached) : c.give.front = c.front := by
  rw [give]
  split <;> rfl

@[simp] theorem path_give (c : Cached) : c.give.path = c.path := by
  rw [give]
  split <;> rfl

@[simp] theorem users_give (c : Cached) : c.give.users = c.users := by
  rw [give]
  split <;> rfl

theorem window_give (c : Cached) : c.give.window = c.window := by
  rw [window, buffer_give, front_give, window]

/-- The calls in `J` find in `c'` what they rely on in `c`: that they are among its users, that the
gate is theirs and the buffer behind is as they left it, that what they are sending is still
there. -/
structure Keeps (J : ℕ → Prop) (c c' : Cached) : Prop where
  users : ∀ j, J j → j ∈ c.users → j ∈ c'.users ∧ c'.path = c.path
  filling : ∀ j, J j → c.filling = some j → c'.filling = some j ∧
    (c'.buffer (!c'.front)).window.store = (c.buffer (!c.front)).window.store
  sending : ∀ j, J j → ∀ side, j ∈ (c.buffer side).sending →
    j ∈ (c'.buffer side).sending ∧ (c'.buffer side).window.store = (c.buffer side).window.store

theorem Keeps.refl (J : ℕ → Prop) (c : Cached) : Keeps J c c :=
  ⟨fun _ _ h => ⟨h, rfl⟩, fun _ _ h => ⟨h, rfl⟩, fun _ _ _ h => ⟨h, rfl⟩⟩

theorem Keeps.trans (h : Keeps J c c') (h' : Keeps J c' c'') : Keeps J c c'' := by
  refine ⟨fun j hj hu => ?_, fun j hj hf => ?_, fun j hj side hs => ?_⟩
  · obtain ⟨h₁, h₂⟩ := h.users j hj hu
    obtain ⟨h₃, h₄⟩ := h'.users j hj h₁
    exact ⟨h₃, h₄.trans h₂⟩
  · obtain ⟨h₁, h₂⟩ := h.filling j hj hf
    obtain ⟨h₃, h₄⟩ := h'.filling j hj h₁
    exact ⟨h₃, h₄.trans h₂⟩
  · obtain ⟨h₁, h₂⟩ := h.sending j hj side hs
    obtain ⟨h₃, h₄⟩ := h'.sending j hj side h₁
    exact ⟨h₃, h₄.trans h₂⟩

/-- A change of the fields that nobody relies on, and of who uses the window. -/
theorem Keeps.of_buffers (hb : ∀ side, c'.buffer side = c.buffer side) (hfront : c'.front = c.front)
    (hu : ∀ j, J j → j ∈ c.users → j ∈ c'.users ∧ c'.path = c.path)
    (hf : ∀ j, J j → c.filling = some j → c'.filling = some j) : Keeps J c c' := by
  refine ⟨hu, fun j hj h => ⟨hf j hj h, ?_⟩, fun j _ side h => ?_⟩
  · rw [hb, hfront]
  · rw [hb]
    exact ⟨h, rfl⟩

theorem store_forget (b : Buffer) : b.forget.window.store = b.window.store :=
  Window.store_eq_of_pages rfl rfl

theorem Keeps.forget (J : ℕ → Prop) (c : Cached) : Keeps J c c.forget := by
  refine ⟨fun _ _ h => ⟨h, rfl⟩, fun _ _ h => ⟨h, ?_⟩, fun j _ side h => ?_⟩
  · rw [buffer_forget, store_forget]
    rfl
  · rw [buffer_forget, store_forget]
    exact ⟨h, rfl⟩

/-- The call that holds the gate gives it away, or does what only it may do. -/
theorem Keeps.give (hf : c.filling = some k) : Keeps (· ≠ k) c c.give :=
  .of_buffers (buffer_give c) (front_give c)
    (fun j _ hu => ⟨by rw [users_give]; exact hu, path_give c⟩)
    (fun j hj h => absurd (mem_unique h hf) hj)

theorem Keeps.leave (c : Cached) (k : ℕ) : Keeps (· ≠ k) c (c.leave k) :=
  .of_buffers (fun side => by cases side <;> rfl) rfl
    (fun _ hj hu => ⟨(mem_erase_of_ne hj).mpr hu, rfl⟩) (fun _ _ h => h)

/-- The buffer behind is filled, by the call that holds the gate, with nothing being sent from
it. -/
theorem Keeps.fill (hf : c.filling = some k) (hs : (c.buffer (!c.front)).sending = [])
    (b : Buffer) : Keeps (· ≠ k) c (c.setBuffer (!c.front) b) := by
  refine ⟨fun j _ h => ⟨by rw [users_setBuffer]; exact h, path_setBuffer ..⟩,
    fun j hj h => absurd (mem_unique h hf) hj, fun j _ side h => ?_⟩
  have hne : side ≠ !c.front := by
    rintro rfl
    rw [hs] at h
    exact absurd h not_mem_nil
  rw [buffer_setBuffer_of_ne c hne]
  exact ⟨h, rfl⟩

/-- A buffer whose memory stays and whose senders other than `k` stay. -/
theorem Keeps.setBuffer (side : Bool) (b : Buffer)
    (hb : b.window.store = (c.buffer side).window.store)
    (hs : ∀ j, J j → j ∈ (c.buffer side).sending → j ∈ b.sending) :
    Keeps J c (c.setBuffer side b) := by
  refine ⟨fun j _ h => ⟨by rw [users_setBuffer]; exact h, path_setBuffer ..⟩,
    fun j _ h => ⟨by rw [filling_setBuffer]; exact h, ?_⟩, fun j hj other h => ?_⟩
  · rw [front_setBuffer]
    by_cases hside : (!c.front) = side
    · subst hside
      rw [buffer_setBuffer, hb]
    · rw [buffer_setBuffer_of_ne c hside]
  · by_cases hside : other = side
    · subst hside
      rw [buffer_setBuffer, hb]
      exact ⟨hs j hj h, rfl⟩
    · rw [buffer_setBuffer_of_ne c hside]
      exact ⟨h, rfl⟩

end Cached

/-! ## The invariant -/

/-- The buffer holds what the daemon read. -/
structure Buffer.Holds (reads : List Tag) (b : Buffer) (t : Tag) : Prop where
  tag : b.tag = some t
  read : t ∈ reads
  path : t.path = b.window.path
  store : slice b.window.store 0 b.window.valid = slice t.content b.window.start b.window.valid
  size : b.window.fileSize = t.content.length
  within : b.window.start + b.window.valid ≤ t.content.length ∨ b.window.valid = 0

variable {b : Buffer} {reads : List Tag}

theorem Buffer.Holds.of_window {b' : Buffer} {t : Tag} (h : b.Holds reads t)
    (hw : b'.window = b.window) (ht : b'.tag = b.tag) : b'.Holds reads t := by
  refine ⟨ht.trans h.tag, h.read, ?_, ?_, ?_, ?_⟩
  all_goals rw [hw]
  · exact h.path
  · exact h.store
  · exact h.size
  · exact h.within

/-- A reply as it should be: the bytes of a read the daemon made of the file, at the offset that was
asked for, `eof` where they reach the end of what the daemon reported, and no earlier than any
change that had been answered. -/
structure AnswerOk (reads : List Tag) (r : ReadCall) (a : Answer) : Prop where
  untagged : a.tag = none → a.bytes = []
  read : ∀ t, a.tag = some t → t ∈ reads ∧ t.path = r.path
  bytes : ∀ t, a.tag = some t → a.bytes = slice t.content r.off a.bytes.length
  eof : ∀ t, a.tag = some t → (a.eof = true ↔ t.content.length ≤ r.off + a.bytes.length)
  known : ∀ t, a.tag = some t → ∀ c ∈ r.known, c.file = t.file → c.version ≤ t.version

/-- The read is of another file, or not older than the change. -/
def Tag.follows (t : Tag) (c : Change) : Bool :=
  decide (t.file ≠ c.file) || decide (c.version ≤ t.version)

namespace Gateway

/-- No change that has settled is missing from the read. -/
def Fresh (s : Gateway) (t : Tag) : Prop :=
  ∀ c ∈ s.settled, c.file = t.file → c.version ≤ t.version

structure EntryOk (s : Gateway) (c : Cached) : Prop where
  path : 0 < c.window.valid → c.window.path = c.path
  front : 0 < c.window.valid → ∃ t, (c.buffer c.front).Holds s.reads t ∧ s.Fresh t

/-- What a call that reads relies on while it waits. -/
structure Waits (s : Gateway) (k : ℕ) (r : ReadCall) (c : Cached) : Prop where
  known : ∀ ch ∈ r.known, ch ∈ s.settled
  uses : k ∈ c.users
  path : c.path = r.path

/-- What a fill that the daemon has served relies on. -/
structure Fills (s : Gateway) (k : ℕ) (r : ReadCall) (n start : ℕ) (t : Tag) (c : Cached) :
    Prop where
  waits : s.Waits k r c
  gate : c.filling = some k
  start_le : start ≤ r.off
  read : t ∈ s.reads
  path : t.path = r.path
  fresh : s.Fresh t
  within : start + n ≤ t.content.length ∨ n = 0
  store : slice (c.buffer (!c.front)).window.store 0 n = slice t.content start n

def FrameOk (s : Gateway) (k : ℕ) : Frame → Prop
  | .direct r => ∀ c ∈ r.known, c ∈ s.settled
  | .served r _ a => AnswerOk s.reads r a
  | .queued r e => ∃ c, s.windows[e]? = some c ∧ s.Waits k r c
  | .filling r e => ∃ c, s.windows[e]? = some c ∧ s.Waits k r c ∧ c.filling = some k
  | .answered r e n start t => ∃ c, s.windows[e]? = some c ∧ s.Fills k r n start t c
  | .sending r e side into mine eof tag => ∃ c, s.windows[e]? = some c ∧
      k ∈ (c.buffer side).sending ∧ tag.isSome = true ∧
      AnswerOk s.reads r ⟨slice (c.buffer side).window.store into mine, eof, tag⟩
  | .change _ _ => True
  | .applied _ c => c.version < (s.hist c.file).length
  | .settled c => c ∈ s.settled

/-- **The invariant of a session.** -/
structure Sound (s : Gateway) : Prop where
  entries : ∀ (e : ℕ) (c : Cached), s.windows[e]? = some c → s.EntryOk c
  frames : ∀ (k : ℕ) (f : Frame), s.frames k = some f → s.FrameOk k f
  numbered : ∀ (k : ℕ) (f : Frame), s.frames k = some f → k < s.next
  acked : ∀ c ∈ s.acked, c ∈ s.settled
  settled : ∀ c ∈ s.settled, c.version < (s.hist c.file).length
  reads : ∀ t ∈ s.reads, (s.hist t.file)[t.version]? = some t.content
  replies : ∀ p ∈ s.replies, AnswerOk s.reads p.call p.answer

variable {o : ExportOptions} {s s' : Gateway} {J : ℕ → Prop} {j k e : ℕ} {c c' : Cached} {t : Tag}
  {r : ReadCall} {l : Luck}

/-! ## What a step leaves to the others -/

/-- From `s` to `s'` the calls in `J` keep what they rely on. -/
structure Extends (J : ℕ → Prop) (s s' : Gateway) : Prop where
  windows : ∀ (e : ℕ) (c : Cached), s.windows[e]? = some c →
    ∃ c', s'.windows[e]? = some c' ∧ c.Keeps J c'
  reads : ∀ t ∈ s.reads, t ∈ s'.reads
  settled : ∀ c ∈ s.settled, c ∈ s'.settled
  hist : ∀ f, (s.hist f).length ≤ (s'.hist f).length
  fresh : ∀ (j : ℕ) (r : ReadCall) (e n start : ℕ) (t : Tag), J j →
    s.frames j = some (.answered r e n start t) → s.Fresh t → s'.Fresh t

theorem answerOk_mono {reads' : List Tag} {a : Answer} (h : AnswerOk reads r a)
    (hr : ∀ t ∈ reads, t ∈ reads') : AnswerOk reads' r a :=
  { h with read := fun t ht => ⟨hr t (h.read t ht).1, (h.read t ht).2⟩ }

theorem Waits.mono (hw : s.Waits j r c) (hx : Extends J s s') (hj : J j) (hk : c.Keeps J c') :
    s'.Waits j r c' := by
  obtain ⟨hu, hp⟩ := hk.users j hj hw.uses
  exact ⟨fun ch hch => hx.settled ch (hw.known ch hch), hu, hp.trans hw.path⟩

/-- A suspended call finds what it relies on after the step of another. -/
theorem FrameOk.mono {f : Frame} (h : s.FrameOk j f) (hx : Extends J s s') (hj : J j)
    (hfresh : ∀ r e n start t, f = .answered r e n start t → s.Fresh t → s'.Fresh t) :
    s'.FrameOk j f := by
  cases f with
  | direct r => exact fun c hc => hx.settled c (h c hc)
  | served r w a => exact answerOk_mono h hx.reads
  | queued r e =>
    obtain ⟨c, hc, hw⟩ := h
    obtain ⟨c', hc', hk⟩ := hx.windows e c hc
    exact ⟨c', hc', hw.mono hx hj hk⟩
  | filling r e =>
    obtain ⟨c, hc, hw, hgate⟩ := h
    obtain ⟨c', hc', hk⟩ := hx.windows e c hc
    exact ⟨c', hc', hw.mono hx hj hk, (hk.filling j hj hgate).1⟩
  | answered r e n start t =>
    obtain ⟨c, hc, hw⟩ := h
    obtain ⟨c', hc', hk⟩ := hx.windows e c hc
    obtain ⟨hgate, hstore⟩ := hk.filling j hj hw.gate
    exact ⟨c', hc', hw.waits.mono hx hj hk, hgate, hw.start_le, hx.reads t hw.read, hw.path,
      hfresh r e n start t rfl hw.fresh, hw.within, by rw [hstore]; exact hw.store⟩
  | sending r e side into mine eof tag =>
    obtain ⟨c, hc, hs, htag, ha⟩ := h
    obtain ⟨c', hc', hk⟩ := hx.windows e c hc
    obtain ⟨hs', hstore⟩ := hk.sending j hj side hs
    exact ⟨c', hc', hs', htag, by rw [hstore]; exact answerOk_mono ha hx.reads⟩
  | change path op => exact trivial
  | applied path c => exact Nat.lt_of_lt_of_le h (hx.hist c.file)
  | settled c => exact hx.settled c h

theorem EntryOk.mono (h : s.EntryOk c) (hr : ∀ t ∈ s.reads, t ∈ s'.reads)
    (hs : s'.settled = s.settled) : s'.EntryOk c := by
  refine ⟨h.path, fun hv => ?_⟩
  obtain ⟨t, ht, hfresh⟩ := h.front hv
  exact ⟨t, { ht with read := hr t ht.read }, fun ch hch => hfresh ch (hs ▸ hch)⟩

/-- Only the buffer in front and the path matter. -/
theorem EntryOk.of_front (h : s.EntryOk c) (hw : c'.window = c.window)
    (ht : (c'.buffer c'.front).tag = (c.buffer c.front).tag) (hp : c'.path = c.path) :
    s.EntryOk c' := by
  refine ⟨fun hv => ?_, fun hv => ?_⟩
  · rw [hw, hp]
    exact h.path (hw ▸ hv)
  · obtain ⟨t, hh, hfresh⟩ := h.front (hw ▸ hv)
    exact ⟨t, hh.of_window hw ht, hfresh⟩

/-- A buffer is changed: the one behind, or in what no window shows. -/
theorem EntryOk.setBuffer (h : s.EntryOk c) (side : Bool)
    (hb : c.front = side → b.window = (c.buffer side).window ∧ b.tag = (c.buffer side).tag) :
    s.EntryOk (c.setBuffer side b) := by
  have hsame : ((c.setBuffer side b).buffer c.front).window = (c.buffer c.front).window ∧
      ((c.setBuffer side b).buffer c.front).tag = (c.buffer c.front).tag := by
    by_cases hside : c.front = side
    · subst hside
      rw [Cached.buffer_setBuffer]
      exact hb rfl
    · rw [Cached.buffer_setBuffer_of_ne c hside]
      exact ⟨rfl, rfl⟩
  refine h.of_front ?_ ?_ (Cached.path_setBuffer ..)
  · rw [Cached.window, Cached.front_setBuffer]
    exact hsame.1
  · rw [Cached.front_setBuffer]
    exact hsame.2

/-- A window that holds nothing. -/
theorem EntryOk.of_valid_eq_zero (h : c.window.valid = 0) : s.EntryOk c :=
  ⟨fun hv => absurd hv (by omega), fun hv => absurd hv (by omega)⟩

variable {path : String} {d : Cached} {ws : List Cached}

/-- What the daemon reads now is no older than anything. -/
theorem Sound.of_current (hs : s.Sound) (h : s.current path = some t) :
    t.path = path ∧ (s.hist t.file)[t.version]? = some t.content ∧ s.Fresh t := by
  obtain ⟨f, -, h⟩ := bind_eq_some_iff.mp h
  obtain ⟨content, hlast, rfl⟩ := map_eq_some_iff.mp h
  refine ⟨rfl, ?_, fun ch hch hfile => ?_⟩
  · rw [← hlast, getLast?_eq_getElem?]
  · have := hs.settled ch hch
    rw [hfile] at this
    exact Nat.le_sub_one_of_lt this

theorem hist_length_le {old new : List (List UInt8)} (h : ∃ more, new = old ++ more) :
    old.length ≤ new.length := by
  obtain ⟨more, rfl⟩ := h
  rw [length_append]
  exact Nat.le_add_right ..

/-- A step of the call `k` only adds to what has happened. -/
structure Adds (k : ℕ) (s s' : Gateway) : Prop where
  settled : s'.settled = s.settled
  acked : ∀ c ∈ s'.acked, c ∈ s.acked ∨ c ∈ s.settled
  hist : ∀ f, ∃ more, s'.hist f = s.hist f ++ more
  next : s.next ≤ s'.next
  frames : ∀ j, j ≠ k → s'.frames j = s.frames j
  sub : ∀ t ∈ s.reads, t ∈ s'.reads
  reads : ∀ t ∈ s'.reads, t ∈ s.reads ∨ s.current t.path = some t
  replies : ∀ p ∈ s'.replies, p ∈ s.replies ∨ AnswerOk s'.reads p.call p.answer

theorem Adds.refl (k : ℕ) (s : Gateway) : Adds k s s :=
  ⟨rfl, fun _ => .inl, fun _ => ⟨[], (append_nil _).symm⟩, le_rfl, fun _ _ => rfl, fun _ => id,
    fun _ => .inl, fun _ => .inl⟩

theorem Adds.put (k : ℕ) (s : Gateway) (f : Option Frame) : Adds k s (s.put k f) :=
  { refl k s with frames := fun _ hj => update_of_ne hj .. }

/-- One handler takes a step: the others keep what they rely on. -/
theorem Sound.handler (hs : s.Sound) (hadds : Adds k s s')
    (hwin : ∀ (i : ℕ) (d : Cached), s.windows[i]? = some d → ∃ d', s'.windows[i]? = some d' ∧
      d.Keeps (· ≠ k) d') (hent : ∀ (i : ℕ) (d : Cached), s'.windows[i]? = some d → s'.EntryOk d)
    (hframe : ∀ f, s'.frames k = some f → k < s'.next ∧ s'.FrameOk k f) : s'.Sound := by
  have hx : Extends (· ≠ k) s s' :=
    ⟨hwin, hadds.sub, fun c hc => hadds.settled ▸ hc, fun f => hist_length_le (hadds.hist f),
      fun _ _ _ _ _ t _ _ hf ch hch => hf ch (hadds.settled ▸ hch)⟩
  refine ⟨hent, fun j f hf => ?_, fun j f hf => ?_, ?_, ?_, fun t ht => ?_, fun p hp => ?_⟩
  · by_cases hj : j = k
    · subst hj
      exact (hframe f hf).2
    · rw [hadds.frames j hj] at hf
      exact (hs.frames j f hf).mono hx hj fun r e n start t hft =>
        hx.fresh j r e n start t hj (hft ▸ hf)
  · by_cases hj : j = k
    · subst hj
      exact (hframe f hf).1
    · rw [hadds.frames j hj] at hf
      exact Nat.lt_of_lt_of_le (hs.numbered j f hf) hadds.next
  · rw [hadds.settled]
    exact fun c hc => (hadds.acked c hc).elim (hs.acked c) id
  · rw [hadds.settled]
    exact fun c hc => Nat.lt_of_lt_of_le (hs.settled c hc) (hist_length_le (hadds.hist c.file))
  · have hold : (s.hist t.file)[t.version]? = some t.content := by
      rcases hadds.reads t ht with hold | hnew
      · exact hs.reads t hold
      · exact (hs.of_current hnew).2.1
    obtain ⟨more, hmore⟩ := hadds.hist t.file
    rw [hmore, getElem?_append_left (List.getElem?_eq_some_iff.mp hold).1]
    exact hold
  · rcases hadds.replies p hp with hold | hnew
    · exact answerOk_mono (hs.replies p hold) hadds.sub
    · exact hnew

theorem keeps_set (hc : ws[e]? = some c) (hk : c.Keeps J c') :
    ∀ (i : ℕ) (d : Cached), ws[i]? = some d → ∃ d', (ws.set e c')[i]? = some d' ∧ d.Keeps J d' := by
  intro i d hd
  have hlt := (List.getElem?_eq_some_iff.mp hc).1
  rw [getElem?_set, if_pos hlt]
  split
  next he =>
    subst he
    obtain rfl := mem_unique hc hd
    exact ⟨c', rfl, hk⟩
  · exact ⟨d, hd, .refl J d⟩

theorem entries_set {P : Cached → Prop} (hc : ws[e]? = some c)
    (hs : ∀ (i : ℕ) (d : Cached), ws[i]? = some d → P d) (hc' : P c') :
    ∀ (i : ℕ) (d : Cached), (ws.set e c')[i]? = some d → P d := by
  intro i d hd
  have hlt := (List.getElem?_eq_some_iff.mp hc).1
  rw [getElem?_set, if_pos hlt] at hd
  split at hd
  · cases hd
    exact hc'
  · exact hs i d hd

theorem getElem?_set_self (hc : ws[e]? = some c) : (ws.set e c')[e]? = some c' := by
  rw [getElem?_set, if_pos (List.getElem?_eq_some_iff.mp hc).1, if_pos rfl]

/-- One handler takes a step, in one window. -/
theorem Sound.inWindow (hs : s.Sound) (hc : s.windows[e]? = some c)
    (hwin : s'.windows = s.windows.set e c') (hkeep : c.Keeps (· ≠ k) c') (hc' : s.EntryOk c')
    (hadds : Adds k s s') (hframe : ∀ f, s'.frames k = some f → k < s'.next ∧ s'.FrameOk k f) :
    s'.Sound := by
  refine hs.handler hadds ?_ ?_ hframe
  · rw [hwin]
    exact keeps_set hc hkeep
  · rw [hwin]
    exact entries_set hc (fun i d hd => (hs.entries i d hd).mono hadds.sub hadds.settled)
      (hc'.mono hadds.sub hadds.settled)

theorem frames_put_of_ne (s : Gateway) (f : Option Frame) (h : j ≠ k) :
    (s.put k f).frames j = s.frames j :=
  update_of_ne h ..

theorem frames_put_self (s : Gateway) (k : ℕ) (f : Option Frame) : (s.put k f).frames k = f :=
  update_self ..

/-- What a handler relies on does not depend on the other handlers. -/
theorem FrameOk.put {f : Option Frame} {g : Frame} (h : s.FrameOk k g) : (s.put j f).FrameOk k g :=
  h.mono (J := fun _ => True) ⟨fun _ c hc => ⟨c, hc, .refl _ c⟩, fun _ => id, fun _ => id,
    fun _ => le_rfl, fun _ _ _ _ _ _ _ _ => id⟩ trivial fun _ _ _ _ _ _ => id

/-- One handler takes a step, with the windows as they are. -/
theorem Sound.aside (hs : s.Sound) (hwin : s'.windows = s.windows) (hadds : Adds k s s')
    (hframe : ∀ f, s'.frames k = some f → k < s'.next ∧ s'.FrameOk k f) : s'.Sound := by
  refine hs.handler hadds (fun i d hd => ?_) (fun i d hd => ?_) hframe
  · exact ⟨d, by rw [hwin]; exact hd, .refl _ d⟩
  · rw [hwin] at hd
    exact (hs.entries i d hd).mono hadds.sub hadds.settled

theorem Sound.ends (hs : s.Sound) : (s.put k none).Sound := by
  refine hs.aside (k := k) rfl (.put k s _) fun g hg => ?_
  rw [frames_put_self] at hg
  cases hg

/-- A handler goes on to wait for something else. -/
theorem Sound.put (hs : s.Sound) {f : Frame} (hk : k < s.next) (hf : s.FrameOk k f) :
    (s.put k (some f)).Sound := by
  refine hs.aside (k := k) rfl (.put k s _) fun g hg => ?_
  rw [frames_put_self] at hg
  cases hg
  exact ⟨hk, hf.put⟩

/-! ## Replies out of a window -/

/-- The reply made from a buffer that holds what the daemon read. -/
theorem answerOk_of_holds (hb : b.Holds reads t) (hpath : b.window.path = r.path)
    (hstart : b.window.start ≤ r.off) (hknown : ∀ ch ∈ r.known, ch.file = t.file →
      ch.version ≤ t.version) {mine : ℕ}
      (hmine : mine = if r.off - b.window.start < b.window.valid then min r.count
      (b.window.valid - (r.off - b.window.start)) else 0) :
    AnswerOk reads r ⟨slice b.window.store (r.off - b.window.start) mine,
      decide (b.window.fileSize ≤ r.off + mine), b.tag⟩ := by
  have hfit : mine = 0 ∨ (r.off - b.window.start) + mine ≤ b.window.valid := by
    rw [hmine]
    split <;> omega
  have hbytes : slice b.window.store (r.off - b.window.start) mine =
      slice t.content r.off mine := by
    rcases hfit with hzero | hfit
    · rw [hzero, slice_zero_length, slice_zero_length]
    · have hleft : slice (slice b.window.store 0 b.window.valid) (r.off - b.window.start) mine =
          slice b.window.store (r.off - b.window.start) mine := by
        rw [slice_slice b.window.store hfit, Nat.zero_add]
      have hright : slice (slice t.content b.window.start b.window.valid)
          (r.off - b.window.start) mine = slice t.content r.off mine := by
        rw [slice_slice t.content hfit, Nat.add_sub_cancel' hstart]
      rw [← hleft, ← hright, hb.store]
  have hlen : (slice b.window.store (r.off - b.window.start) mine).length = mine := by
    rw [hbytes, length_slice]
    have := hb.within
    omega
  refine ⟨fun h => absurd (h.symm.trans hb.tag) (by simp), ?_, ?_, ?_, ?_⟩
  all_goals
    intro u hu
    obtain rfl := mem_unique hb.tag hu
  · exact ⟨hb.read, hb.path.trans hpath⟩
  · rw [hlen]
    exact hbytes
  · rw [hlen, decide_eq_true_eq, hb.size]
  · exact hknown

section

variable (hs : s.Sound)
include hs

/-- A reply is made from the buffer in front. -/
theorem Sound.respond (hd : s.windows[e]? = some d) (hkeep : d.Keeps (· ≠ k) c) (hok : s.EntryOk c)
    (hk : k < s.next) (hb : (c.buffer c.front).Holds s.reads t) (hfresh : s.Fresh t)
    (hpath : c.window.path = r.path) (hstart : c.window.start ≤ r.off)
    (hknown : ∀ ch ∈ r.known, ch ∈ s.settled) : (s.respond k r e c).Sound := by
  have hkeep' : d.Keeps (· ≠ k) (c.setBuffer c.front
      { c.buffer c.front with sending := k :: (c.buffer c.front).sending }) :=
    hkeep.trans (.setBuffer _ _ rfl fun j _ hj => mem_cons_of_mem _ hj)
  refine hs.inWindow hd rfl hkeep' (hok.setBuffer _ fun _ => ⟨rfl, rfl⟩) { Adds.put k s _ with }
    fun f hf => ?_
  rw [Gateway.respond, frames_put_self] at hf
  cases hf
  refine ⟨hk, _, getElem?_set_self hd, ?_, by rw [hb.tag]; rfl, ?_⟩
  · rw [Cached.buffer_setBuffer]
    exact mem_cons_self
  · rw [Cached.buffer_setBuffer]
    exact answerOk_of_holds hb hpath hstart
      (fun ch hch => hfresh ch (hknown ch hch)) rfl

/-! ## Reads -/

theorem Sound.frames_next : s.frames s.next = none := by
  cases h : s.frames s.next with
  | none => rfl
  | some f => exact absurd (hs.numbered s.next f h) (Nat.lt_irrefl _)

/-- No call takes the step. -/
theorem Sound.frame_next {P : Frame → Prop} (f : Frame) (hf : s.frames s.next = some f) : P f :=
  absurd (hs.frames_next.symm.trans hf) (by simp)

/-- A call is given its number. -/
theorem Sound.succ : ({ s with next := s.next + 1 } : Gateway).Sound :=
  hs.aside rfl { Adds.refl _ s with next := Nat.le_succ _ } hs.frame_next

/-- The daemon reads a file. -/
theorem Sound.recorded (ht : s.current path = some t) :
    ({ s with reads := t :: s.reads } : Gateway).Sound := by
  refine hs.aside rfl
    { Adds.refl _ s with
    sub := fun u => mem_cons_of_mem t, reads := fun u hu => ?_, replies := fun p => .inl }
    hs.frame_next
  rcases mem_cons.mp hu with rfl | hold
  · rw [(hs.of_current ht).1]
    exact .inr ht
  · exact .inl hold

/-- The scratch windows are nobody's concern. -/
theorem Sound.scratches (ws : List Window) : ({ s with scratches := ws } : Gateway).Sound :=
  hs.aside rfl { Adds.refl _ s with } hs.frame_next

end

/-- Nobody uses the window that is taken from its file. -/
theorem users_of_coldest :
    ∀ {i : ℕ} {best : Option (ℕ × ℕ)}, coldest i best ws = some e →
      (∃ b, best = some b ∧ b.1 = e) ∨ ∃ n c, e = i + n ∧ ws[n]? = some c ∧ c.users = [] := by
  induction ws with
  | nil =>
    intro i best h
    obtain ⟨b, hb, he⟩ := map_eq_some_iff.mp h
    exact .inl ⟨b, hb, he⟩
  | cons c cs ih =>
    intro i best h
    rw [coldest] at h
    split at h
    next hcold =>
      rw [Bool.and_eq_true, List.isEmpty_iff] at hcold
      rcases ih h with ⟨b, hb, he⟩ | ⟨n, d, he, hd, hu⟩
      · cases hb
        exact .inr ⟨0, c, he.symm, rfl, hcold.1⟩
      · exact .inr ⟨n + 1, d, by omega, hd, hu⟩
    · rcases ih h with hb | ⟨n, d, he, hd, hu⟩
      · exact .inl hb
      · exact .inr ⟨n + 1, d, by omega, hd, hu⟩

theorem modify_eq_set {g : Cached → Cached} (hc : ws[e]? = some c) :
    ws.modify e g = ws.set e (g c) := by
  rw [modify_eq_set_getElem?, hc]
  rfl

/-- What `windowFor` does: nothing, or it turns to one window, which is then the path's. -/
theorem windowFor_cases (s : Gateway) (path : String) : s.windowFor path = (s, none) ∨
      ∃ e c c', s.windowFor path =
          ({ s with ticks := s.ticks + 1, windows := s.windows.set e c' }, some e) ∧
        s.windows[e]? = some c ∧ c'.path = path ∧ (∀ J, c.Keeps J c') ∧
        (∀ s' : Gateway, s'.EntryOk c → s'.EntryOk c') := by
  rw [windowFor]
  split
  next e he =>
    obtain ⟨hlt, hpath, -⟩ := findIdx?_eq_some_iff_getElem.mp he
    have hc : s.windows[e]? = some s.windows[e] := getElem?_eq_getElem hlt
    refine .inr ⟨e, _, { s.windows[e] with used := s.ticks + 1 }, ?_, hc, by simpa using hpath,
      fun J => ?_, fun s' h => ?_⟩
    · rw [modify_eq_set hc]
    · exact .of_buffers (fun side => by cases side <;> rfl) rfl
        (fun _ _ hu => ⟨hu, rfl⟩) (fun _ _ h => h)
    · exact h.of_front rfl rfl rfl
  · split
    next e he =>
      rcases users_of_coldest he with ⟨b, hb, -⟩ | ⟨n, c, rfl, hc, hu⟩
      · cases hb
      rw [Nat.zero_add]
      refine .inr ⟨n, c, { c.forget with path, last := 0, used := s.ticks + 1 }, ?_, hc, rfl,
        fun J => ?_, fun s' _ => .of_valid_eq_zero ?_⟩
      · rw [modify_eq_set hc]
      · refine (Cached.Keeps.forget J c).trans (Cached.Keeps.of_buffers
          (fun side => by cases side <;> rfl) rfl (fun j _ hj => ?_) (fun _ _ h => h))
        have hnone : c.forget.users = [] := hu
        rw [hnone] at hj
        exact absurd hj not_mem_nil
      · show (c.forget.buffer c.front).window.valid = 0
        rw [Cached.buffer_forget]
        rfl
    · exact .inl rfl

theorem start_of_covers {w : Window} {off n : ℕ} (h : w.covers path off n = true) :
    0 < w.valid ∧ w.path = path ∧ w.start ≤ off := by
  rw [Window.covers] at h
  simp only [Bool.and_eq_true, decide_eq_true_eq, beq_iff_eq] at h
  exact ⟨h.1.1.1, h.1.1.2, h.1.2⟩

/-- A reply out of a window that covers what was asked for. -/
theorem Sound.respond_of_covers (hs : s.Sound) (hd : s.windows[e]? = some d)
    (hkeep : d.Keeps (· ≠ k) c) (hok : s.EntryOk c) (hk : k < s.next)
    (hcov : c.window.covers r.path r.off r.count = true) (hknown : ∀ ch ∈ r.known, ch ∈ s.settled) :
    (s.respond k r e c).Sound := by
  obtain ⟨hvalid, hpath, hstart⟩ := start_of_covers hcov
  obtain ⟨t, hb, hfresh⟩ := hok.front hvalid
  exact hs.respond hd hkeep hok hk hb hfresh hpath hstart hknown

theorem Sound.onWindowedRead (hs : s.Sound) (hd : s.windows[e]? = some d)
    (hkeep : d.Keeps (· ≠ k) c) (hok : s.EntryOk c) (hk : k < s.next) (hpath : c.path = r.path)
    (hknown : ∀ ch ∈ r.known, ch ∈ s.settled) : (s.onWindowedRead k r e c).Sound := by
  rw [Gateway.onWindowedRead]
  dsimp only
  -- The call is counted among the users, and perhaps takes the gate or a place before it.
  have husers : ∀ f w, (∀ j, j ≠ k → c.filling = some j → f = some j) →
      d.Keeps (· ≠ k) { c with users := k :: c.users, filling := f, waiting := w } :=
    fun f w hf => hkeep.trans (.of_buffers (fun side => by cases side <;> rfl) rfl
      (fun _ _ hu => ⟨mem_cons_of_mem _ hu, rfl⟩) hf)
  split
  next hcov =>
    exact hs.respond_of_covers hd (husers c.filling c.waiting fun _ _ h => h)
      (hok.of_front rfl rfl rfl) hk hcov hknown
  · split
    next hnone =>
      refine hs.inWindow hd rfl (husers (some k) c.waiting fun j _ h => ?_)
        (hok.of_front rfl rfl rfl) { Adds.put k s _ with } fun f hf => ?_
      · exact absurd (hnone.symm.trans h) (by simp)
      · rw [frames_put_self] at hf
        cases hf
        exact ⟨hk, _, getElem?_set_self hd, ⟨hknown, mem_cons_self, hpath⟩, rfl⟩
    · refine hs.inWindow hd rfl (husers c.filling (c.waiting ++ [k]) fun _ _ h => h)
        (hok.of_front rfl rfl rfl) { Adds.put k s _ with } fun f hf => ?_
      rw [frames_put_self] at hf
      cases hf
      exact ⟨hk, _, getElem?_set_self hd, ⟨hknown, mem_cons_self, hpath⟩⟩

/-- A window is turned to, and nothing else happens. -/
theorem Sound.setEntry (hs : s.Sound) (hc : s.windows[e]? = some c)
    (hkeep : c.Keeps (· ≠ s.next) c') (hc' : s.EntryOk c') (ticks : ℕ) :
    ({ s with ticks, windows := s.windows.set e c' } : Gateway).Sound :=
  hs.inWindow hc rfl hkeep hc' { Adds.refl _ s with } hs.frame_next

theorem Sound.onRead (hs : s.Sound) {off count : ℕ} (h : s.onRead o path off count = some s') :
    s'.Sound := by
  rw [Gateway.onRead] at h
  dsimp only at h
  have hsucc := hs.succ
  rcases windowFor_cases { s with next := s.next + 1 } path with hno | ⟨e, c, c', hw, hc, hp,
    hkeep, hok⟩
  · rw [hno] at h
    cases h
    exact hsucc.put (Nat.lt_succ_self _) hs.acked
  · rw [hw] at h
    dsimp only at h
    rw [getElem?_set_self hc, map_some, Option.some.injEq] at h
    have hturn := hsucc.setEntry hc (hkeep _) (hok _ (hsucc.entries e c hc)) (s.ticks + 1)
    have hself : (s.windows.set e c')[e]? = some c' := getElem?_set_self hc
    have hlast : ∀ J, c'.Keeps J { c' with last := (off + count) % 2 ^ 64 } := fun J =>
      .of_buffers (fun side => by cases side <;> rfl) rfl (fun _ _ hu => ⟨hu, rfl⟩)
        (fun _ _ h => h)
    have hentry := hturn.entries e c' hself
    split at h
    · subst h
      exact hturn.onWindowedRead hself (hlast _) (hentry.of_front rfl rfl rfl)
        (Nat.lt_succ_self _) hp hs.acked
    · subst h
      have hset := hturn.setEntry hself (hlast _) (hentry.of_front rfl rfl rfl) (s.ticks + 1)
      exact hset.put (Nat.lt_succ_self _) hs.acked

/-- A plain read replies with what was read, wherever it landed. -/
theorem plainBytes_eq {w : Window} {f : Refill} (hok : f.ok = true) : plainBytes w f = f.read := by
  rw [plainBytes]
  split
  next cap hcap =>
    have hbytes := Window.bytes_refill_of_page hcap hok
    rw [Window.bytes_eq_slice_store, Window.valid_refill, if_pos hok] at hbytes
    exact hbytes
  next hnone =>
    rw [Window.refill, hnone, hok]
    have := slice_pwrite_self ((w.page f.want f.found).1.room f.want).data 0 f.read
    exact this

/-- What the daemon returned, as a reply. -/
theorem answerOk_of_read {n : ℕ} {bytes : List UInt8} (ht : t ∈ reads) (hpath : t.path = r.path)
    (hknown : ∀ ch ∈ r.known, ch.file = t.file → ch.version ≤ t.version)
    (hb : bytes = slice t.content r.off n) :
    AnswerOk reads r ⟨bytes, decide (t.content.length ≤ r.off + bytes.length), some t⟩ := by
  refine ⟨nofun, ?_, ?_, ?_, ?_⟩
  all_goals
    intro u hu
    cases hu
  · exact ⟨ht, hpath⟩
  · show bytes = slice t.content r.off bytes.length
    rw [hb, slice_length_slice]
  · exact decide_eq_true_iff
  · exact hknown

theorem Sound.serveRead (hs : s.Sound) {i : ℕ} (h : s.serveRead o k i l = some s') : s'.Sound := by
  rw [Gateway.serveRead] at h
  split at h
  next r hf =>
    have hk := hs.numbered k _ hf
    have hknown : ∀ c ∈ r.known, c ∈ s.settled := hs.frames k _ hf
    dsimp only at h
    split at h
    · cases h
      exact (hs.scratches _).put hk ⟨fun _ => rfl, nofun, nofun, nofun, nofun⟩
    · obtain ⟨t, ht, rfl⟩ := map_eq_some_iff.mp h
      obtain ⟨hpath, -, hfresh⟩ := hs.of_current ht
      have hrec := hs.recorded ht
      split
      next hok =>
        refine (hrec.scratches _).put hk ?_
        show AnswerOk (t :: s.reads) r _
        rw [plainBytes_eq hok]
        exact answerOk_of_read mem_cons_self hpath (fun ch hch => hfresh ch (hknown ch hch)) rfl
      · exact (hrec.scratches _).ends
  · cases h

/-! ## Fills -/

theorem fillStart_le (o : ExportOptions) (off : ℕ) : fillStart o off ≤ off := by
  rw [fillStart]
  split
  · exact Nat.div_mul_le_self ..
  · exact le_refl _

/-- A fill that failed leaves the gate to the next. -/
theorem Sound.failFill (hs : s.Sound) (hd : s.windows[e]? = some d) (hkeep : d.Keeps (· ≠ k) c)
    (hgate : c.filling = some k) (hok : s.EntryOk c) : (s.failFill k e c).Sound := by
  refine hs.inWindow hd rfl
    ((hkeep.trans (Cached.Keeps.give hgate)).trans (Cached.Keeps.leave _ k)) ?_
    { Adds.put k s _ with } fun f hf => ?_
  · refine hok.of_front (Cached.window_give c) ?_ (Cached.path_give c)
    show (c.give.buffer c.give.front).tag = _
    rw [Cached.buffer_give, Cached.front_give]
  · rw [Gateway.failFill, frames_put_self] at hf
    cases hf

/-- A fill goes to registered memory. -/
def registers (o : ExportOptions) (s : Gateway) (k : ℕ) (l : Luck) : Bool :=
  match s.frames k with
  | some (.filling _ e) =>
    (s.windows[e]?).all fun c =>
      (c.buffer (!c.front)).forget.window.registers (min o.readahead o.transfer) l.found
  | _ => true

/-- What a fill has read is in the buffer behind. -/
theorem slice_store_filled
    (hreg : b.forget.window.registers (min o.readahead o.transfer) l.found = true)
    (hok : l.ok = true) :
    slice (filled o b r l t).window.store 0 (fill o b r l t).read.length =
    (fill o b r l t).read := by
  have hbytes := Window.bytes_refill_of_registers (r := fill o b r l t) hreg hok
  have hvalid := Window.valid_refill b.forget.window (fill o b r l t)
  rw [if_pos (show (fill o b r l t).ok = true from hok)] at hvalid
  rw [Window.bytes_eq_slice_store, hvalid] at hbytes
  exact hbytes

theorem Sound.serveFill (hs : s.Sound) (hreg : s.registers o k l = true)
    (h : s.serveFill o k l = some s') : s'.Sound := by
  rw [Gateway.serveFill] at h
  split at h
  next r e hf =>
    obtain ⟨c, hc, h⟩ := bind_eq_some_iff.mp h
    obtain ⟨t, ht, h⟩ := bind_eq_some_iff.mp h
    obtain ⟨d, hd, hwaits, hgate⟩ := hs.frames k _ hf
    obtain rfl := mem_unique hd hc
    obtain ⟨hpath, -, hfresh⟩ := hs.of_current ht
    have hrec := hs.recorded ht
    have hfront : ∀ b, s.EntryOk (d.setBuffer (!d.front) b) := fun b =>
      (hs.entries e d hd).setBuffer _ fun h => absurd h (by simp)
    dsimp only at h
    split at h
    next hidle =>
      have hkeep := Cached.Keeps.fill hgate hidle (filled o (d.buffer (!d.front)) r l t)
      split at h
      next hok =>
        cases h
        rw [registers, hf] at hreg
        dsimp only at hreg
        rw [hd, all_some] at hreg
        refine hrec.inWindow hd rfl hkeep ((hfront _).mono (fun u hu => mem_cons_of_mem _ hu) rfl)
          { Adds.put k _ _ with } fun f hf' => ?_
        rw [frames_put_self] at hf'
        obtain rfl := some.inj hf'
        refine ⟨hs.numbered k _ hf, _, getElem?_set_self hd, ⟨hwaits.known, ?_, ?_⟩, ?_,
          fillStart_le o r.off, mem_cons_self, hpath, hfresh, ?_, ?_⟩
        · rw [Cached.users_setBuffer]
          exact hwaits.uses
        · rw [Cached.path_setBuffer]
          exact hwaits.path
        · rw [Cached.filling_setBuffer]
          exact hgate
        · rw [fill]
          dsimp only
          rw [length_slice]
          omega
        · rw [Cached.front_setBuffer, Cached.buffer_setBuffer, slice_store_filled hreg hok, fill]
          dsimp only
          rw [slice_length_slice]
      · cases h
        exact hrec.failFill hd hkeep (by rw [Cached.filling_setBuffer]; exact hgate)
          ((hfront _).mono (fun u hu => mem_cons_of_mem _ hu) rfl)
    · cases h
  · cases h

/-- A buffer that holds `n` bytes of what the daemon read, from `start` on. -/
def loaded (b : Buffer) (r : ReadCall) (n start : ℕ) (t : Tag) : Buffer :=
  { b with
    window := { b.window with
      path := r.path, start, fileSize := t.content.length, valid := n }
    tag := some t }

/-- The buffer behind is `b`, and comes to the front. -/
def swapped (c : Cached) (b : Buffer) : Cached :=
  { c.setBuffer (!c.front) b with front := !(c.setBuffer (!c.front) b).front }

theorem buffer_swapped (c : Cached) (b : Buffer) :
    (swapped c b).buffer (swapped c b).front = b := by
  show (c.setBuffer (!c.front) b).buffer (!(c.setBuffer (!c.front) b).front) = b
  rw [Cached.front_setBuffer, Cached.buffer_setBuffer]

theorem keeps_swapped (hf : c.filling = some k)
    (hb : b.window.store = (c.buffer (!c.front)).window.store)
    (hsend : b.sending = (c.buffer (!c.front)).sending) : c.Keeps (· ≠ k) (swapped c b) := by
  have hset := Cached.Keeps.setBuffer (J := (· ≠ k)) (c := c) (!c.front) b hb
    (fun j _ hj => by rw [hsend]; exact hj)
  refine ⟨hset.users, fun j hj h => absurd (mem_unique h hf) hj, ?_⟩
  exact fun j hj side h => hset.sending j hj side h

/-- The reply of the call that filled the window, which gives the gate away. -/
theorem Sound.respond_give (hs : s.Sound) (hd : s.windows[e]? = some d) (hkeep : d.Keeps (· ≠ k) c)
    (hgate : c.filling = some k) (hk : k < s.next) (hb : (c.buffer c.front).Holds s.reads t)
    (hfresh : s.Fresh t) (hwin : c.window.path = r.path) (hpath : c.path = r.path)
    (hstart : c.window.start ≤ r.off) (hknown : ∀ ch ∈ r.known, ch ∈ s.settled) :
    (s.respond k r e c.give).Sound := by
  have hgive := Cached.window_give c
  have hholds : (c.give.buffer c.give.front).Holds s.reads t := by
    rw [Cached.buffer_give, Cached.front_give]
    exact hb
  refine hs.respond hd (hkeep.trans (.give hgate)) ⟨fun _ => ?_, fun _ => ?_⟩ hk hholds
    hfresh (by rw [hgive]; exact hwin) (by rw [hgive]; exact hstart) hknown
  · rw [hgive, Cached.path_give, hwin, hpath]
  · exact ⟨t, hholds, hfresh⟩

theorem Sound.install (hs : s.Sound) (h : s.install k = some s') : s'.Sound := by
  rw [Gateway.install] at h
  split at h
  next r e n start t hf =>
    obtain ⟨c, hc, rfl⟩ := map_eq_some_iff.mp h
    obtain ⟨d, hd, hfills⟩ := hs.frames k _ hf
    obtain rfl := mem_unique hd hc
    have hstore : (loaded (d.buffer (!d.front)) r n start t).window.store =
        (d.buffer (!d.front)).window.store := Window.store_eq_of_pages rfl rfl
    have hfront := buffer_swapped d (loaded (d.buffer (!d.front)) r n start t)
    refine hs.respond_give (c := swapped d (loaded (d.buffer (!d.front)) r n start t)) (t := t) hd
      (keeps_swapped hfills.gate hstore rfl) ?_ (hs.numbered k _ hf) ?_ hfills.fresh ?_ ?_ ?_
      hfills.waits.known
    · exact (Cached.filling_setBuffer ..).trans hfills.gate
    · rw [hfront]
      exact ⟨rfl, hfills.read, hfills.path, by rw [hstore]; exact hfills.store, rfl, hfills.within⟩
    · rw [Cached.window, hfront]
      rfl
    · exact (Cached.path_setBuffer ..).trans hfills.waits.path
    · rw [Cached.window, hfront]
      exact hfills.start_le
  · cases h

theorem Sound.wake (hs : s.Sound) (h : s.wake k = some s') : s'.Sound := by
  rw [Gateway.wake] at h
  split at h
  next r e hf =>
    obtain ⟨c, hc, h⟩ := bind_eq_some_iff.mp h
    obtain ⟨d, hd, hwaits⟩ := hs.frames k _ hf
    obtain rfl := mem_unique hd hc
    split at h
    next hgate =>
      split at h
      next hcov =>
        cases h
        obtain ⟨hvalid, hpath, hstart⟩ := start_of_covers hcov
        obtain ⟨t, hb, hfresh⟩ := (hs.entries e d hd).front hvalid
        exact hs.respond_give hd (.refl _ d) hgate (hs.numbered k _ hf) hb hfresh hpath
          hwaits.path hstart hwaits.known
      · cases h
        exact hs.put (hs.numbered k _ hf) ⟨d, hd, hwaits, hgate⟩
    · cases h
  · cases h

/-! ## Changes -/

theorem Sound.serveChange (hs : s.Sound) (h : s.serveChange k = some s') : s'.Sound := by
  rw [Gateway.serveChange] at h
  split at h
  next path op hf =>
    obtain ⟨f, -, rfl⟩ := map_eq_some_iff.mp h
    refine hs.aside (k := k) rfl { Adds.put k s _ with hist := fun g => ?_ } fun g hg => ?_
    · show ∃ more, Function.update s.hist f _ g = s.hist g ++ more
      by_cases hg : g = f
      · subst hg
        exact ⟨_, update_self ..⟩
      · rw [update_of_ne hg]
        exact ⟨[], (append_nil _).symm⟩
    · rw [frames_put_self] at hg
      cases hg
      refine ⟨hs.numbered k _ hf, ?_⟩
      show (s.hist f).length < (Function.update s.hist f _ f).length
      rw [update_self, length_append]
      exact Nat.lt_succ_self _
  · cases h

/-- The windows that are told to forget keep what others hold in them. -/
theorem windows_forget (i : ℕ) (d : Cached) (hd : s.windows[i]? = some d) :
    ∃ d', (s.forget path).windows[i]? = some d' ∧ d.Keeps J d' := by
  have hi : (s.forget path).windows[i]? =
      some (if d.path = path then { d.forget with last := 0 } else d) := by
    rw [Gateway.forget, getElem?_map, hd]
    rfl
  refine ⟨_, hi, ?_⟩
  split
  next =>
    exact (Cached.Keeps.forget J d).trans
      (Cached.Keeps.of_buffers (fun side => by cases side <;> rfl)
      rfl (fun _ _ hu => ⟨hu, rfl⟩) (fun _ _ h => h))
  · exact .refl J d

theorem entries_forget {P : Cached → Prop} (hold : ∀ (i : ℕ) (d : Cached), s.windows[i]? = some d →
      d.path ≠ path → P d) (hempty : ∀ d : Cached, d.window.valid = 0 → P d) (i : ℕ) (d : Cached)
      (hd : (s.forget path).windows[i]? = some d) :
    P d := by
  rw [Gateway.forget, getElem?_map] at hd
  obtain ⟨d, hdi, rfl⟩ := map_eq_some_iff.mp hd
  split
  · refine hempty _ ?_
    show (d.forget.buffer d.front).window.valid = 0
    rw [Cached.buffer_forget]
    rfl
  next hne => exact hold i d hdi hne

theorem Sound.forgets (hs : s.Sound) (path : String) : (s.forget path).Sound := by
  refine hs.handler { Adds.refl _ s with } windows_forget
    (entries_forget (fun i d hd _ => ?_) fun d hv => .of_valid_eq_zero hv) hs.frame_next
  exact (hs.entries i d hd).mono (fun t ht => ht) rfl

/-- When the answer to a change arrives, nothing older than the change is in a window of another
path, or on its way into a window. -/
def settles (s : Gateway) (k : ℕ) : Bool :=
  match s.frames k with
  | some (.applied path c) =>
    (s.windows.all fun d => decide (d.path = path) || decide (d.window.valid = 0) ||
      (d.buffer d.front).tag.all fun t => t.follows c) &&
    (List.range s.next).all fun j =>
      match s.frames j with
      | some (.answered _ _ _ _ t) => t.follows c
      | _ => true
  | _ => true

theorem Fresh.of_follows {ch : Change} (h : s.Fresh t) (ht : t.follows ch = true)
    (hs : s'.settled = ch :: s.settled) : s'.Fresh t := by
  intro d hd hfile
  rw [hs] at hd
  rcases mem_cons.mp hd with rfl | hold
  · rw [Tag.follows, Bool.or_eq_true, decide_eq_true_eq, decide_eq_true_eq] at ht
    exact ht.resolve_left fun hne => hne hfile.symm
  · exact h d hold hfile

theorem Sound.complete (hs : s.Sound) (hok : s.settles k = true) (h : s.complete k = some s') :
    s'.Sound := by
  rw [Gateway.complete] at h
  split at h
  next path ch hf =>
    cases h
    rw [settles, hf] at hok
    dsimp only at hok
    rw [Bool.and_eq_true, List.all_eq_true, List.all_eq_true] at hok
    obtain ⟨hwin, hpending⟩ := hok
    have hch : ch.version < (s.hist ch.file).length := hs.frames k _ hf
    have hx : Extends (· ≠ k) s
        ({ s.forget path with settled := ch :: s.settled }.put k (some (.settled ch))) := by
      refine ⟨windows_forget, fun t ht => ht, fun c hc => mem_cons_of_mem _ hc,
        fun f => le_refl _, fun j r e n start t _ hj hfresh => ?_⟩
      have hfollows := hpending j (mem_range.mpr (hs.numbered j _ hj))
      rw [hj] at hfollows
      exact hfresh.of_follows hfollows rfl
    refine ⟨entries_forget (fun i d hd hne => ?_) fun d hv => .of_valid_eq_zero hv,
      fun j f hj => ?_, fun j f hj => ?_, fun c hc => mem_cons_of_mem _ (hs.acked c hc),
      fun c hc => ?_, hs.reads, hs.replies⟩
    · have hentry := hs.entries i d hd
      refine ⟨hentry.path, fun hv => ?_⟩
      obtain ⟨t, hb, hfresh⟩ := hentry.front hv
      refine ⟨t, hb, hfresh.of_follows ?_ rfl⟩
      have hd' := hwin d (mem_of_getElem? hd)
      rw [hb.tag, all_some, Bool.or_eq_true, Bool.or_eq_true, decide_eq_true_eq,
        decide_eq_true_eq] at hd'
      have hpos : 0 < d.window.valid := hv
      exact hd'.resolve_left fun h => h.elim hne (by omega)
    · by_cases hjk : j = k
      · subst hjk
        rw [frames_put_self] at hj
        cases hj
        exact mem_cons_self
      · rw [frames_put_of_ne _ _ hjk] at hj
        exact (hs.frames j f hj).mono hx hjk fun r e n start t hft =>
          hx.fresh j r e n start t hjk (hft ▸ hj)
    · by_cases hjk : j = k
      · subst hjk
        exact hs.numbered j _ hf
      · rw [frames_put_of_ne _ _ hjk] at hj
        exact hs.numbered j f hj
    · rcases mem_cons.mp hc with rfl | hold
      · exact hch
      · exact hs.settled c hold
  · cases h

/-! ## Every step -/

theorem Sound.sent (hs : s.Sound) (h : s.sent k = some s') : s'.Sound := by
  rw [Gateway.sent] at h
  split at h
  next r w a hf =>
    cases h
    exact hs.aside (k := k) rfl { Adds.put k s _ with
      replies := forall_mem_append.mpr
        ⟨fun _ => .inl, forall_mem_singleton.mpr (.inr (hs.frames k _ hf))⟩ }
      fun g hg => absurd ((frames_put_self s k none).symm.trans hg) (by simp)
  next r e side into mine eof tag hf =>
    obtain ⟨c, hc, rfl⟩ := map_eq_some_iff.mp h
    obtain ⟨d, hd, -, -, hans⟩ := hs.frames k _ hf
    obtain rfl := mem_unique hd hc
    have hkeep := (Cached.Keeps.setBuffer (J := (· ≠ k)) (c := d) side
      { d.buffer side with sending := (d.buffer side).sending.erase k } rfl
      fun j hj hmem => (mem_erase_of_ne hj).mpr hmem).trans (.leave _ k)
    have hentry := (hs.entries e d hd).setBuffer side
      (b := { d.buffer side with sending := (d.buffer side).sending.erase k }) fun _ => ⟨rfl, rfl⟩
    exact hs.inWindow hd rfl hkeep (hentry.of_front rfl rfl rfl) { Adds.put k s _ with
      replies := forall_mem_append.mpr ⟨fun _ => .inl, forall_mem_singleton.mpr (.inr hans)⟩ }
      fun g hg => absurd ((frames_put_self (s.setEntry e _) k none).symm.trans hg) (by simp)
  next c hf =>
    cases h
    exact hs.aside (k := k) rfl { Adds.put k s _ with
      acked := forall_mem_cons.mpr ⟨.inr (hs.frames k _ hf), fun _ => .inl⟩ }
      fun g hg => absurd ((frames_put_self s k none).symm.trans hg) (by simp)
  · cases h

theorem Sound.fail (hs : s.Sound) (h : s.fail k = some s') : s'.Sound := by
  have hend : (s.put k none).Sound := hs.ends
  rw [Gateway.fail] at h
  split at h
  next r e hf =>
    obtain ⟨c, hc, rfl⟩ := map_eq_some_iff.mp h
    obtain ⟨d, hd, -, hgate⟩ := hs.frames k _ hf
    obtain rfl := mem_unique hd hc
    exact hs.failFill hd (.refl _ d) hgate (hs.entries e d hd)
  next r e n start t hf =>
    obtain ⟨c, hc, rfl⟩ := map_eq_some_iff.mp h
    obtain ⟨d, hd, hfills⟩ := hs.frames k _ hf
    obtain rfl := mem_unique hd hc
    exact hs.failFill hd (.refl _ d) hfills.gate (hs.entries e d hd)
  · exact some.inj h ▸ hend
  · exact some.inj h ▸ hend
  · exact some.inj h ▸ hend
  · exact some.inj h ▸ hend
  · cases h

/-- What the invariant needs of a step. -/
def grounded (o : ExportOptions) (s : Gateway) : Event → Bool
  | .serveFill k l => s.registers o k l
  | .complete k => s.settles k
  | _ => true

/-- **The invariant is kept by every step.** -/
theorem Sound.step {ev : Event} (hs : s.Sound) (hok : s.grounded o ev = true)
    (h : s.step o ev = some s') : s'.Sound := by
  cases ev with
  | read path off count => exact hs.onRead h
  | change path op =>
    cases h
    exact hs.succ.put (Nat.lt_succ_self _) trivial
  | serveRead k i l => exact hs.serveRead h
  | serveFill k l => exact hs.serveFill hok h
  | install k => exact hs.install h
  | wake k => exact hs.wake h
  | serveChange k => exact hs.serveChange h
  | complete k => exact hs.complete hok h
  | sent k => exact hs.sent h
  | fail k => exact hs.fail h
  | rebind names =>
    cases h
    exact hs.aside rfl { Adds.refl _ s with } hs.frame_next
  | forgets path =>
    cases h
    exact hs.forgets path

theorem sound_opened (names : String → Option ℕ) (contents : ℕ → List UInt8) (n : ℕ) :
    (opened names contents n).Sound := by
  refine ⟨fun e c hc => ?_, fun k f hf => absurd hf (by simp [opened]),
    fun k f hf => absurd hf (by simp [opened]), nofun, nofun, nofun, nofun⟩
  obtain rfl := (mem_replicate.mp (mem_of_getElem? hc)).2
  exact .of_valid_eq_zero rfl

end Gateway
end Rail.Nfs
