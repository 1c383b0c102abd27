import Rail.Fuse.Flush

/-!
# A flush with no write in progress

While no `doWrite` is suspended and none arrives (`Quiet`), windows are only taken, never
filled.  A call of `flushPending` made in such a state is then waiting for the gate, or in
`flushOnce` with nothing pending behind it, until both windows of the handle are empty
(`Settling`); and once they are, they stay so.  In particular a flush that has returned
leaves a handle that holds nothing back (`Settled`).

The same holds of the flush that a `doWrite` calls while it is the only one in progress
(`Parked`): nobody fills the window it has emptied.
-/

namespace Rail.Fuse

open Option

/-- The caller is a `doWrite`. -/
def Caller.writes : Caller → Bool
  | .move _ | .room _ | .full _ => true
  | _ => false

/-- The write a `doWrite` was called with. -/
def Caller.write : Caller → Option Write
  | .move w | .room w | .full w => some w
  | _ => none

theorem Caller.write_eq_none {c : Caller} (hc : c.writes = false) : c.write = none := by
  cases c <;> first | rfl | simp [Caller.writes] at hc

theorem Caller.writes_eq_false {c : Caller} (hc : c.write = none) : c.writes = false := by
  cases c <;> first | rfl | simp [Caller.write] at hc

/-- A write request. -/
def Event.writes : Event → Bool
  | .write _ _ => true
  | _ => false

namespace Handle

variable {o : Options} {h h' : Handle} {t u : ℕ} {c : Caller} {cur : Option Write} {w : Write}
  {sent : List (ℕ × List UInt8)}
  {ph : Phase} {S : Write → Prop}

/-- Every `doWrite` that is suspended is one of `S`. -/
def Writers (h : Handle) (S : Write → Prop) : Prop :=
  ∀ t f w, h.frames t = some f → f.caller.write = some w → S w

/-- No `doWrite` is suspended. -/
def Quiet (h : Handle) : Prop := ∀ t f, h.frames t = some f → f.caller.writes = false

theorem quiet_iff : h.Quiet ↔ h.Writers fun _ => False := by
  constructor
  · intro hq t f w hf hw
    rw [Caller.write_eq_none (hq t f hf)] at hw
    cases hw
  · intro hw t f hf
    exact Caller.writes_eq_false (eq_none_iff_forall_ne_some.mpr fun w => hw t f w hf)

/-- The handle holds nothing back. -/
def Settled (h : Handle) : Prop := h.file.pending.bytes = [] ∧ h.file.flushing = false

/-- A call of `flushPending` that has not returned, and leaves nothing pending when it
takes a window. -/
def Waits (h : Handle) (t : ℕ) : Prop :=
  ∃ f, h.frames t = some f ∧ (f.phase = .queued ∨ f.phase = .woken ∨
    (h.file.pending.bytes = [] ∧ ∃ base length stage, f.phase = .flight base length stage))

/-- No `doFlush` with this number was answered with success. -/
def Unanswered (h : Handle) (t : ℕ) : Prop :=
  ∀ before accepted, Reply.flushed t before accepted ∉ h.books.replies

/-- The flush is on its way, or both windows are empty. -/
def Settling (h : Handle) (t : ℕ) : Prop := (h.Waits t ∧ h.Unanswered t) ∨ h.Settled

/-- The `doWrite` has ended, or its flush is on its way. -/
def Parked (h : Handle) (w : Write) : Prop :=
  ∀ f, h.frames w.id = some f → f.caller.write = some w ∧ h.Waits w.id

/-! ## One coroutine goes on -/

/-- What a caller that does not write does with the result: it goes, fails the file, parks, or
answers its own call. -/
theorem resume_cases (hc : c.writes = false) (o : Options) (h : Handle) (u : ℕ) (ok : Bool) :
    h.resume o u ok c = h ∨ h.resume o u ok c = h.fail ∨
    (∃ ph, h.resume o u ok c = h.park u ⟨c, ph⟩) ∨ ∃ r, (∀ t b a, r = Reply.flushed t b a → t = u) ∧
    h.resume o u ok c = h.reply r := by
  cases c with
  | drain =>
    cases ok with
    | true => exact .inl rfl
    | false => exact .inr (.inl rfl)
  | path => exact .inr (.inr (.inr ⟨_, fun _ _ _ he => Reply.noConfusion he, rfl⟩))
  | flush sync before =>
    unfold Handle.resume
    simp only
    split_ifs
    · exact .inr (.inr (.inl ⟨_, rfl⟩))
    · exact .inr (.inr (.inr ⟨_, fun _ _ _ he => (Reply.flushed.inj he).1.symm, rfl⟩))
    · exact .inr (.inr (.inr ⟨_, fun _ _ _ he => Reply.noConfusion he, rfl⟩))
  | _ => simp [Caller.writes] at hc

/-- **What outlives the steps of the coroutine `u`**, which runs for the caller `c`: `P`
survives every piece of its code, the swap of the windows where `F` holds. -/
structure Outlives (u : ℕ) (c : Caller) (F P : Handle → Prop) : Prop where
  park : ∀ {h ph}, P h → P (h.park u ⟨c, ph⟩)
  unpark : ∀ {h}, P h → P (h.unpark u)
  give : ∀ {h}, P h → P h.give
  swap : ∀ {h}, P h → F h → P h.grab.swap
  reply : ∀ {h r}, P h → (∀ t b a, r = Reply.flushed t b a → t = u) → P (h.reply r)
  same : ∀ {h g}, P h → g.frames = h.frames → g.file.pending = h.file.pending →
    g.books.replies = h.books.replies → P g

namespace Outlives

variable {F P : Handle → Prop} {ok : Bool} (hP : Outlives u c F P)
include hP

theorem startFlush (h₀ : P h) (hF : h.gate.held = false → F h) : P (h.startFlush u c).1 := by
  unfold Handle.startFlush
  split_ifs with _ _ hheld
  · exact h₀
  · exact h₀
  · exact hP.park (hP.same (g := h.enqueue u) h₀ rfl rfl rfl)
  · unfold Handle.takeWindow
    split_ifs
    · exact hP.give (hP.same (g := h.grab) h₀ rfl rfl rfl)
    · exact hP.park (hP.swap h₀ (hF (by simpa using hheld)))

theorem resume (h₀ : P h) (hc : c.writes = false) : P (h.resume o u ok c) := by
  rcases resume_cases hc o h u ok with heq | heq | ⟨ph, heq⟩ | ⟨r, hr, heq⟩
  · rwa [heq]
  · exact heq ▸ hP.same h₀ rfl rfl rfl
  · exact heq ▸ hP.park h₀
  · exact heq ▸ hP.reply h₀ hr

theorem went (h₀ : P h) (hF : ph = .woken → F (h.unpark u))
    (hres : ∀ {h ok}, P h → P (h.resume o u ok c)) (hwent : Went o h u c ph h') : P h' := by
  have hleft := hP.unpark h₀
  cases hwent with
  | flies => exact hP.park h₀
  | lands _ _ _ ok => exact hres (hP.give (hP.same (g := (h.unpark u).settle ok) hleft rfl rfl rfl))
  | finds => exact hres (hP.give (hP.same (g := (h.unpark u).grab) hleft rfl rfl rfl))
  | takes => exact hP.park (hP.swap hleft (hF rfl))
  | syncs _ _ _ r hr => exact hP.reply hleft fun t b a he => (hr t b a he).1

end Outlives

/-! ## Who writes -/

/-- A coroutine that runs for one of the writers adds none. -/
theorem Writers.outlives (hc : ∀ w, c.write = some w → S w) :
    Outlives u c (fun _ => True) (Writers · S) where
  park hw u g w hu hg := by
    rcases park_frames_eq_some hu with ⟨rfl, rfl⟩ | ⟨-, hu'⟩
    · exact hc w hg
    · exact hw u g w hu' hg
  unpark hw u g w hu := hw u g w (unpark_frames_eq_some hu).2
  give hw u g w hu := by
    obtain ⟨ph, hu', -⟩ := give_frames_some hu
    exact hw u ⟨g.caller, ph⟩ w hu'
  swap hw _ := hw
  reply hw _ := hw
  same hw hfr _ _ u g w hu := hw u g w (hfr ▸ hu)

/-- A `doWrite` adds no writer but itself. -/
theorem Writers.turn (hS : S w) :
    Turn w (Writers · S) (Writers · S) (Writers · S) (Writers · S) (Writers · S) where
  weaken := id
  refuse := id
  empty h _ := h
  call := by
    intro h c hw hc
    have hcall := (Writers.outlives (u := w.id) (c := c) fun v hv => by
      rcases hc with rfl | rfl <;> exact some.inj hv ▸ hS).startFlush hw fun _ => trivial
    generalize h.startFlush w.id c = r at hcall ⊢
    obtain ⟨h', _ | _ | _⟩ := r <;> exact hcall
  follows h _ := h
  rebase := id
  claim h _ _ := h
  nothing h _ := h
  put h _ _ := h
  wait := by
    intro h hw
    have hcall := (Writers.outlives (u := w.id) (c := .full w) fun v hv =>
      some.inj hv ▸ hS).startFlush hw fun _ => trivial
    generalize h.startFlush w.id (.full w) = r at hcall ⊢
    obtain ⟨h', _ | _ | _⟩ := r <;> exact hcall
  drain := by
    intro h hw
    have hcall := (Writers.outlives (u := h.books.next) (c := .drain) nofun).startFlush (h :=
      h.number) hw fun _ => trivial
    show Writers h.spawnDrain S
    rcases h.spawnDrain_eq with heq | ⟨-, heq⟩ <;> exact heq ▸ hcall
  acknowledge := id

variable {ok : Bool} {e : Event} {r : Handle × List (ℕ × List UInt8)} {base length : ℕ}
  {stage : Stage}

theorem Writers.resume (hw : Writers h S) (hc : ∀ w, c.write = some w → S w) :
    Writers (h.resume o u ok c) S := by
  cases c with
  | move w => exact (Writers.turn (hc w rfl)).resume (.inl rfl) (fun _ => hw) hw
  | room w => exact (Writers.turn (hc w rfl)).resume (.inr rfl) (fun _ => hw) hw
  | full w =>
    unfold Handle.resume
    simp only
    split_ifs <;> exact hw
  | _ => exact (Writers.outlives hc).resume hw rfl

theorem Writers.callFlush (hw : Writers h S) (hc : c.writes = false) :
    Writers (h.callFlush o u c) S := by
  have hP : Outlives u c _ (Writers · S) := Writers.outlives fun w hv =>
    absurd hv (by rw [Caller.write_eq_none hc]; simp)
  have hcall := hP.startFlush hw fun _ => trivial
  exact callFlush_of (Q := (Writers · S)) (fun _ _ => hP.resume hcall hc) fun _ => hcall

/-- **One step adds no `doWrite` but the one that arrives.** -/
theorem Writers.step (hw : Writers h S) (he : ∀ off data, e = .write off data →
      S ⟨h.books.next, off, data⟩) (hr : h.step o e = some r) : Writers r.1 S := by
  unfold Handle.step at hr
  split at hr
  · next u f hfo =>
    have hc : ∀ w, f.caller.write = some w → S w := fun w => hw u f w (frameOf_eq_some hfo).1
    exact (Writers.outlives hc).went hw (fun _ => trivial) (fun hw => hw.resume hc) (goOn_went hr)
  · obtain ⟨h', ha, rfl⟩ := map_eq_some_iff.mp hr
    unfold Handle.arrive at ha
    split at ha
    · rw [← some.inj ha]
      exact (Writers.turn (he _ _ rfl)).doWrite (h := h.number.request _) hw
    · rw [← some.inj ha]
      exact .callFlush (h := h.number) hw rfl
    · rw [← some.inj ha]
      exact .callFlush (h := h.number) hw rfl
    · cases ha

/-! ## Other coroutines leave a waiting call waiting -/

/-- While nobody has the gate, a call that has not returned is in the queue. -/
theorem Waits.queued (hw : Waits h t) (hfree : Free h) :
    ∃ f, h.frames t = some f ∧ f.phase = .queued := by
  obtain ⟨f, hf, hph⟩ := hw
  refine ⟨f, hf, ?_⟩
  have := hfree t f hf
  rcases hph with hph | hph | ⟨-, base, length, stage, hph⟩
  · exact hph
  all_goals
    rw [hph] at this
    simp [Phase.owns] at this

/-- A call waits on while another coroutine runs; a window that one takes finds it in the queue. -/
theorem Waits.outlives (hne : t ≠ u) : Outlives u c Free (Waits · t) where
  park := fun ⟨g, hg, hph⟩ => ⟨g, (park_frames_of_ne _ _ hne).trans hg, hph⟩
  unpark := fun ⟨g, hg, hph⟩ => ⟨g, (unpark_frames_of_ne _ hne).trans hg, hph⟩
  give := by
    rintro h ⟨f, hf, hph⟩
    obtain ⟨ph, hf'⟩ := give_frames_caller hf
    obtain ⟨ph', hback, hph'⟩ := give_frames_some hf'
    rw [hf] at hback
    obtain ⟨-, rfl⟩ := Frame.mk.inj (some.inj hback)
    refine ⟨_, hf', ?_⟩
    rcases hph' with rfl | hwoken
    · rw [give_file]
      exact hph
    · exact .inr (.inl hwoken)
  swap hw hfree := by
    obtain ⟨g, hg, hq⟩ := hw.queued hfree
    exact ⟨g, hg, .inl hq⟩
  reply hw _ := hw
  same := by
    rintro h h' ⟨g, hg, hph⟩ hfr hp -
    exact ⟨g, hfr ▸ hg, hp ▸ hph⟩

/-- Behind the flush a call has in flight nothing is pending. -/
theorem Waits.pending_eq_nil (hw : Waits h t)
    (hf : h.frames t = some ⟨c, .flight base length stage⟩) : h.file.pending.bytes = [] := by
  obtain ⟨f, hf', hph⟩ := hw
  rw [hf] at hf'
  obtain rfl := some.inj hf'
  rcases hph with hph | hph | ⟨hp, -⟩
  · cases hph
  · cases hph
  · exact hp

theorem Waits.parkFlight (hw : Waits h t) {stage' : Stage}
    (hf : h.frames t = some ⟨c, .flight base length stage⟩) :
    Waits (h.park t ⟨c, .flight base length stage'⟩) t :=
  ⟨_, park_frames_self _ _ _, .inr (.inr ⟨hw.pending_eq_nil hf, base, length, stage', rfl⟩)⟩

/-- A call that takes the window leaves nothing pending behind it. -/
theorem Waits.of_swap (h : Handle) (t : ℕ) (c : Caller) (base length : ℕ) :
    Waits (h.grab.swap.park t ⟨c, .flight base length .session⟩) t :=
  ⟨_, park_frames_self _ _ _, .inr (.inr ⟨rfl, _, _, _, rfl⟩)⟩

/-- A call of `flushPending` that does not return is on its way. -/
theorem Waits.of_startFlush (hr : (h.startFlush t c).2 = none) : Waits (h.startFlush t c).1 t := by
  unfold Handle.startFlush at hr ⊢
  split_ifs at hr ⊢
  · exact ⟨_, park_frames_self _ _ _, .inl rfl⟩
  · by_cases hp : h.file.pending.bytes = []
    · rw [takeWindow_of_nil hp] at hr
      cases hr
    · rw [takeWindow_of_ne_nil hp]
      exact .of_swap h t c _ _

/-! ## A settled handle stays settled -/

section

variable (hset : Settled h)
include hset

theorem Settled.resume (hc : c.writes = false) : Settled (h.resume o u ok c) := by
  rcases resume_cases hc o h u ok with heq | heq | ⟨f, heq⟩ | ⟨r, -, heq⟩ <;>
  · rw [heq]
    exact hset

theorem Settled.not_flight (hs : Sound h) : h.frames u ≠ some ⟨c, .flight base length stage⟩ := by
  intro hf
  have := hs.busy.mpr ⟨u, c, base, length, stage, hf⟩
  rw [hset.2] at this
  exact absurd this (by decide)

theorem Settled.give : Settled h.give := by
  unfold Settled
  rw [give_file]
  exact hset

theorem Settled.went (hs : Sound h) (hf : h.frames u = some ⟨c, ph⟩)
    (hc : c.writes = false) (hwent : Went o h u c ph h') : Settled h' := by
  cases hwent with
  | flies | lands => exact absurd hf (hset.not_flight hs)
  | finds => exact .resume (.give (h := (h.unpark u).grab) hset) hc
  | takes hp => exact absurd hset.1 hp
  | syncs => exact hset

/-- A call of `flushPending` on a settled handle returns at once. -/
theorem Settled.startFlush (u : ℕ) (c : Caller) : (h.startFlush u c).1 = h := by
  unfold Handle.startFlush
  split_ifs with _ hn
  · rfl
  · rfl
  all_goals exact absurd hset hn

end

/-- A call that returns at once without a failure found the handle settled. -/
theorem settled_of_startFlush (hs : Sound h) (hok : h.file.writeFailed = false)
    (hr : (h.startFlush t c).2 ≠ none) : h.Settled := by
  unfold Handle.startFlush at hr
  rw [if_neg (by rw [hok]; decide)] at hr
  split_ifs at hr with hn hheld
  · exact hn
  · exact absurd rfl hr
  · by_cases hp : h.file.pending.bytes = []
    · exact ⟨hp, hs.not_flushing (hs.free_of_not_held (by simpa using hheld))⟩
    · rw [takeWindow_of_ne_nil hp] at hr
      exact absurd rfl hr

/-- A call on a handle that is not settled does not return at once. -/
theorem Waits.of_callFlush (hk : Kept sent none h) (hok : h.file.writeFailed = false)
    (hset : ¬ h.Settled) : Waits (h.number.callFlush o h.books.next c) h.books.next := by
  refine callFlush_of (Q := (Waits · h.books.next)) (fun ok hr => ?_) .of_startFlush
  exact absurd (settled_of_startFlush hk.number.sound hok (by rw [hr]; simp)) hset

/-! ## Answers -/

/-- Another coroutine answers its own call only. -/
theorem Unanswered.outlives (hne : t ≠ u) : Outlives u c (fun _ => True) (Unanswered · t) where
  park hun := hun
  unpark hun := hun
  give hun b a hm := hun b a (give_books ▸ hm)
  swap hun _ := hun
  reply hun hr b a hm := by
    rcases List.mem_append.mp hm with hm | hm
    · exact hun b a hm
    · exact hne (hr t b a (List.mem_singleton.mp hm).symm)
  same hun _ _ hrep b a hm := hun b a (hrep ▸ hm)

/-! ## The flush of a quiet handle -/

theorem Settling.went (hset : Settling h t) (hs : Sound h) (hf : h.frames u = some ⟨c, ph⟩)
    (hc : c.writes = false) (hwent : Went o h u c ph h') : Settling h' t := by
  rcases hset with ⟨hw, hun⟩ | hset
  · by_cases hne : t = u
    · subst hne
      cases hwent with
      | flies => exact .inl ⟨hw.parkFlight hf, hun⟩
      | lands _ _ _ ok =>
        -- nothing was pending behind the window that has landed
        refine .inr (.resume ?_ hc)
        exact .give (h := (h.unpark t).settle ok)
          ⟨hw.pending_eq_nil hf, rfl⟩
      | finds hp =>
        obtain ⟨hs', hfree⟩ := hs.unpark_woken hf
        exact .inr (.resume (.give (h := (h.unpark t).grab) ⟨hp, hs'.not_flushing hfree⟩) hc)
      | takes => exact .inl ⟨.of_swap _ t c _ _, hun⟩
      | syncs =>
        obtain ⟨f, hf', hph⟩ := hw
        rw [hf] at hf'
        rw [← some.inj hf'] at hph
        simp at hph
    · have hP := Waits.outlives (c := c) hne
      have hP' := Unanswered.outlives (c := c) hne
      refine .inl ⟨hP.went hw (fun hph => ?_) (fun h₀ => hP.resume h₀ hc) hwent,
        hP'.went hun (fun _ => trivial) (fun h₀ => hP'.resume h₀ hc) hwent⟩
      exact (hs.unpark_woken (hph ▸ hf)).2
  · exact .inr (hset.went hs hf hc hwent)

/-- Another request calls `flushPending`, with a number of its own. -/
theorem Settling.callFlush (hset : Settling h t) (hk : Kept sent none h) (hc : c.writes = false) :
    Settling (h.number.callFlush o h.books.next c) t := by
  rcases hset with ⟨hw, hun⟩ | hset
  · have hne : t ≠ h.books.next := by
      rintro rfl
      obtain ⟨f, hf, -⟩ := hw
      rw [hk.sound.fresh _ (le_refl _)] at hf
      cases hf
    have hP := Waits.outlives (c := c) hne
    have hP' := Unanswered.outlives (c := c) hne
    have hw' := hP.startFlush (h := h.number) hw hk.number.sound.free_of_not_held
    have hun' := hP'.startFlush (h := h.number) hun fun _ => trivial
    exact callFlush_of (Q := (Settling · t)) (fun _ _ =>
      .inl ⟨hP.resume hw' hc, hP'.resume hun' hc⟩) fun _ => .inl ⟨hw', hun'⟩
  · have hstart := Settled.startFlush (h := h.number) hset h.books.next c
    refine callFlush_of (Q := (Settling · t)) (fun _ _ => .inr ?_) fun _ => .inr ?_
    · rw [hstart]
      exact .resume (h := h.number) hset hc
    · rw [hstart]
      exact hset

/-- **One step that is not a write keeps a flush on its way.** -/
theorem Settling.step (hset : Settling h t) (hk : Kept sent none h) (hq : Quiet h)
    (he : e.writes = false) (hr : h.step o e = some r) : Settling r.1 t := by
  unfold Handle.step at hr
  split at hr
  · next u f hfo =>
    have hf := (frameOf_eq_some hfo).1
    exact hset.went hk.sound hf (hq u f hf) (goOn_went hr)
  · obtain ⟨h', ha, rfl⟩ := map_eq_some_iff.mp hr
    unfold Handle.arrive at ha
    split at ha
    · simp [Event.writes] at he
    · rw [← some.inj ha]
      exact hset.callFlush hk rfl
    · rw [← some.inj ha]
      exact hset.callFlush hk rfl
    · cases ha

theorem Quiet.step (hq : Quiet h) (he : e.writes = false) (hr : h.step o e = some r) :
    Quiet r.1 := by
  refine quiet_iff.mpr ((quiet_iff.mp hq).step (fun off data heq => ?_) hr)
  rw [heq] at he
  simp [Event.writes] at he

/-- **A flush requested with no write in progress is on its way.** -/
theorem Settling.call (hk : Kept sent none h) (hok : h.file.writeFailed = false)
    (hc : c.writes = false) : Settling (h.number.callFlush o h.books.next c) h.books.next := by
  by_cases hset : h.Settled
  · exact .callFlush (.inr hset) hk hc
  refine .inl ⟨.of_callFlush hk hok hset, callFlush_of (Q := (Unanswered · h.books.next))
    (fun ok hr => ?_) fun _ => ?_⟩
  · exact absurd (settled_of_startFlush hk.number.sound hok (by rw [hr]; simp)) hset
  · intro b a hm
    rw [(startFlush_books _ _ _).2] at hm
    exact absurd (hk.flushed _ b a hm).1 (Nat.lt_irrefl _)

/-- **A settled handle stays so**, whatever comes but a write. -/
theorem Settled.step (hset : Settled h) (hk : Kept sent none h) (hq : Quiet h)
    (he : e.writes = false) (hr : h.step o e = some r) (hs : Sound r.1) : Settled r.1 := by
  -- no coroutine has the next number, so it is no flush that is on its way
  rcases Settling.step (t := r.1.books.next) (.inr hset) hk hq he hr with ⟨⟨f, hf, -⟩, -⟩ | hset'
  · rw [hs.fresh _ (le_refl _)] at hf
    cases hf
  · exact hset'

/-! ## The flush of a single `doWrite` -/

theorem Parked.of_none (hn : h.frames w.id = none) : Parked h w := by
  intro f hf
  rw [hn] at hf
  cases hf

/-- A `doWrite` that waits does so under the number of its write. -/
theorem Kept.caller_id (hk : Kept sent cur h) (hf : h.frames u = some ⟨c, ph⟩)
    (hc : c.write = some w) : w.id = u := by
  have := hk.frames u _ hf
  cases c with
  | move v | room v | full v =>
    obtain rfl : v = w := some.inj hc
    exact this.1
  | _ => simp [Caller.write] at hc

theorem startFlush_frames_of_ne (hn : h.frames t = none) (hne : t ≠ u) :
    (h.startFlush u c).1.frames t = none := by
  unfold Handle.startFlush
  split_ifs
  · exact hn
  · exact hn
  · exact (park_frames_of_ne _ _ hne).trans hn
  · unfold Handle.takeWindow
    split_ifs
    · exact give_frames_none (h := h.grab) hn
    · exact (park_frames_of_ne _ _ hne).trans hn

theorem running_startFlush (hrun : Running h t) (hr : (h.startFlush t c).2 ≠ none) :
    Running (h.startFlush t c).1 t := by
  unfold Handle.startFlush at hr ⊢
  split_ifs at hr ⊢
  · exact hrun
  · exact hrun
  · exact absurd rfl hr
  · by_cases hp : h.file.pending.bytes = []
    · rw [takeWindow_of_nil hp]
      exact ⟨by rw [give_books]; exact hrun.lt, give_frames_none (h := h.grab) hrun.none⟩
    · rw [takeWindow_of_ne_nil hp] at hr
      exact absurd rfl hr

theorem Parked.of_startFlush (hcw : c.write = some w)
    (hr : (h.startFlush w.id c).2 = none) : Parked (h.startFlush w.id c).1 w := by
  intro f hf
  refine ⟨?_, .of_startFlush hr⟩
  unfold Handle.startFlush at hr hf
  split_ifs at hr hf
  · rw [park_frames_self] at hf
    rw [← some.inj hf]
    exact hcw
  · by_cases hp : h.file.pending.bytes = []
    · rw [takeWindow_of_nil hp] at hr
      cases hr
    · rw [takeWindow_of_ne_nil hp, park_frames_self] at hf
      rw [← some.inj hf]
      exact hcw

/-- A `doWrite` that has not ended waits for its flush. -/
theorem Parked.turn (w : Write) :
    Turn w (Running · w.id) (Running · w.id) (Running · w.id) (Running · w.id) (Parked · w) where
  weaken := id
  refuse h := .of_none h.none
  empty h _ := h
  call := by
    intro h c hrun hc
    have hw := Parked.of_startFlush (h := h) (c := c) (w := w) (by rcases hc with rfl | rfl <;> rfl)
    have hret := running_startFlush (c := c) hrun
    generalize h.startFlush w.id c = r at hw hret ⊢
    obtain ⟨h', _ | _ | _⟩ := r
    · exact hw rfl
    · exact .of_none (hret nofun).none
    · exact hret nofun
  follows h _ := h
  rebase h := ⟨h.lt, h.none⟩
  claim h _ _ := ⟨h.lt, h.none⟩
  nothing h _ := h
  put h _ _ := ⟨h.lt, h.none⟩
  wait := by
    intro h hrun
    have hw := Parked.of_startFlush (h := h) (c := .full w) (w := w) rfl
    have hret := running_startFlush (c := .full w) hrun
    generalize h.startFlush w.id (.full w) = r at hw hret ⊢
    obtain ⟨h', _ | _ | _⟩ := r
    · exact hw rfl
    all_goals exact .of_none (hret nofun).none
  drain := by
    intro h hrun
    have hn := startFlush_frames_of_ne (h := h.number) (c := .drain) hrun.none
      (Nat.ne_of_lt hrun.lt)
    refine .of_none (?_ : h.spawnDrain.frames w.id = none)
    rcases h.spawnDrain_eq with heq | ⟨-, heq⟩ <;> exact heq ▸ hn
  acknowledge h := .of_none h.none

/-- A `doWrite` goes on after its flush. -/
theorem Parked.resume (hrun : Running h w.id) (hc : c.write = some w) :
    Parked (h.resume o w.id ok c) w := by
  cases c with
  | move v =>
    obtain rfl : v = w := some.inj hc
    exact (Parked.turn v).resume (.inl rfl) (fun _ => hrun) hrun
  | room v =>
    obtain rfl : v = w := some.inj hc
    exact (Parked.turn v).resume (.inr rfl) (fun _ => hrun) hrun
  | full v =>
    unfold Handle.resume
    simp only
    split_ifs <;> exact .of_none hrun.none
  | _ => simp [Caller.write] at hc

theorem Parked.outlives (hne : w.id ≠ u) : Outlives u c Free (Parked · w) where
  park hp f hf := by
    rw [park_frames_of_ne _ _ hne] at hf
    exact ⟨(hp f hf).1, (Waits.outlives hne).park (hp f hf).2⟩
  unpark hp f hf := by
    rw [unpark_frames_of_ne _ hne] at hf
    exact ⟨(hp f hf).1, (Waits.outlives (c := c) hne).unpark (hp f hf).2⟩
  give hp f hf := by
    obtain ⟨ph, hf', -⟩ := give_frames_some hf
    exact ⟨(hp _ hf').1, (Waits.outlives (c := c) hne).give (hp _ hf').2⟩
  swap hp hfree f hf := ⟨(hp f hf).1, (Waits.outlives (c := c) hne).swap (hp f hf).2 hfree⟩
  reply hp _ := hp
  same hp hfr hpend hrep f hf := by
    rw [hfr] at hf
    exact ⟨(hp f hf).1, (Waits.outlives (c := c) hne).same (hp f hf).2 hfr hpend hrep⟩

theorem Parked.went (hp : Parked h w) (hw : Writers h (· = w)) (hk : Kept sent none h)
    (hf : h.frames u = some ⟨c, ph⟩) (hwent : Went o h u c ph h') : Parked h' w := by
  by_cases hne : u = w.id
  · subst hne
    have hlt := hk.sound.lt_next hf
    obtain ⟨hc, hwait⟩ := hp _ hf
    cases hwent with
    | flies =>
      intro f hf'
      rw [park_frames_self] at hf'
      rw [← some.inj hf']
      exact ⟨hc, hwait.parkFlight hf⟩
    | lands _ _ _ ok =>
      refine .resume ⟨?_, ?_⟩ hc
      · rw [Handle.finishFlush, give_books]
        exact hlt
      · exact give_frames_none (h := (h.unpark w.id).settle ok) (unpark_frames_self h w.id)
    | finds =>
      refine .resume ⟨?_, ?_⟩ hc
      · rw [give_books]
        exact hlt
      · exact give_frames_none (h := (h.unpark w.id).grab) (unpark_frames_self h w.id)
    | takes =>
      intro f hf'
      rw [park_frames_self] at hf'
      rw [← some.inj hf']
      exact ⟨hc, .of_swap _ w.id c _ _⟩
    | syncs => exact .of_none (unpark_frames_self h w.id)
  · -- no other coroutine is a `doWrite`
    have hc : c.writes = false := by
      refine Caller.writes_eq_false (eq_none_iff_forall_ne_some.mpr fun v hv => hne ?_)
      rw [← hw u _ v hf hv]
      exact (hk.caller_id hf hv).symm
    have hP : Outlives u c Free (Parked · w) := Parked.outlives (Ne.symm hne)
    exact hP.went hp (fun hph => (hk.sound.unpark_woken (hph ▸ hf)).2) (fun h₀ =>
      hP.resume h₀ hc) hwent

end Handle

end Rail.Fuse
