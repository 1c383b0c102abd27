import Rail.Fuse.Handle
import Mathlib.Data.List.Nodup

/-!
# Who has the gate

The control of a handle's write side.  `Sound` holds in every state of every run: the gate
has at most one owner, the coroutines in its queue are the ones that wait, and a window is
out of the handle's hands exactly while one coroutine is in `flushOnce`.

The lemmas follow the primitives of `Handle`: handing the gate on (`Sound.give`), parking a
coroutine (`Sound.park`, `Sound.parkFlight`), an owner leaving its place (`Sound.release`),
and from them `flushPending` (`Sound.takeWindow`, `Sound.startFlush`).
-/

namespace Rail.Fuse

open List Option Function ByteFile

/-- The phases of a coroutine that has the gate. -/
def Phase.owns : Phase → Bool
  | .woken | .flight _ _ _ => true
  | _ => false

namespace Handle

/-! ## Control -/

/-- No suspended coroutine has the gate. -/
def Free (h : Handle) : Prop := ∀ t f, h.frames t = some f → f.phase.owns = false

/-- The gate and the window being flushed have at most one owner. -/
structure Sound (h : Handle) : Prop where
  fresh : ∀ t, h.books.next ≤ t → h.frames t = none
  held : ∀ t f, h.frames t = some f → f.phase.owns = true → h.gate.held = true
  unique : ∀ t u f g, h.frames t = some f → h.frames u = some g → f.phase.owns = true →
    g.phase.owns = true → t = u
  queued : ∀ t ∈ h.gate.waiting, ∃ c, h.frames t = some ⟨c, .queued⟩
  nodup : h.gate.waiting.Nodup
  waits : h.gate.waiting ≠ [] → h.gate.held = true
  idle : h.file.flushing = false → h.file.draining.bytes = [] ∧ h.books.draining = []
  busy : h.file.flushing = true ↔
    ∃ t c base length stage, h.frames t = some ⟨c, .flight base length stage⟩

variable {h h' : Handle} {t : ℕ} {c : Caller}

theorem Sound.congr (hs : Sound h) (hg : h'.gate = h.gate) (hf : h'.frames = h.frames)
    (hn : h.books.next ≤ h'.books.next) (hfl : h'.file.flushing = h.file.flushing)
    (hd : h'.file.draining = h.file.draining) (hb : h'.books.draining = h.books.draining) :
    Sound h' where
  fresh t ht := by rw [hf]; exact hs.fresh t (hn.trans ht)
  held := by rw [hf, hg]; exact hs.held
  unique := by rw [hf]; exact hs.unique
  queued := by rw [hf, hg]; exact hs.queued
  nodup := by rw [hg]; exact hs.nodup
  waits := by rw [hg]; exact hs.waits
  idle := by rw [hfl, hd, hb]; exact hs.idle
  busy := by rw [hfl, hf]; exact hs.busy

variable {f : Frame}

section

variable (hs : Sound h)
include hs

/-- A coroutine that is suspended has a number that was given out. -/
theorem Sound.lt_next (hf : h.frames t = some f) : t < h.books.next := by
  by_contra hge
  rw [hs.fresh t (by omega)] at hf
  cases hf

theorem Sound.free_of_not_held (hh : h.gate.held = false) : Free h := by
  intro t f hf
  cases ho : f.phase.owns with
  | false => rfl
  | true => exact absurd (hs.held t f hf ho) (by rw [hh]; decide)

/-- While nobody has the gate, no window is out. -/
theorem Sound.not_flushing (hfree : Free h) : h.file.flushing = false := by
  cases hfl : h.file.flushing with
  | false => rfl
  | true =>
    obtain ⟨t, c, base, length, stage, hf⟩ := hs.busy.mp hfl
    exact absurd (hfree t _ hf) (by simp [Phase.owns])

theorem Sound.grab : Sound h.grab where
  fresh := hs.fresh
  held _ _ _ _ := rfl
  unique := hs.unique
  queued := hs.queued
  nodup := hs.nodup
  waits _ := rfl
  idle := hs.idle
  busy := hs.busy

/-- The gate goes to the first waiter, who is then its only owner. -/
theorem Sound.give (hfree : Free h) : Sound h.give := by
  unfold Handle.give
  split
  · next hw =>
    exact { hs with held := fun t f hf ho => absurd (hfree t f hf) (by rw [ho]; decide), waits :=
      fun hne => absurd hw hne }
  · next t ts hw =>
    obtain ⟨c, hc⟩ := hs.queued t (by rw [hw]; exact mem_cons_self)
    have hnd : t ∉ ts ∧ ts.Nodup := by
      have := hs.nodup
      rwa [hw, nodup_cons] at this
    have hheld : h.gate.held = true := hs.waits (by rw [hw]; exact cons_ne_nil _ _)
    -- the frame of any other coroutine is the one it had, and does not own the gate
    have hother : ∀ u f, Function.update h.frames t
        ((h.frames t).map fun f => { f with phase := .woken }) u = some f →
        f.phase.owns = true → u = t := by
      intro u f hf ho
      by_contra hu
      rw [update_of_ne hu] at hf
      exact absurd (hfree u f hf) (by rw [ho]; decide)
    refine ⟨fun u hu => ?_, fun _ _ _ _ => hheld, fun u v f g hf hg hof hog => ?_, fun u hu => ?_,
      hnd.2, fun _ => hheld, hs.idle, ?_⟩
    · have hne : u ≠ t := by
        rintro rfl
        rw [hs.fresh u hu] at hc
        cases hc
      exact (update_of_ne hne _ _).trans (hs.fresh u hu)
    · exact (hother u f hf hof).trans (hother v g hg hog).symm
    · have hne : u ≠ t := by
        rintro rfl
        exact hnd.1 hu
      obtain ⟨c', hc'⟩ := hs.queued u (by rw [hw]; exact mem_cons_of_mem _ hu)
      exact ⟨c', (update_of_ne hne _ _).trans hc'⟩
    · have hfl : h.file.flushing = false := hs.not_flushing hfree
      refine ⟨fun hb => absurd hb (by rw [hfl]; decide), ?_⟩
      rintro ⟨u, c', base, length, stage, hu⟩
      have hself : Function.update h.frames t
          ((h.frames t).map fun f => { f with phase := .woken }) t = some ⟨c, .woken⟩ := by
        rw [update_self, hc]
        rfl
      rw [hother u _ hu rfl] at hu
      exact absurd (congrArg Frame.phase (mem_unique hself hu)) (by simp)

/-- **A coroutine that is not in the queue changes its place.**  Where it comes to own the gate,
nobody else does. -/
theorem Sound.move {new : Option Frame} (ht : t < h.books.next)
    (hq : ∀ c, h.frames t ≠ some ⟨c, .queued⟩) (hfr : h'.frames = Function.update h.frames t new)
    (hn : h'.books.next = h.books.next) (hw : h'.gate.waiting = h.gate.waiting)
    (hh : h.gate.held = true → h'.gate.held = true)
    (hown : ∀ f, new = some f → f.phase.owns = true → h'.gate.held = true ∧
      ∀ u g, h.frames u = some g → g.phase.owns = true → u = t)
    (hidle : h'.file.flushing = false → h'.file.draining.bytes = [] ∧ h'.books.draining = [])
    (hbusy : h'.file.flushing = true ↔
      (∃ c base length stage, new = some ⟨c, .flight base length stage⟩) ∨
      (h.file.flushing = true ∧ ∀ c base length stage,
      h.frames t ≠ some ⟨c, .flight base length stage⟩)) :
    Sound h' := by
  have hcases : ∀ u g, h'.frames u = some g → (u = t ∧ new = some g) ∨
      (u ≠ t ∧ h.frames u = some g) := by
    intro u g hu
    rw [hfr] at hu
    by_cases hut : u = t
    · rw [hut, update_self] at hu
      exact .inl ⟨hut, hu⟩
    · rw [update_of_ne hut] at hu
      exact .inr ⟨hut, hu⟩
  have hkeep : ∀ {u f}, u ≠ t → h.frames u = f → h'.frames u = f := fun hu hf => by
    rw [hfr, update_of_ne hu, hf]
  refine ⟨fun u hu => hkeep (by omega) (hs.fresh u (hn ▸ hu)), fun u g hu ho => ?_,
    fun u v f g hu hv hf hg => ?_, fun u hu => ?_, hw ▸ hs.nodup, fun hne =>
    hh (hs.waits (hw ▸ hne)), hidle, hbusy.trans ⟨?_, ?_⟩⟩
  · rcases hcases u g hu with ⟨-, hnew⟩ | ⟨-, hold⟩
    · exact (hown g hnew ho).1
    · exact hh (hs.held u g hold ho)
  · rcases hcases u f hu with ⟨rfl, hnew⟩ | ⟨hut, hold⟩
    · rcases hcases v g hv with ⟨rfl, -⟩ | ⟨-, hold⟩
      · rfl
      · exact ((hown f hnew hf).2 v g hold hg).symm
    · rcases hcases v g hv with ⟨rfl, hnew⟩ | ⟨-, hold'⟩
      · exact absurd ((hown g hnew hg).2 u f hold hf) hut
      · exact hs.unique u v f g hold hold' hf hg
  · obtain ⟨c', hc'⟩ := hs.queued u (hw ▸ hu)
    exact ⟨c', hkeep (by rintro rfl; exact hq c' hc') hc'⟩
  · rintro (⟨c', base, length, stage, rfl⟩ | ⟨hb, hnot⟩)
    · exact ⟨t, c', base, length, stage, by rw [hfr, update_self]⟩
    · obtain ⟨u, c', base, length, stage, hu⟩ := hs.busy.mp hb
      exact ⟨u, c', base, length, stage, hkeep (by rintro rfl; exact hnot _ _ _ _ hu) hu⟩
  · rintro ⟨u, c', base, length, stage, hu⟩
    rcases hcases u _ hu with ⟨-, hnew⟩ | ⟨hut, hold⟩
    · exact .inl ⟨c', base, length, stage, hnew⟩
    · exact .inr ⟨hs.busy.mpr ⟨u, c', base, length, stage, hold⟩, fun _ _ _ _ ht' =>
        hut (hs.unique u t _ _ hold ht' rfl rfl)⟩

/-- A coroutine that is not running may be parked in a phase that does not own the gate. -/
theorem Sound.park (ht : t < h.books.next) (hnone : h.frames t = none) (ho : f.phase.owns = false) :
    Sound (h.park t f) := by
  refine hs.move ht (by simp [hnone]) rfl rfl rfl id (fun g hg hog => ?_) hs.idle
    ⟨fun hb => .inr ⟨hb, by simp [hnone]⟩, ?_⟩
  · rw [← some.inj hg, ho] at hog
    cases hog
  · rintro (⟨_, _, _, _, hf⟩ | ⟨hb, -⟩)
    · rw [some.inj hf] at ho
      cases ho
    · exact hb

/-- A coroutine that neither has the gate nor waits for it leaves its place. -/
theorem Sound.unpark_syncing (hf : h.frames t = some ⟨c, .syncing⟩) : Sound (h.unpark t) := by
  refine hs.move (hs.lt_next hf) (by simp [hf]) rfl rfl rfl id nofun hs.idle ⟨fun hb =>
    .inr ⟨hb, by simp [hf]⟩, ?_⟩
  rintro (⟨_, _, _, _, hnew⟩ | ⟨hb, -⟩)
  · cases hnew
  · exact hb

/-- The owner of the gate leaves its place, with no window out: nobody has the gate. -/
theorem Sound.release {f : Frame} (hf : h.frames t = some f) (ho : f.phase.owns = true)
    (hg : h'.gate = h.gate) (hfr : h'.frames = Function.update h.frames t none)
    (hn : h'.books.next = h.books.next) (hfl : h'.file.flushing = false)
    (hd : h'.file.draining.bytes = []) (hb : h'.books.draining = []) : Sound h' ∧ Free h' := by
  refine ⟨hs.move (hs.lt_next hf) (fun c hc => ?_) hfr hn (by rw [hg]) (by rw [hg]; exact id) nofun
    (fun _ => ⟨hd, hb⟩) ⟨fun hbusy => by simp [hfl] at hbusy, ?_⟩, fun u g hu => ?_⟩
  · rw [mem_unique hf hc] at ho
    cases ho
  · rintro (⟨_, _, _, _, hnew⟩ | ⟨hbusy, hnot⟩)
    · cases hnew
    · obtain ⟨u, c', base, length, stage, hu⟩ := hs.busy.mp hbusy
      obtain rfl := hs.unique u t _ _ hu hf rfl ho
      exact absurd hu (hnot _ _ _ _)
  · rw [hfr] at hu
    refine Bool.eq_false_iff.mpr fun hog => ?_
    by_cases hut : u = t
    · rw [hut, update_self] at hu
      cases hu
    · rw [update_of_ne hut] at hu
      exact hut (hs.unique u t g f hu hf hog ho)

/-- A coroutine handed the gate runs: no window is out. -/
theorem Sound.unpark_woken (hf : h.frames t = some ⟨c, .woken⟩) :
    Sound (h.unpark t) ∧ Free (h.unpark t) := by
  have hnb : h.file.flushing = false := by
    cases hfl : h.file.flushing with
    | false => rfl
    | true =>
      obtain ⟨u, c', base, length, stage, hu⟩ := hs.busy.mp hfl
      obtain rfl := hs.unique u t _ _ hu hf rfl rfl
      rw [hf] at hu
      exact absurd (congrArg Frame.phase (some.inj hu)) (by simp)
  exact hs.release hf rfl rfl rfl rfl hnb (hs.idle hnb).1 (hs.idle hnb).2

/-- A coroutine in `flushOnce` is the only owner of the gate: it has just taken a window,
or goes on with the one it has. -/
theorem Sound.parkFlight (ht : t < h.books.next) (hmine : ∀ u f, h.frames u = some f →
      f.phase.owns = true → u = t) (hq : ∀ c, h.frames t ≠ some ⟨c, .queued⟩) {base length : ℕ}
      {stage : Stage}
    (hg : h'.gate = { h.gate with held := true })
    (hfr : h'.frames = Function.update h.frames t (some ⟨c, .flight base length stage⟩))
    (hn : h'.books.next = h.books.next) (hfl : h'.file.flushing = true) : Sound h' := by
  refine hs.move ht hq hfr hn (by rw [hg]) (fun _ => by rw [hg]) (fun _ _ _ => ⟨by rw [hg], hmine⟩)
    (fun hidle => ?_) ⟨fun _ => .inl ⟨c, base, length, stage, rfl⟩, fun _ => hfl⟩
  rw [hfl] at hidle
  cases hidle

/-- `flushPending` from the gate on, by a coroutine that has it. -/
theorem Sound.takeWindow (hfree : Free h) (ht : t < h.books.next)
    (hnone : h.frames t = none) (c : Caller) : Sound (h.takeWindow t c).1 := by
  unfold Handle.takeWindow
  split
  · exact hs.grab.give hfree
  · refine hs.parkFlight ht (fun u f hu ho => absurd (hfree u f hu) (by rw [ho]; decide))
      (fun c' hc' => ?_) rfl rfl rfl rfl
    rw [hnone] at hc'
    simp at hc'

/-- `flushPending` from its start. -/
theorem Sound.startFlush (ht : t < h.books.next) (hnone : h.frames t = none)
    (c : Caller) : Sound (h.startFlush t c).1 := by
  unfold Handle.startFlush
  split_ifs with _ _ hheld
  · exact hs
  · exact hs
  · -- in the queue: the new waiter is the one coroutine parked as such
    have hnot : t ∉ h.gate.waiting := by
      intro hmem
      obtain ⟨c', hc'⟩ := hs.queued t hmem
      rw [hnone] at hc'
      simp at hc'
    have hp := hs.park ht hnone (f := ⟨c, .queued⟩) rfl
    exact { hp with
      queued := forall_mem_append.mpr ⟨hp.queued, forall_mem_singleton.mpr ⟨c, update_self _ _ _⟩⟩
      nodup := show (h.gate.waiting ++ [t]).Nodup from concat_eq_append ▸ hs.nodup.concat hnot
      waits := fun _ => hheld }
  · exact hs.takeWindow (hs.free_of_not_held (by simpa using hheld)) ht hnone c

end

/-- A coroutine that is running: it has a number and no frame. -/
structure Running (h : Handle) (t : ℕ) : Prop where
  lt : t < h.books.next
  none : h.frames t = none

theorem give_frames_none (hf : h.frames t = none) : h.give.frames t = none := by
  unfold Handle.give
  split
  · exact hf
  · next u us _ =>
    by_cases htu : t = u
    · subst htu
      exact (update_self _ _ _).trans (by rw [hf]; rfl)
    · exact (update_of_ne htu _ _).trans hf

@[simp] theorem give_file : h.give.file = h.file := by
  unfold Handle.give
  split <;> rfl

@[simp] theorem give_books : h.give.books = h.books := by
  unfold Handle.give
  split <;> rfl

theorem give_frames_caller (hf : h.frames t = some f) :
    ∃ ph, h.give.frames t = some ⟨f.caller, ph⟩ := by
  unfold Handle.give
  split
  · exact ⟨f.phase, hf⟩
  · next u us _ =>
    by_cases htu : t = u
    · subst htu
      exact ⟨.woken, (update_self _ _ _).trans (by rw [hf]; rfl)⟩
    · exact ⟨f.phase, (update_of_ne htu _ _).trans hf⟩

/-- `Gate::give` changes no caller and no flight. -/
theorem give_frames_some (hf : h.give.frames t = some f) :
    ∃ ph, h.frames t = some ⟨f.caller, ph⟩ ∧ (ph = f.phase ∨ f.phase = .woken) := by
  unfold Handle.give at hf
  split at hf
  · exact ⟨f.phase, hf, .inl rfl⟩
  · next u us _ =>
    by_cases htu : t = u
    · rw [htu] at hf
      have hf' : (h.frames u).map (fun f => { f with phase := .woken }) = some f :=
        (update_self u _ h.frames).symm.trans hf
      obtain ⟨g, hg, rfl⟩ := map_eq_some_iff.mp hf'
      exact ⟨g.phase, by rw [htu]; exact hg, .inr rfl⟩
    · exact ⟨f.phase, (update_of_ne htu _ _).symm.trans hf, .inl rfl⟩

/-- The drain is suspended, or has failed the file. -/
theorem spawnDrain_eq (h : Handle) : h.spawnDrain = (h.number.startFlush h.books.next .drain).1 ∨
    (h.number.startFlush h.books.next .drain).2 = some false ∧
      h.spawnDrain = (h.number.startFlush h.books.next .drain).1.fail := by
  unfold Handle.spawnDrain
  generalize h.number.startFlush h.books.next .drain = r
  obtain ⟨h', _ | _ | _⟩ := r
  · exact .inl rfl
  · exact .inr ⟨rfl, rfl⟩
  · exact .inl rfl

/-- `flushPending` returns to its caller, or is suspended. -/
theorem callFlush_of {o : Options} {Q : Handle → Prop}
    (hret : ∀ ok, (h.startFlush t c).2 = some ok → Q ((h.startFlush t c).1.resume o t ok c))
    (hnone : (h.startFlush t c).2 = none → Q (h.startFlush t c).1) : Q (h.callFlush o t c) := by
  unfold Handle.callFlush
  generalize h.startFlush t c = r at hret hnone ⊢
  obtain ⟨h', _ | ok⟩ := r
  · exact hnone rfl
  · exact hret ok rfl

/-! ## The stretches of `doWrite` -/

/-- What a call of `flushPending` leaves, by its result. -/
def Calls (r : Handle × Option Bool) (ok failed parked : Handle → Prop) : Prop :=
  match r with
  | (h, some true) => ok h
  | (h, some false) => failed h
  | (h, none) => parked h

theorem claim_bytes (pageSize count : ℕ) : (Space.claim pageSize count).bytes = [] := by
  unfold Space.claim
  split_ifs <;> rfl

/-- **What a `doWrite` goes through.**  `A` holds where it starts, `B` where it may move the window,
`C` where the window is its own to fill, `D` with its bytes in, and `K` once it is suspended or
answered. -/
structure Turn (w : Write) (A B C D K : Handle → Prop) : Prop where
  weaken : ∀ {h}, C h → A h
  refuse : ∀ {h}, A h → K (h.reply (.refused w))
  empty : ∀ {h}, A h → h.file.pending.bytes = [] → B h
  call : ∀ {h c}, A h → c = .move w ∨ c = .room w →
    Calls (h.startFlush w.id c) B (fun h => K (h.reply (.refused w))) K
  follows : ∀ {h}, A h → w.off = h.file.writeBase + h.file.pending.bytes.length → C h
  rebase : ∀ {h}, B h → C (h.rebase w.off)
  claim : ∀ {h space}, C h → h.file.pending.bytes = [] → space.bytes = [] → C (h.claim space)
  nothing : ∀ {h}, C h → w.data = [] → D h
  put : ∀ {h}, C h → w.data ≠ [] → h.file.pending.bytes.length + w.data.length ≤
    h.file.pending.capacity → D (h.put w)
  wait : ∀ {h}, D h → Calls (h.startFlush w.id (.full w)) (fun h => K (h.acknowledge w))
    (fun h => K (h.reply (.refused w))) K
  drain : ∀ {h}, D h → K (h.spawnDrain.acknowledge w)
  acknowledge : ∀ {h}, D h → K (h.acknowledge w)

namespace Turn

variable {o : Options} {w : Write} {A B C D K : Handle → Prop}

section

variable (hT : Turn w A B C D K)
include hT

theorem reserve (hC : C h) (o : Options) (v : Write) : C (h.reserve o v).1 := by
  unfold Handle.reserve
  simp only
  split_ifs with _ hb
  · exact hC
  · exact hC
  · exact hT.claim hC (not_not.mp hb) (claim_bytes _ _)

theorem afterAppend (hD : D h) : K (h.afterAppend o w) := by
  unfold Handle.afterAppend
  split_ifs
  · have hcall := hT.wait hD
    generalize h.startFlush w.id (.full w) = r at hcall ⊢
    obtain ⟨h', _ | _ | _⟩ := r <;> exact hcall
  · exact hT.drain hD
  · exact hT.acknowledge hD

theorem appendData (hC : C h) : K (h.appendData o w) := by
  unfold Handle.appendData
  split_ifs with hnil hfits
  · exact hT.afterAppend (hT.nothing hC hnil)
  · exact hT.afterAppend (hT.put hC hnil hfits)
  · exact hT.refuse (hT.weaken hC)

theorem afterRoom (hB : B h) : K (h.afterRoom o w) := by
  have hres := hT.reserve (hT.rebase hB) o w
  unfold Handle.afterRoom
  generalize (h.rebase w.off).reserve o w = r at hres ⊢
  obtain ⟨h', _ | _⟩ := r
  · exact hT.refuse (hT.weaken hres)
  · exact hT.appendData hres

theorem reserveAppend (hC : C h) : K (h.reserveAppend o w) := by
  have hres := hT.reserve hC o w
  unfold Handle.reserveAppend
  generalize h.reserve o w = r at hres ⊢
  obtain ⟨h', _ | _⟩ := r
  · have hcall := hT.call (hT.weaken hres) (.inr rfl)
    dsimp only at hcall ⊢
    generalize h'.startFlush w.id (.room w) = q at hcall ⊢
    obtain ⟨h'', _ | _ | _⟩ := q
    · exact hcall
    · exact hcall
    · exact hT.afterRoom hcall
  · exact hT.appendData hres

theorem doWrite (hA : A h) : K (h.doWrite o w) := by
  unfold Handle.doWrite
  split_ifs with _ hp hoff
  · exact hT.refuse hA
  · exact hT.reserveAppend (hT.rebase (hT.empty hA hp))
  · have hcall := hT.call hA (.inl rfl)
    generalize h.startFlush w.id (.move w) = r at hcall ⊢
    obtain ⟨h', _ | _ | _⟩ := r
    · exact hcall
    · exact hcall
    · exact hT.reserveAppend (hT.rebase hcall)
  · exact hT.reserveAppend (hT.follows hA (not_not.mp hoff))

/-- A `doWrite` goes on after the flush that was to move the window or make room in it. -/
theorem resume {c : Caller} {ok : Bool} (hc : c = .move w ∨ c = .room w) (hB : ok = true → B h)
    (hA : A h) : K (h.resume o t ok c) := by
  cases ok with
  | false => rcases hc with rfl | rfl <;> exact hT.refuse hA
  | true =>
    rcases hc with rfl | rfl
    · exact hT.reserveAppend (hT.rebase (hB rfl))
    · exact hT.afterRoom (hB rfl)

end

end Turn

end Handle

end Rail.Fuse
