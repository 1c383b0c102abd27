import Rail.Kernel.Inode

/-!
# Sizes and changes an inode must not miss

Two things are asked of `railfs_refresh`.

It must not forget what this mount wrote.  The flag `mine` is to tell a change of this mount from
that of another client, but it is one bit, it is set by the write and cleared by the first refresh
after it, and what moves the peer's size is the writeback, which may come later and in pieces.  A
refresh that meets a file half written back therefore takes it for a foreign one: it writes the rest
back, drops the folios, and sets `i_size` to the size the peer reported before the rest arrived.
What saves it is stated on the state a step finds (`grows`): the answer is no smaller than `i_size`
when a refresh decides to discard, and no write ends beyond the answer before it has.

And it must not keep what another client replaced.  Here the same bit errs in the other direction: a
refresh that finds `mine` set records the peer's answer and keeps everything, whoever made the
change.  The other ways to miss one are that size and mtime can come back to recorded values, that a
widened fetch lands late, and that a size from before a refresh is used after it: by a readahead
that fills up with zeros, by a write that compared with it, by the local half of a truncation
(`coherent`).
-/

namespace Rail.Kernel.Inode

open List Option

variable {s s' : Inode} {f g : Folio} {pos i n : ℕ} {a : Attrs} {ev : Event}

/-! ## Steps that only touch folios -/

/-- The steps that touch folios, fetches and the peer's file, and nothing else. -/
def tends : Event → Bool
  | .add .. | .lock .. | .fill .. | .zero .. | .ahead .. | .unlock .. | .writeback ..
  | .send .. | .ended .. | .evict .. | .fetch .. | .landed .. => true
  | _ => false

/-- The bytes of the folio were in the cache, or have just been read. -/
def Held (s : Inode) (f : Folio) : Prop :=
  (∃ d ∈ s.folios, d.uptodate = true ∧ d.pos = f.pos ∧ d.stamp = f.stamp) ∨ f.stamp = s.changes

/-- What such a step does. -/
structure Tended (s s' : Inode) : Prop where
  isize : s'.isize = s.isize
  refreshes : s'.refreshes = s.refreshes
  pushes : s'.pushes = s.pushes
  extending : s'.extending = s.extending
  written : s'.written = s.written
  changes : s'.changes = s.changes
  seen : s'.seen = s.seen
  sizeStamp : s'.sizeStamp = s.sizeStamp
  fetches : ∀ r ∈ s'.fetches, r ∈ s.fetches ∨ r.stamp = s.changes
  folios : ∀ f ∈ s'.folios, f.uptodate = true → s.Held f

theorem held_of_mem (hf : f ∈ s.folios) (hu : f.uptodate = true) : s.Held f :=
  .inl ⟨f, hf, hu, rfl, rfl⟩

/-- A folio is replaced by one that is as good as the others. -/
theorem uptodate_put {P : Folio → Prop} (hs : ∀ f ∈ s.folios, f.uptodate = true → P f)
    (hg : g.uptodate = true → P g) : ∀ f ∈ (s.put pos g).folios, f.uptodate = true → P f := by
  intro f hf hu
  obtain ⟨d, hd, rfl⟩ := List.mem_map.mp hf
  split at hu
  next he =>
    rw [if_pos he]
    exact hg hu
  next he =>
    rw [if_neg he]
    exact hs d hd hu

theorem tended_put (hg : g.uptodate = true → s.Held g) : Tended s (s.put pos g) :=
  ⟨rfl, rfl, rfl, rfl, rfl, rfl, rfl, rfl, fun _ h => .inl h,
    uptodate_put (fun _ => held_of_mem) hg⟩

theorem held_of_find (h : s.find pos = some f) (hu : f.uptodate = true) (hp : g.pos = f.pos)
    (hg : g.stamp = f.stamp) : s.Held g :=
  .inl ⟨f, mem_of_find?_eq_some h, hu, hp.symm, hg.symm⟩

theorem tended_fill (h : s.fill pos = some s') : Tended s s' := by
  obtain ⟨f, -, h⟩ := bind_eq_some_iff.mp h
  obtain ⟨-, h⟩ := ite_none_right_eq_some.mp h
  exact some.inj h ▸ tended_put fun _ => .inr rfl

theorem tended_of_step (ht : tends ev = true) (h : s.step ev = some s') : Tended s s' := by
  cases ev with
  | add pos size =>
    obtain ⟨-, h⟩ := ite_none_right_eq_some.mp h
    cases h
    exact ⟨rfl, rfl, rfl, rfl, rfl, rfl, rfl, rfl, fun _ hr => .inl hr,
      forall_mem_cons.mpr ⟨nofun, fun f => held_of_mem⟩⟩
  | lock pos =>
    obtain ⟨f, hf, h⟩ := bind_eq_some_iff.mp h
    obtain ⟨-, h⟩ := ite_none_left_eq_some.mp h
    exact some.inj h ▸ tended_put fun hu => held_of_find hf hu rfl rfl
  | fill pos | zero pos => exact tended_fill h
  | ahead pos | unlock pos | writeback pos =>
    obtain ⟨f, hf, h⟩ := bind_eq_some_iff.mp h
    obtain ⟨-, h⟩ := ite_none_right_eq_some.mp h
    exact some.inj h ▸ tended_put fun hu => held_of_find hf hu rfl rfl
  | send pos n mtime =>
    obtain ⟨f, -, h⟩ := bind_eq_some_iff.mp h
    obtain ⟨m, -, h⟩ := bind_eq_some_iff.mp h
    obtain ⟨-, h⟩ := ite_none_right_eq_some.mp h
    cases h
    exact ⟨rfl, rfl, rfl, rfl, rfl, rfl, rfl, rfl, fun _ hr => .inl hr, fun f => held_of_mem⟩
  | ended pos redirty =>
    obtain ⟨f, hf, h⟩ := bind_eq_some_iff.mp h
    obtain ⟨m, -, rfl⟩ := map_eq_some_iff.mp h
    exact tended_put fun hu => held_of_find hf hu rfl rfl
  | evict pos =>
    obtain ⟨f, -, h⟩ := bind_eq_some_iff.mp h
    obtain ⟨-, h⟩ := ite_none_right_eq_some.mp h
    cases h
    exact ⟨rfl, rfl, rfl, rfl, rfl, rfl, rfl, rfl, fun _ hr => .inl hr, fun f hf =>
      held_of_mem (mem_filter.mp hf).1⟩
  | fetch offset length =>
    cases h
    exact ⟨rfl, rfl, rfl, rfl, rfl, rfl, rfl, rfl, forall_mem_cons.mpr ⟨.inr rfl, fun _ => .inl⟩,
      fun f => held_of_mem⟩
  | landed i =>
    cases h
    exact ⟨rfl, rfl, rfl, rfl, rfl, rfl, rfl, rfl, fun _ hr => .inl (mem_of_mem_eraseIdx hr),
      fun f => held_of_mem⟩
  | _ => simp [tends] at ht

/-- A folio that was read ahead lands. -/
theorem land_cases {upto : ℕ} (h : s.land pos upto = some s') :
    ∃ f r g, s.find pos = some f ∧ f.ahead = some r ∧ s' = s.put pos g ∧ g.pos = f.pos ∧
    (g.uptodate = true → f.uptodate = true ∧ g.stamp = f.stamp ∨
      g.stamp = if pos + f.size ≤ r.isize then s.changes else r.since) := by
  obtain ⟨f, hf, h⟩ := bind_eq_some_iff.mp h
  obtain ⟨r, hr, rfl⟩ := map_eq_some_iff.mp h
  split
  · exact ⟨f, r, _, hf, hr, rfl, rfl, fun _ => .inr rfl⟩
  · exact ⟨f, r, _, hf, hr, rfl, rfl, fun hu => .inl ⟨hu, rfl⟩⟩

/-- A write ends inside the file, or has to extend it. -/
theorem write_cases {off len : ℕ} (h : s.write pos off len = some s') :
    ∃ f, s.find pos = some f ∧ s.extending = none ∧
      (s.isize < pos + off + len ∧ s' = { s.put pos { f with dirty := true } with
        mine := true, extending := some ⟨pos, off, len, s.sizeStamp⟩ } ∨
      pos + off + len ≤ s.isize ∧ s' = { s.put pos { f with dirty := true, locked := false } with
        mine := true, written := (pos + off, len) :: s.written }) := by
  obtain ⟨f, hf, h⟩ := bind_eq_some_iff.mp h
  obtain ⟨hguard, h⟩ := ite_none_right_eq_some.mp h
  rw [Bool.and_eq_true, Option.isNone_iff_eq_none] at hguard
  refine ⟨f, hf, hguard.2, ?_⟩
  split at h
  next hlt => exact .inl ⟨hlt, (some.inj h).symm⟩
  next hle => exact .inr ⟨Nat.le_of_not_lt hle, (some.inj h).symm⟩

/-! ## Sizes this mount wrote -/

/-- Nobody else changes the file, and it is not truncated. -/
def alone : Event → Bool
  | .foreign _ => false
  | .push (some _) _ => false
  | _ => true

/-- The size to which a refresh that is discarding folios will set the file. -/
def target : Refresh → Option ℕ
  | .asked _ _ => none
  | .discarding a _ _ | .dropped a _ => some a.size

/-- No refresh is about to make the file shorter than `n`. -/
def Spares (s : Inode) (n : ℕ) : Prop := ∀ r ∈ s.refreshes, ∀ m ∈ target r, n ≤ m

instance : Decidable (s.Spares n) :=
  inferInstanceAs (Decidable (∀ r ∈ s.refreshes, ∀ m ∈ target r, n ≤ m))

/-- A refresh discards only where the peer's answer is no smaller than the file is here, and a write
ends no further than a refresh that is discarding will set the file. -/
def grows (s : Inode) : Event → Bool
  | .judge i =>
    match s.refreshes[i]? with
    | some (.asked a _) =>
      s.mine || decide (a.size = s.size ∧ a.mtime = s.mtime) || decide (s.isize ≤ a.size)
    | _ => true
  | .write pos off len => decide (s.isize < pos + off + len) || decide (s.Spares (pos + off + len))
  | .extend => s.extending.all fun x => decide (s.Spares x.last)
  | _ => true

/-- The file is as long as anything written to it, and neither a refresh nor a write is about to
make it shorter. -/
structure Grown (s : Inode) : Prop where
  written : ∀ w ∈ s.written, w.1 + w.2 ≤ s.isize
  targets : ∀ w ∈ s.written, s.Spares (w.1 + w.2)
  pushes : ∀ p ∈ s.pushes, p.size = none
  extending : ∀ x ∈ s.extending, ∀ w ∈ s.written, w.1 + w.2 ≤ x.last

section

variable (hs : s.Grown)
include hs

/-- Folios, fetches, the peer and the flag are not in the invariant. -/
theorem Grown.of_eq (hw : s'.written = s.written) (hi : s'.isize = s.isize)
    (hr : ∀ r ∈ s'.refreshes, r ∈ s.refreshes ∨ target r = none)
    (hp : ∀ p ∈ s'.pushes, p ∈ s.pushes ∨ p.size = none) (hx : s'.extending = s.extending) :
    s'.Grown := by
  refine ⟨?_, fun w hw' r hr' n hn => ?_, fun p hp' => ?_, ?_⟩
  · rw [hw, hi]
    exact hs.written
  · rcases hr r hr' with hold | hnone
    · exact hs.targets w (hw ▸ hw') r hold n hn
    · exact absurd (hnone.symm.trans hn) (by simp)
  · exact (hp p hp').elim (hs.pushes p) id
  · rw [hw, hx]
    exact hs.extending

/-- A refresh is over. -/
theorem Grown.over (hw : s'.written = s.written) (hi : s'.isize = s.isize)
    (hr : s'.refreshes = s.refreshes.eraseIdx i) (hp : s'.pushes = s.pushes)
    (hx : s'.extending = s.extending) : s'.Grown :=
  hs.of_eq hw hi (fun _ h => .inl (mem_of_mem_eraseIdx (hr ▸ h))) (fun _ h => .inl (hp ▸ h)) hx

theorem Grown.write {off len : ℕ} (hok : s.grows (.write pos off len) = true)
    (h : s.write pos off len = some s') : s'.Grown := by
  obtain ⟨f, -, hnone, ⟨hlt, rfl⟩ | ⟨hle, rfl⟩⟩ := write_cases h
  · refine ⟨hs.written, hs.targets, hs.pushes, fun x hx w hw => ?_⟩
    cases hx
    exact le_trans (hs.written w hw) (le_of_lt hlt)
  · have hspares : s.Spares (pos + off + len) := by
      rw [grows, Bool.or_eq_true, decide_eq_true_eq, decide_eq_true_eq] at hok
      exact hok.resolve_left (Nat.not_lt.mpr hle)
    exact ⟨forall_mem_cons.mpr ⟨hle, hs.written⟩, forall_mem_cons.mpr ⟨hspares, hs.targets⟩,
      hs.pushes, fun x hx => absurd (hnone.symm.trans hx) (by simp)⟩

/-- What was written is no longer than what the write compared with, nor than where it ends. -/
theorem Grown.extend (hok : s.grows .extend = true) (h : s.extend = some s') : s'.Grown := by
  obtain ⟨x, hx, h⟩ := bind_eq_some_iff.mp h
  obtain ⟨f, -, rfl⟩ := map_eq_some_iff.mp h
  rw [grows, hx, all_some, decide_eq_true_eq] at hok
  exact ⟨forall_mem_cons.mpr ⟨le_refl _, hs.extending x hx⟩,
    forall_mem_cons.mpr ⟨hok, hs.targets⟩, hs.pushes, nofun⟩

theorem Grown.judge (hok : s.grows (.judge i) = true) (h : s.judge i = some s') : s'.Grown := by
  rw [Inode.judge] at h
  rw [grows] at hok
  split at h
  next a stamp hi =>
    split at h
    · cases h
      exact hs.over rfl rfl rfl rfl rfl
    next hmine =>
      split at h
      next hdiff =>
        cases h
        rw [hi] at hok
        have hle : s.isize ≤ a.size := by
          rw [Bool.or_eq_true, Bool.or_eq_true, decide_eq_true_eq, decide_eq_true_eq] at hok
          rcases hok with (hmine' | ⟨hsize, hmtime⟩) | hle
          · exact absurd hmine' hmine
          · simp [hsize, hmtime] at hdiff
          · exact hle
        refine ⟨hs.written, fun w hw r hr n hn => ?_, hs.pushes, hs.extending⟩
        rcases mem_or_eq_of_mem_set hr with hold | rfl
        · exact hs.targets w hw r hold n hn
        · cases hn
          exact le_trans (hs.written w hw) hle
      · cases h
        exact hs.over rfl rfl rfl rfl rfl
  · cases h

theorem Grown.abandon (h : s.abandon i = some s') : s'.Grown := by
  rw [Inode.abandon] at h
  split at h
  · cases h
    exact hs.over rfl rfl rfl rfl rfl
  · cases h

/-- A refresh goes on to discard folios. -/
theorem Grown.goOn {r r' : Refresh} {folios : List Folio} (hi : s.refreshes[i]? = some r)
    (ht : target r' = target r) :
    ({ s with folios := folios, refreshes := s.refreshes.set i r' } : Inode).Grown := by
  refine { hs with targets := fun w hw q hq n hn => ?_ }
  rcases mem_or_eq_of_mem_set hq with hold | rfl
  · exact hs.targets w hw q hold n hn
  · exact hs.targets w hw r (mem_of_getElem? hi) n (ht ▸ hn)

theorem Grown.drop (h : s.drop i = some s') : s'.Grown := by
  rw [Inode.drop] at h
  split at h
  next a stamp swept hi =>
    obtain ⟨-, h⟩ := ite_none_right_eq_some.mp h
    cases h
    exact hs.goOn hi rfl
  · cases h

theorem Grown.sweep {upto : ℕ} (h : s.sweep i upto = some s') : s'.Grown := by
  rw [Inode.sweep] at h
  split at h
  next a stamp swept hi =>
    obtain ⟨-, h⟩ := ite_none_right_eq_some.mp h
    cases h
    exact hs.goOn hi rfl
  · cases h

theorem Grown.install (h : s.install i = some s') : s'.Grown := by
  rw [Inode.install] at h
  split at h
  next a stamp hi =>
    cases h
    refine ⟨fun w hw => hs.targets w hw _ (mem_of_getElem? hi) a.size rfl, fun w hw r hr => ?_,
      hs.pushes, hs.extending⟩
    exact hs.targets w hw r (mem_of_mem_eraseIdx hr)
  · cases h

theorem Grown.settle (h : s.settle i = some s') : s'.Grown := by
  obtain ⟨p, hp, h⟩ := bind_eq_some_iff.mp h
  have hnone := hs.pushes p (mem_of_getElem? hp)
  rw [hnone] at h
  cases h
  exact hs.of_eq rfl rfl (fun _ hr => .inl hr) (fun _ hq => .inl (mem_of_mem_eraseIdx hq)) rfl

theorem Grown.step (halone : alone ev = true) (hok : s.grows ev = true) (h : s.step ev = some s') :
    s'.Grown := by
  by_cases ht : tends ev = true
  · have ht := tended_of_step ht h
    exact hs.of_eq ht.written ht.isize (fun _ hr => .inl (ht.refreshes ▸ hr))
      (fun _ hp => .inl (ht.pushes ▸ hp)) ht.extending
  cases ev with
  | write pos off len => exact hs.write hok h
  | extend => exact hs.extend hok h
  | land pos upto =>
    obtain ⟨f, r, g, -, -, rfl, -, -⟩ := land_cases h
    exact { hs with }
  | around i pos size =>
    obtain ⟨r, -, h⟩ := bind_eq_some_iff.mp h
    obtain ⟨-, h⟩ := ite_none_right_eq_some.mp h
    cases h
    exact { hs with }
  | ask =>
    cases h
    exact hs.of_eq rfl rfl (forall_mem_cons.mpr ⟨.inr rfl, fun _ => .inl⟩) (fun _ => .inl) rfl
  | judge i => exact hs.judge hok h
  | abandon i => exact hs.abandon h
  | sweep i upto => exact hs.sweep h
  | drop i => exact hs.drop h
  | install i => exact hs.install h
  | push size mtime =>
    cases size with
    | some n => simp [alone] at halone
    | none =>
      cases h
      exact hs.of_eq rfl rfl (fun _ => .inl) (forall_mem_cons.mpr ⟨.inr rfl, fun _ => .inl⟩) rfl
  | settle i => exact hs.settle h
  | foreign a => simp [alone] at halone
  | _ => exact absurd rfl ht

end

/-- **A size that was written is kept**, whatever the order in which writes, writebacks and
refreshes take their steps, as long as no refresh discards on an answer smaller than the file is
here, and no write ends beyond the answer of a refresh that is discarding. -/
theorem isize_ge_written (a : Attrs) (evs : List Event) (s : Inode)
    (halone : ∀ ev ∈ evs, alone ev = true)
    (hmeets : Runs.Meets step (fun s ev => s.grows ev = true) (made a) evs)
    (hrun : Runs.exec step (made a) evs = some s) : ∀ w ∈ s.written, w.1 + w.2 ≤ s.isize := by
  have hinit : (made a).Grown :=
    ⟨nofun, nofun, nofun, nofun⟩
  have hs : s.Grown := Runs.exec_invariant (fun hs hok ht => Grown.step hs hok.2 hok.1 ht) hinit
    (hmeets.and_events halone) hrun
  exact hs.written

/-- A file of four bytes is written in two folios, which are written back before a refresh discards
them. -/
theorem isize_ge_written_flushed :
    ∃ s, Runs.exec step (made ⟨0, 1⟩)
        [.add 0 4, .zero 0, .write 0 0 4, .extend, .add 4 4, .zero 4, .write 4 0 4, .extend, .ask,
        .judge 0, .writeback 0, .writeback 4, .send 0 4 2, .send 4 4 3, .ended 0 false,
        .ended 4 false, .ask, .judge 0, .sweep 0 8, .drop 0, .install 0] = some s ∧
      (∀ w ∈ s.written, w.1 + w.2 ≤ s.isize) ∧ s.isize = 8 ∧ s.folios = [] :=
  Runs.exists_exec rfl fun hs => ⟨isize_ge_written _ _ _ (by decide) (by decide) hs, rfl, rfl⟩

/-- **A refresh between two writebacks cuts the file off.**  Eight bytes are written; a first
refresh clears the flag; the first four bytes reach the peer; a second refresh is told of four
bytes, writes the rest back, drops the folios, and sets the size to four. -/
theorem partial_writeback_forgets_size :
    ¬ ∀ (a : Attrs) (evs : List Event) (s : Inode), (∀ ev ∈ evs, alone ev = true) →
        Runs.exec step (made a) evs = some s → ∀ w ∈ s.written, w.1 + w.2 ≤ s.isize := by
  intro hall
  have h := hall ⟨0, 1⟩
    [.add 0 4, .zero 0, .write 0 0 4, .extend, .add 4 4, .zero 4, .write 4 0 4, .extend, .ask,
    .judge 0, .writeback 0, .send 0 4 2, .ended 0 false, .ask, .judge 0,
      .writeback 4, .send 4 4 3, .ended 4 false, .sweep 0 8, .drop 0, .install 0] _ (by decide) rfl
  exact absurd h (by decide)

/-! ## Changes of other clients -/

/-- The number of foreign changes before the stat of a refresh. -/
def stampOf : Refresh → ℕ
  | .asked _ n | .discarding _ n _ | .dropped _ n => n

/-- Of a refresh that has dropped what was at `pos` and will record its answer. -/
def floor (pos : ℕ) : Refresh → Option ℕ
  | .asked _ _ => none
  | .discarding _ n swept => if pos < swept then some n else none
  | .dropped _ n => some n

/-- At `pos`, what is that old is good enough for the recorded answer, and for those about to be
recorded. -/
def Suits (s : Inode) (pos n : ℕ) : Prop := s.seen ≤ n ∧ ∀ r ∈ s.refreshes, ∀ m ∈ floor pos r, m ≤ n

instance : Decidable (s.Suits pos n) :=
  inferInstanceAs (Decidable (s.seen ≤ n ∧ ∀ r ∈ s.refreshes, ∀ m ∈ floor pos r, m ≤ n))

/-- A refresh that keeps what is cached was told of no foreign change since the recorded answer;
what a widened fetch brings is no older than the recorded answer, nor than one that is about to be
recorded, nor is the size that a readahead was started with, if there are zeros past it in the
folio; and the size that a write compared with, and that of a truncation, is set here before a
refresh records a later answer. -/
def coherent (s : Inode) : Event → Bool
  | .judge i =>
    match s.refreshes[i]? with
    | some (.asked a stamp) =>
      !(s.mine || decide (a.size = s.size ∧ a.mtime = s.mtime)) || decide (stamp ≤ s.seen)
    | _ => true
  | .around i pos _ => (s.fetches[i]?).all fun r => decide (s.Suits pos r.stamp)
  | .land pos _ =>
    (s.find pos).all fun f => f.ahead.all fun r =>
      decide (pos + f.size ≤ r.isize ∨ s.Suits f.pos r.since)
  | .extend => s.extending.all fun x => decide (s.seen ≤ x.since)
  | .settle i => (s.pushes[i]?).all fun p => p.size.isNone || decide (s.seen ≤ p.stamp)
  | _ => true

/-- Nothing in the cache predates the last change another client made before the recorded stat. -/
def Current (s : Inode) : Prop :=
  (∀ f ∈ s.folios, f.uptodate = true → s.seen ≤ f.stamp) ∧ s.seen ≤ s.sizeStamp


structure Fresh (s : Inode) : Prop where
  folios : ∀ f ∈ s.folios, f.uptodate = true → s.Suits f.pos f.stamp
  size : s.seen ≤ s.sizeStamp
  changes : s.seen ≤ s.changes
  refreshes : ∀ r ∈ s.refreshes, stampOf r ≤ s.changes

theorem stamp_of_floor {r : Refresh} (h : floor pos r = some n) : stampOf r = n := by
  cases r with
  | asked a m => cases h
  | discarding a m swept => exact some.inj (ite_none_right_eq_some.mp h).2
  | dropped a m => exact some.inj h

section

variable (hs : s.Fresh)
include hs

/-- What is read now suits everything. -/
theorem Fresh.suits_changes : s.Suits pos s.changes :=
  ⟨hs.changes, fun r hr _ hm => stamp_of_floor hm ▸ hs.refreshes r hr⟩

theorem Fresh.suits_of_held (h : s.Held f) : s.Suits f.pos f.stamp := by
  rcases h with ⟨d, hd, hu, hpos, heq⟩ | heq
  · rw [← hpos, ← heq]
    exact hs.folios d hd hu
  · rw [heq]
    exact hs.suits_changes

/-- A step after which the folios hold what was held, and no more is asked of them. -/
theorem Fresh.of_held (hfolios : ∀ f ∈ s'.folios, f.uptodate = true → s.Suits f.pos f.stamp)
    (hseen : s'.seen ≤ s.seen) (hsize : s'.seen ≤ s'.sizeStamp) (hchanges : s.changes ≤ s'.changes)
    (hrefreshes : ∀ r ∈ s'.refreshes, stampOf r ≤ s'.changes)
    (hfloor : ∀ r ∈ s'.refreshes, ∀ f ∈ s'.folios, ∀ n, floor f.pos r = some n → ∃ q ∈ s.refreshes,
      floor f.pos q = some n) :
    s'.Fresh := by
  refine ⟨fun f hf hu => ?_, hsize, le_trans hseen (le_trans hs.changes hchanges), hrefreshes⟩
  obtain ⟨h₁, h₂⟩ := hfolios f hf hu
  refine ⟨le_trans hseen h₁, fun r hr m hm => ?_⟩
  obtain ⟨q, hq, hm⟩ := hfloor r hr f hf m hm
  exact h₂ q hq m hm

/-- A refresh is over, and what is recorded is no newer than what was. -/
theorem Fresh.over (hfolios : ∀ f ∈ s'.folios, f ∈ s.folios) (hseen : s'.seen ≤ s.seen)
    (hsize : s'.sizeStamp = s.sizeStamp) (hchanges : s'.changes = s.changes)
    (hr : s'.refreshes = s.refreshes.eraseIdx i) : s'.Fresh := by
  have hmem : ∀ r ∈ s'.refreshes, r ∈ s.refreshes := fun r h => mem_of_mem_eraseIdx (hr ▸ h)
  refine hs.of_held (fun f hf => hs.folios f (hfolios f hf)) hseen (hsize ▸ le_trans hseen hs.size)
    (le_of_eq hchanges.symm) (fun r h => ?_) (fun r h _ _ _ hn => ⟨r, hmem r h, hn⟩)
  rw [hchanges]
  exact hs.refreshes r (hmem r h)

/-- A refresh goes on to discard folios, and asks no more of those that are left. -/
theorem Fresh.goOn {r r' : Refresh} {folios : List Folio} (hi : s.refreshes[i]? = some r)
    (hstamp : stampOf r' = stampOf r) (hfolios : ∀ f ∈ folios, f ∈ s.folios)
    (hfloor : ∀ f ∈ folios, ∀ n, floor f.pos r' = some n → floor f.pos r = some n) :
    ({ s with folios := folios, refreshes := s.refreshes.set i r' } : Inode).Fresh := by
  refine hs.of_held (fun f hf => hs.folios f (hfolios f hf)) (le_refl _) hs.size (le_refl _)
    (fun q hq => ?_) (fun q hq f hf n hn => ?_)
  · rcases mem_or_eq_of_mem_set hq with hold | rfl
    · exact hs.refreshes q hold
    · exact hstamp ▸ hs.refreshes r (mem_of_getElem? hi)
  · rcases mem_or_eq_of_mem_set hq with hold | rfl
    · exact ⟨q, hold, hn⟩
    · exact ⟨r, mem_of_getElem? hi, hfloor f hf n hn⟩

theorem Fresh.judge (hok : s.coherent (.judge i) = true) (h : s.judge i = some s') : s'.Fresh := by
  rw [Inode.judge] at h
  rw [coherent] at hok
  split at h
  next a stamp hi =>
    rw [hi] at hok
    have hle : s.mine = true ∨ (a.size = s.size ∧ a.mtime = s.mtime) → stamp ≤ s.seen := by
      intro hkeep
      rw [Bool.or_eq_true, Bool.not_eq_true', Bool.or_eq_false_iff, decide_eq_false_iff_not,
        decide_eq_true_eq] at hok
      rcases hok with ⟨hmine, hdiff⟩ | hle
      · rcases hkeep with hm | heq
        · exact absurd (hmine.symm.trans hm) (by simp)
        · exact absurd heq hdiff
      · exact hle
    split at h
    next hmine =>
      cases h
      have hclear : ({ s with mine := false } : Inode).Fresh :=
        { hs with }
      exact hclear.over (fun _ => id) (hle (.inl hmine)) rfl rfl rfl
    · split at h
      · cases h
        exact hs.goOn hi rfl (fun _ hf => hf) fun f _ n hn => by simp [floor] at hn
      next hsame =>
        cases h
        rw [not_or, not_not, not_not] at hsame
        exact hs.over (fun _ => id) (hle (.inr hsame)) rfl rfl rfl
  · cases h

theorem Fresh.sweep {upto : ℕ} (h : s.sweep i upto = some s') : s'.Fresh := by
  rw [Inode.sweep] at h
  split at h
  next a stamp swept hi =>
    obtain ⟨-, h⟩ := ite_none_right_eq_some.mp h
    cases h
    refine hs.goOn hi rfl (fun f hf => (mem_filter.mp hf).1) fun f hf n hn => ?_
    have hout := of_decide_eq_true (mem_filter.mp hf).2
    obtain ⟨hlt, hn⟩ := ite_none_right_eq_some.mp hn
    exact (if_pos (by omega)).trans hn
  · cases h

theorem Fresh.drop (h : s.drop i = some s') : s'.Fresh := by
  rw [Inode.drop] at h
  split at h
  next a stamp swept hi =>
    obtain ⟨hall, h⟩ := ite_none_right_eq_some.mp h
    cases h
    refine hs.goOn hi rfl (fun _ hf => hf) fun f hf n hn => ?_
    have hlt := of_decide_eq_true (List.all_eq_true.mp hall f hf)
    exact (if_pos hlt).trans hn
  · cases h

/-- The refresh that dropped the folios records its answer: what has come since was read after
it. -/
theorem Fresh.install (h : s.install i = some s') : s'.Fresh := by
  rw [Inode.install] at h
  split at h
  next a stamp hi =>
    cases h
    have hmem := mem_of_getElem? hi
    refine ⟨fun f hf hu => ?_, le_refl _, hs.refreshes _ hmem, fun r hr => ?_⟩
    · obtain ⟨-, hfloor⟩ := hs.folios f hf hu
      exact ⟨hfloor _ hmem stamp rfl, fun r hr => hfloor r (mem_of_mem_eraseIdx hr)⟩
    · exact hs.refreshes r (mem_of_mem_eraseIdx hr)
  · cases h

theorem Fresh.settle (hok : s.coherent (.settle i) = true) (h : s.settle i = some s') :
    s'.Fresh := by
  obtain ⟨p, hp, h⟩ := bind_eq_some_iff.mp h
  rw [coherent, hp, all_some] at hok
  split at h
  next n hn =>
    obtain ⟨-, h⟩ := ite_none_right_eq_some.mp h
    cases h
    rw [hn, Bool.or_eq_true, decide_eq_true_eq] at hok
    exact hs.of_held (fun f hf => hs.folios f (mem_filter.mp hf).1) (le_refl _)
      (hok.resolve_left (by simp)) (le_refl _) hs.refreshes (fun r hr _ _ _ hn => ⟨r, hr, hn⟩)
  · cases h
    exact { hs with }

theorem Fresh.around {size : ℕ} (hok : s.coherent (.around i pos size) = true)
    (h : s.around i pos size = some s') : s'.Fresh := by
  obtain ⟨r, hr, h⟩ := bind_eq_some_iff.mp h
  obtain ⟨-, h⟩ := ite_none_right_eq_some.mp h
  cases h
  rw [coherent, hr, all_some, decide_eq_true_eq] at hok
  exact { hs with folios := forall_mem_cons.mpr ⟨fun _ => hok, hs.folios⟩ }


theorem Fresh.land {upto : ℕ} (hok : s.coherent (.land pos upto) = true)
    (h : s.land pos upto = some s') : s'.Fresh := by
  obtain ⟨f, r, g, hf, hr, rfl, hpos, hg⟩ := land_cases h
  rw [coherent, hf, all_some, hr, all_some, decide_eq_true_eq] at hok
  refine { hs with folios := uptodate_put hs.folios fun hu => ?_ }
  rcases hg hu with ⟨hold, hstamp⟩ | hstamp
  · exact hs.suits_of_held (held_of_find hf hold hpos hstamp)
  · rw [hstamp, hpos]
    split_ifs with hinside
    · exact hs.suits_changes
    · exact hok.resolve_left hinside

theorem Fresh.write {off len : ℕ} (h : s.write pos off len = some s') : s'.Fresh := by
  obtain ⟨f, hf, -, ⟨-, rfl⟩ | ⟨-, rfl⟩⟩ := write_cases h
  all_goals exact { hs with
    folios := uptodate_put hs.folios fun hu => hs.suits_of_held (held_of_find hf hu rfl rfl) }

theorem Fresh.extend (hok : s.coherent .extend = true) (h : s.extend = some s') : s'.Fresh := by
  obtain ⟨x, hx, h⟩ := bind_eq_some_iff.mp h
  obtain ⟨f, hf, rfl⟩ := map_eq_some_iff.mp h
  rw [coherent, hx, all_some, decide_eq_true_eq] at hok
  exact { hs with
    folios := uptodate_put hs.folios fun hu => hs.suits_of_held (held_of_find hf hu rfl rfl)
    size := hok }

theorem Fresh.step (hok : s.coherent ev = true) (h : s.step ev = some s') : s'.Fresh := by
  by_cases ht : tends ev = true
  · have ht := tended_of_step ht h
    refine hs.of_held (fun f hf hu => hs.suits_of_held (ht.folios f hf hu)) (le_of_eq ht.seen) ?_
      (le_of_eq ht.changes.symm) ?_ (fun r hr _ _ _ hn => ⟨r, ht.refreshes ▸ hr, hn⟩)
    · rw [ht.seen, ht.sizeStamp]
      exact hs.size
    · rw [ht.refreshes, ht.changes]
      exact hs.refreshes
  cases ev with
  | write pos off len => exact hs.write h
  | extend => exact hs.extend hok h
  | land pos upto => exact hs.land hok h
  | around i pos size => exact hs.around hok h
  | ask =>
    cases h
    refine hs.of_held hs.folios (le_refl _) hs.size (le_refl _)
      (forall_mem_cons.mpr ⟨le_refl _, hs.refreshes⟩) fun r hr f hf n hn => ?_
    rcases mem_cons.mp hr with rfl | hold
    · cases hn
    · exact ⟨r, hold, hn⟩
  | judge i => exact hs.judge hok h
  | abandon i =>
    change s.abandon i = some s' at h
    rw [Inode.abandon] at h
    split at h
    · cases h
      exact hs.over (fun _ => id) (le_refl _) rfl rfl rfl
    · cases h
  | sweep i upto => exact hs.sweep h
  | drop i => exact hs.drop h
  | install i => exact hs.install h
  | push size mtime =>
    cases h
    exact { hs with }
  | settle i => exact hs.settle hok h
  | foreign a =>
    obtain ⟨-, h⟩ := ite_none_left_eq_some.mp h
    cases h
    exact hs.of_held hs.folios (le_refl _) hs.size (Nat.le_succ _)
      (fun r hr => Nat.le_succ_of_le (hs.refreshes r hr)) (fun r hr _ _ _ hn => ⟨r, hr, hn⟩)
  | _ => exact absurd rfl ht

end

end Rail.Kernel.Inode
