import Rail.Transport.TcpChannel

/-!
# Delivery by key

The invariant of the data channel, and what a run of it delivers.

The frames given to `send` are those that have landed, those on the wire and those that wait for
their turn, in this order (`Core.split`).  What the reader has of a frame, what it has not read and
what is not written yet are together the bytes of the frames on the wire (`Flow`), however the
socket cut them up.  So a header is read at the start of a frame, and a payload goes where its key
was posted.

For the wakeups: nobody is idle while nobody reads (`Good.awake`), a receive whose frame has landed
is scheduled (`Good.done`), and a reader that is held up has not overlooked a post (`Inv.parked`).
-/

namespace Rail.Transport

open List Option Wire

/-- Frames one after the other. -/
def frames (w : List Frame) : Bytes := w.flatMap Frame.bytes

theorem length_bytes (f : Frame) : f.bytes.length = headerSize + f.payload.length := by
  simp [Frame.bytes, headerSize]
  omega

theorem frames_cons (f : Frame) (w : List Frame) :
    frames (f :: w) = (Put.u64 f.key ++ Put.u32 (UInt32.ofNat f.payload.length)) ++
    (f.payload ++ frames w) := by
  simp [frames, Frame.bytes]

theorem frames_concat (w : List Frame) (f : Frame) : frames (w ++ [f]) = frames w ++ f.bytes := by
  simp [frames]

variable {a : Place}

namespace Place

@[simp] theorem drives_woken (a : Place) : a.woken.drives = a.drives := by
  cases a <;> rfl

@[simp] theorem isReturned_woken (a : Place) : a.woken.isReturned = a.isReturned := by
  cases a <;> rfl

@[simp] theorem woken_woken (a : Place) : a.woken.woken = a.woken := by
  cases a <;> rfl

theorem woken_ne_idle (a : Place) : a.woken ≠ .idle := by
  cases a <;> simp [woken]

theorem woken_ne_seek (a : Place) (key : UInt64) (length : ℕ) :
    a.woken ≠ .seek key length false := by
  cases a <;> simp [woken]

theorem woken_eq_returned {r : Outcome} : a.woken = .returned r ↔ a = .returned r := by
  cases a <;> simp [woken]

end Place

namespace Channel

/-- What is still to come to the reader. -/
def ahead (s : Channel) : Bytes := s.pipe ++ s.writing

/-- What holds of one receive; `l` are the frames that have landed. -/
structure Good (s : Channel) (l : List Frame) (j : ℕ) (p : Posted) : Prop where
  drives : p.place.drives = true ↔ s.reader = some j
  done : p.done = true →
    (p.place = .scheduled ∨ p.place = .returned .landed) ∧ ∃ f ∈ l, f.key = p.key ∧
    p.into = f.payload
  awake : s.reader = none → p.place ≠ .idle
  landed : p.place = .returned .landed → p.done = true
  failed : ∀ why, p.place = .returned (.failed why) → s.failure ≠ none

/-- A receive was posted for the key of a frame, with another length. -/
def Mismatched (s : Channel) : Prop := ∃ f ∈ s.sent, ∃ p ∈ s.posts, p.key = f.key ∧
  p.room ≠ f.payload.length

/-- The part of the invariant that says nothing of where the reader is; `w` are the frames on the
wire. -/
structure Core (s : Channel) (l w : List Frame) : Prop where
  good : ∀ j p, s.posts[j]? = some p → s.Good l j p
  present : ∀ k, s.reader = some k → ∃ p, s.posts[k]? = some p
  keys : (s.posts.map Posted.key).Nodup
  distinct : (s.sent.map Frame.key).Nodup
  small : ∀ f ∈ s.sent, f.payload.length < 2 ^ 32
  split : s.sent = l ++ w ++ s.queue
  posted : ∀ f ∈ l, ∃ p ∈ s.posts, p.key = f.key ∧ p.done = true
  alive : s.reader ≠ none → s.failure = none ∨ s.up = false
  blamed : s.failure ≠ none → s.up = false ∨ s.Mismatched

/-- How far the reader is with the first frame on the wire. -/
def Flow (s : Channel) (w : List Frame) : Place → Prop
  | .header got => got.length < headerSize ∧ frames w = got ++ s.ahead
  | .seek key length _ =>
    ∃ f rest, w = f :: rest ∧ f.key = key ∧ f.payload.length = length ∧
      f.payload ++ frames rest = s.ahead
  | .payload t =>
    ∃ f rest p, w = f :: rest ∧ s.posts[t]? = some p ∧ p.key = f.key ∧ p.room = f.payload.length ∧
      p.done = false ∧
      (s.failure = none → p.place.isReturned = false) ∧ p.into.length < p.room ∧
      f.payload ++ frames rest = p.into ++ s.ahead
  | _ => True

structure Inv (s : Channel) (l w : List Frame) : Prop extends Core s l w where
  parked : ∀ (j : ℕ) (p : Posted) (key : UInt64) (length : ℕ), s.posts[j]? = some p →
    p.place = .seek key length false → ∀ q ∈ s.posts, q.key = key → q.place.isReturned = true
  flow : ∀ k p, s.reader = some k → s.posts[k]? = some p → s.Flow w p.place
  rest : s.reader = none → s.failure = none → frames w = s.ahead

theorem Inv.initial : Inv ({} : Channel) [] [] := by
  refine ⟨⟨?_, ?_, ?_, ?_, ?_, ?_, ?_, ?_, ?_⟩, ?_, ?_, ?_⟩ <;> simp [frames, ahead]

/-! ## Changes to the posts -/

variable {s t : Channel} {l w : List Frame} {j k : ℕ} {p q : Posted} {f : Frame}
  {g : ℕ → Posted → Posted} {key : UInt64}

section

variable (hposts : t.posts = s.posts.mapIdx g)
include hposts

theorem getElem?_posts (h : t.posts[j]? = some q) :
    ∃ p, s.posts[j]? = some p ∧ g j p = q := by
  rw [hposts, getElem?_mapIdx] at h
  exact map_eq_some_iff.mp h

theorem getElem?_posts_of (h : s.posts[j]? = some p) : t.posts[j]? = some (g j p) := by
  rw [hposts, getElem?_mapIdx, h, map_some]

/-- Once everyone has been woken, nobody is held up but perhaps the one that goes on. -/
theorem unparked (hg : ∀ j p, (g j p).place = if j = k then a else p.place.woken)
    (ha : ∀ key length, a ≠ .seek key length false) {q : Posted} (hq : t.posts[j]? = some q)
    (key : UInt64) (length : ℕ) : q.place ≠ .seek key length false := by
  obtain ⟨p, -, rfl⟩ := getElem?_posts hposts hq
  rw [hg]
  split_ifs
  · exact ha key length
  · exact Place.woken_ne_seek p.place key length

end

/-- Keys and lengths of posts never change, and what is done stays done. -/
theorem Core.carry {l' w' : List Frame} (h : s.Core l w) (hposts : t.posts = s.posts.mapIdx g)
    (hg : ∀ j p, (g j p).key = p.key ∧ (g j p).room = p.room ∧
      (p.done = true → (g j p).done = true)) (hgood : ∀ j p, s.posts[j]? = some p →
      t.Good l' j (g j p))
    (hreader : t.reader = s.reader ∨ t.reader = none ∨ ∃ k p, t.reader = some k ∧
      s.posts[k]? = some p) (hsent : t.sent = s.sent) (hsplit : s.sent = l' ++ w' ++ t.queue)
    (hposted : ∀ f ∈ l', f ∈ l ∨ ∃ p ∈ t.posts, p.key = f.key ∧ p.done = true)
    (halive : t.reader ≠ none → t.failure = none ∨ t.up = false)
    (hblamed : t.failure ≠ none → t.up = false ∨ s.Mismatched) : t.Core l' w' where
  good := by
    intro j q hq
    obtain ⟨p, hp, rfl⟩ := getElem?_posts hposts hq
    exact hgood j p hp
  present := by
    intro k hk
    have hold : ∃ p, s.posts[k]? = some p := by
      rcases hreader with hr | hr | ⟨k', p, hr, hp⟩
      · exact h.present k (hr ▸ hk)
      · exact absurd (hr.symm.trans hk) (some_ne_none k).symm
      · obtain rfl := mem_unique hr hk
        exact ⟨p, hp⟩
    obtain ⟨p, hp⟩ := hold
    exact ⟨_, getElem?_posts_of hposts hp⟩
  keys := by
    have hkeys : t.posts.map Posted.key = s.posts.map Posted.key := by
      refine ext_getElem? fun j => ?_
      rw [hposts, getElem?_map, getElem?_map, getElem?_mapIdx, Option.map_map]
      exact congrArg (Option.map · s.posts[j]?) (funext fun p => (hg j p).1)
    exact hkeys ▸ h.keys
  distinct := hsent ▸ h.distinct
  small := hsent ▸ h.small
  split := hsent ▸ hsplit
  posted := by
    intro f hf
    rcases hposted f hf with hf | hf
    · obtain ⟨p, hp, hkey, hdone⟩ := h.posted f hf
      obtain ⟨j, hj⟩ := mem_iff_getElem?.mp hp
      exact ⟨g j p, mem_of_getElem? (getElem?_posts_of hposts hj), (hg j p).1.trans hkey,
        (hg j p).2.2 hdone⟩
    · exact hf
  alive := halive
  blamed := by
    intro hf
    refine (hblamed hf).imp_right ?_
    rintro ⟨f, hf, p, hp, hkey, hroom⟩
    obtain ⟨j, hj⟩ := mem_iff_getElem?.mp hp
    exact ⟨f, hsent ▸ hf, g j p, mem_of_getElem? (getElem?_posts_of hposts hj),
      (hg j p).1.trans hkey, fun hr => hroom ((hg j p).2.1.symm.trans hr)⟩

/-- One post changes, of which the key and the length stay. -/
theorem Core.alter {f : Posted → Posted} (h : s.Core l w)
    (hf : ∀ p, (f p).key = p.key ∧ (f p).room = p.room ∧ (p.done = true → (f p).done = true))
    (hgood : ∀ p, s.posts[k]? = some p → s.Good l k (f p)) : (s.alter k f).Core l w := by
  refine h.carry rfl (fun j p => ?_) (fun j p hp => ?_) (.inl rfl) rfl h.split (fun f hf => .inl hf)
    h.alive h.blamed
  · split_ifs
    · exact hf p
    · exact ⟨rfl, rfl, id⟩
  · split_ifs with hj
    · subst hj
      exact { hgood p hp with }
    · exact { h.good j p hp with }

/-- A receive that is woken, or not parked. -/
theorem Good.woken {l' : List Frame} (h : s.Good l j p) (hl : ∀ f ∈ l, f ∈ l')
    (hreader : t.reader = some j ↔ s.reader = some j)
    (hfailure : s.failure ≠ none → t.failure ≠ none) :
    t.Good l' j { p with place := p.place.woken } where
  drives := (iff_of_eq (congrArg (· = true) (Place.drives_woken _))).trans
    (h.drives.trans hreader.symm)
  done := by
    intro hd
    obtain ⟨hplace, f, hf, hrest⟩ := h.done hd
    refine ⟨?_, f, hl f hf, hrest⟩
    rcases hplace with hp | hp <;> simp [hp, Place.woken]
  awake := fun _ => Place.woken_ne_idle _
  landed := fun hp => h.landed (Place.woken_eq_returned.mp hp)
  failed := fun why hp => hfailure (h.failed why (Place.woken_eq_returned.mp hp))

theorem Good.not_reader (h : s.Good l j p) (hplace : p.place = .scheduled) : s.reader ≠ some j := by
  intro hr
  have hdrives := h.drives.mpr hr
  rw [hplace] at hdrives
  exact Bool.noConfusion hdrives

theorem Good.not_done (h : s.Good l j p) (hreader : s.reader = some j) : p.done = false := by
  refine Bool.eq_false_iff.mpr fun hd => ?_
  have hdrives := h.drives.mpr hreader
  rcases (h.done hd).1 with hp | hp <;> simp [hp, Place.drives] at hdrives

/-! ## Where the functions of the channel lead -/

theorem stop_eq (s : Channel) (k : ℕ) (r : Outcome) : s.stop k r =
    { s with
      reader := none
      posts := s.posts.mapIdx fun j p =>
        { p with place := if j = k then .returned r else p.place.woken } } := by
  simp only [stop, wake, moveTo, alter, mapIdx_mapIdx]
  congr 2
  funext j p
  by_cases h : j = k <;> simp [h]

theorem fail_eq (s : Channel) (k : ℕ) (why : String) : s.fail k why =
    { s with
      reader := none
      failure := some why
      posts := s.posts.mapIdx fun j p =>
        { p with place := if j = k then .returned (.failed why) else p.place.woken } } := by
  rw [fail, stop_eq]
  simp only [wake, mapIdx_mapIdx]
  congr 2
  funext j p
  simp

theorem land_self (s : Channel) (k : ℕ) : s.land k k =
    { s with
      reader := none
      posts := s.posts.mapIdx fun j p =>
        { p with done := decide (j = k) || p.done, place :=
          if j = k then .returned .landed else p.place.woken } } := by
  rw [land, if_pos rfl, stop_eq]
  simp only [alter, mapIdx_mapIdx]
  congr 2
  funext j p
  by_cases h : j = k <;> simp [h]

theorem land_other (s : Channel) {t : ℕ} (ht : t ≠ k) : s.land k t =
    { s with
      posts := s.posts.mapIdx fun j p =>
        { p with done := decide (j = t) || p.done, place :=
          if j = k then .header [] else p.place.woken } } := by
  rw [land, if_neg ht]
  simp only [wake, moveTo, alter, mapIdx_mapIdx]
  congr 2
  funext j p
  by_cases hk : j = k
  · subst hk
    simp [Ne.symm ht]
  · by_cases h : j = t
    · subst h
      simp [hk]
    · simp [h, hk]

/-- **A failure** is everybody's: the reader returns, and everyone else is woken to find it. -/
theorem Core.fail (h : s.Core l w) (hk : s.reader = some k) (why : String)
    (hblame : s.up = false ∨ s.Mismatched) : (s.fail k why).Inv l w := by
  rw [fail_eq]
  have hgone : ∀ j p, s.posts[j]? = some p → Good
      { s with
        reader := none
        failure := some why
        posts := s.posts.mapIdx fun j p =>
          { p with place := if j = k then .returned (.failed why) else p.place.woken } }
      l j { p with place := if j = k then .returned (.failed why) else p.place.woken } := by
    intro j p hp
    have hgood := h.good j p hp
    by_cases hj : j = k
    · subst hj
      have hdone := hgood.not_done hk
      simp only [if_true]
      exact ⟨by simp [Place.drives], fun hd => Bool.noConfusion (hdone.symm.trans hd), by simp,
        by simp, by simp⟩
    · simp only [hj, if_false]
      refine hgood.woken (fun f hf => hf) ?_ (fun _ => some_ne_none why)
      exact iff_of_false (some_ne_none j).symm fun hr => hj (mem_unique hr hk)
  refine ⟨h.carry rfl (fun _ _ => ⟨rfl, rfl, id⟩) hgone (.inr (.inl rfl)) rfl h.split (fun f hf =>
    .inl hf) (fun hr => absurd rfl hr) fun _ => hblame, ?_, ?_, ?_⟩
  · intro j q key length hq hplace
    exact absurd hplace (unparked rfl (fun _ _ => rfl) (by simp) hq key length)
  · exact fun _ _ hr => absurd hr (some_ne_none _).symm
  · exact fun _ hf => absurd hf (some_ne_none why)

/-- A frame on the wire has not landed, so the receive of its key is not done. -/
theorem Core.undone (h : s.Core l w) (hf : f ∈ w) (hp : s.posts[j]? = some p)
    (hkey : p.key = f.key) : p.done = false := by
  refine Bool.eq_false_iff.mpr fun hd => ?_
  obtain ⟨-, g, hg, hgkey, -⟩ := (h.good j p hp).done hd
  have hdistinct := h.distinct
  rw [h.split, append_assoc, map_append, map_append] at hdistinct
  exact disjoint_of_nodup_append hdistinct (List.mem_map.mpr ⟨g, hg, hgkey.trans hkey⟩)
    (mem_append_left _ (List.mem_map.mpr ⟨f, hf, rfl⟩))

/-- A receive that does not read, while a frame lands for `t`: it is woken, and finds its frame if
it is that one. -/
theorem Good.land {u : Channel} {t : ℕ} (h : s.Good l j q) (hs : s.reader ≠ some j)
    (hu : u.reader ≠ some j) (hfailure : u.failure = s.failure)
    (hmine : j = t → q.key = f.key ∧ q.into = f.payload ∧ q.place.isReturned = false) :
    u.Good (l ++ [f]) j { q with done := decide (j = t) || q.done, place := q.place.woken } := by
  have hgood : u.Good (l ++ [f]) j { q with place := q.place.woken } :=
    h.woken (fun g hg => mem_append_left _ hg) (iff_of_false hu hs) fun hf => hfailure ▸ hf
  by_cases hj : j = t
  · obtain ⟨hkey, hinto, hlive⟩ := hmine hj
    have hdrives : q.place.drives = false := Bool.eq_false_iff.mpr fun hd => hs (h.drives.mp hd)
    have hwoken : q.place.woken = .scheduled := by
      cases hplace : q.place <;> simp_all [Place.drives, Place.isReturned, Place.woken]
    simp only [hj, decide_true, Bool.true_or]
    subst hj
    exact { hgood with
      done := fun _ => ⟨.inl hwoken, f, mem_append_right _ (mem_singleton_self f), hkey.symm, hinto⟩
      landed := fun _ => rfl }
  · simp only [hj, decide_false, Bool.false_or]
    exact hgood

/-- **A frame lands** in the receive of its key. -/
theorem Core.land {rest : List Frame} {t : ℕ} (h : s.Core l (f :: rest)) (hk : s.reader = some k)
    (hp : s.posts[t]? = some p) (hkey : p.key = f.key) (hinto : p.into = f.payload)
    (hlive : p.place.isReturned = false) (hahead : frames rest = s.ahead) :
    (s.land k t).Inv (l ++ [f]) rest := by
  have hsplit : s.sent = l ++ [f] ++ rest ++ s.queue := by
    rw [h.split]
    simp
  have hother : ∀ j, j ≠ k → s.reader ≠ some j := fun j hj hr => hj (mem_unique hr hk)
  have hmine : ∀ j q, s.posts[j]? = some q → j = t →
      q.key = f.key ∧ q.into = f.payload ∧ q.place.isReturned = false := by
    rintro j q hq rfl
    obtain rfl := mem_unique hp hq
    exact ⟨hkey, hinto, hlive⟩
  have hposted : ∀ {u : Channel} {q : Posted}, u.posts[t]? = some q → q.key = p.key →
      q.done = true → ∀ g ∈ l ++ [f], g ∈ l ∨ ∃ p ∈ u.posts, p.key = g.key ∧ p.done = true := by
    intro u q hq hqkey hdone
    exact forall_mem_append.mpr ⟨fun _ => .inl, forall_mem_singleton.mpr
      (.inr ⟨q, mem_of_getElem? hq, hqkey.trans hkey, hdone⟩)⟩
  have hkeep : ∀ (j : ℕ) (q : Posted), q.key = q.key ∧ q.room = q.room ∧
      (q.done = true → (decide (j = t) || q.done) = true) :=
      fun j q => ⟨rfl, rfl, fun hd => by rw [hd, Bool.or_true]⟩
  by_cases ht : t = k
  · subst ht
    rw [land_self]
    refine ⟨h.carry rfl hkeep ?_ (.inr (.inl rfl)) rfl hsplit
      (hposted (getElem?_posts_of rfl hp) rfl (by simp)) (fun hr => absurd rfl hr) h.blamed,
      ?_, ?_, ?_⟩
    · intro j q hq
      by_cases hj : j = t
      · subst hj
        obtain rfl := mem_unique hp hq
        simp only [decide_true, Bool.true_or, if_true]
        exact ⟨by simp [Place.drives],
          fun _ => ⟨.inr rfl, f, mem_append_right _ (mem_singleton_self f), hkey.symm, hinto⟩, by
            simp,
          fun _ => rfl, by simp⟩
      · rw [if_neg hj]
        exact (h.good j q hq).land (hother j hj) (some_ne_none j).symm rfl (hmine j q hq)
    · intro j q key length hq hplace
      exact absurd hplace (unparked rfl (fun _ _ => rfl) (by simp) hq key length)
    · exact fun _ _ hr => absurd hr (some_ne_none _).symm
    · exact fun _ _ => hahead
  · rw [land_other s ht]
    refine ⟨h.carry rfl hkeep ?_ (.inl rfl) rfl hsplit
      (hposted (getElem?_posts_of rfl hp) rfl (by simp)) h.alive h.blamed, ?_, ?_, ?_⟩
    · intro j q hq
      by_cases hj : j = k
      · subst hj
        have hdone := (h.good j q hq).not_done hk
        simp only [Ne.symm ht, decide_false, Bool.false_or, if_true]
        exact ⟨iff_of_true rfl hk, fun hd => Bool.noConfusion (hdone.symm.trans hd),
          fun hr => absurd (hr.symm.trans hk) (some_ne_none j).symm, by simp, by simp⟩
      · simp only [hj, if_false]
        exact (h.good j q hq).land (hother j hj) (hother j hj) rfl (hmine j q hq)
    · intro j q key length hq hplace
      exact absurd hplace (unparked rfl (fun _ _ => rfl) (by simp) hq key length)
    · intro j q hr hq
      obtain rfl := mem_unique hr hk
      obtain ⟨q, -, rfl⟩ := getElem?_posts rfl hq
      simp only [if_true]
      exact ⟨by decide, hahead⟩
    · exact fun hr => absurd (hr.symm.trans hk) (some_ne_none k).symm

/-- The reader goes on inside `deliverUntil`. -/
theorem Core.drive (h : s.Core l w) (hk : s.reader = some k) (ha : a.drives = true) :
    (s.moveTo k a).Core l w := by
  refine h.alter (fun _ => ⟨rfl, rfl, id⟩) fun p hp => ?_
  have hdone := (h.good k p hp).not_done hk
  refine ⟨iff_of_true ha hk, fun hd => Bool.noConfusion (hdone.symm.trans hd),
    fun hr => absurd (hr.symm.trans hk) (some_ne_none k).symm, ?_, ?_⟩
  all_goals
    intros
    simp_all [Place.drives]

/-- What has been read into a buffer matters only once it is done. -/
theorem Core.fill {t : ℕ} (h : s.Core l w) (hp : s.posts[t]? = some p) (hdone : p.done = false)
    (f : Posted → Bytes) : (s.alter t fun p => { p with into := f p }).Core l w := by
  refine h.alter (fun _ => ⟨rfl, rfl, id⟩) fun q hq => ?_
  obtain rfl := mem_unique hp hq
  exact { h.good t p hp with done := fun hd => Bool.noConfusion (hdone.symm.trans hd) }

theorem waiting_eq_some {t : ℕ} (h : s.waiting key = some (p, t)) :
    s.posts[t]? = some p ∧ p.key = key ∧ p.place.isReturned = false := by
  have hmem := mem_zipIdx_iff_getElem?.mp (mem_of_find?_eq_some h)
  have hfound := find?_some h
  rw [Bool.and_eq_true, decide_eq_true_eq, Bool.not_eq_true'] at hfound
  exact ⟨hmem, hfound⟩

theorem waiting_eq_none :
    s.waiting key = none ↔ ∀ p ∈ s.posts, p.key = key → p.place.isReturned = true := by
  rw [waiting, find?_eq_none]
  constructor
  · intro h p hp hkey
    obtain ⟨j, hj⟩ := mem_iff_getElem?.mp hp
    have hnot := h (p, j) (mem_zipIdx_iff_getElem?.mpr hj)
    simpa [hkey] using hnot
  · intro h e he
    have hmem := mem_of_getElem? (mem_zipIdx_iff_getElem?.mp he)
    simpa using h e.1 hmem

/-- While somebody reads, the rest of the invariant is about where the reader is. -/
theorem Core.inv {r : Posted} (h : s.Core l w) (hk : s.reader = some k) (hr : s.posts[k]? = some r)
    (hparked : ∀ key length, r.place = .seek key length false → s.waiting key = none)
    (hflow : s.Flow w r.place) : s.Inv l w := by
  refine ⟨h, ?_, ?_, fun hnone => absurd (hnone.symm.trans hk) (some_ne_none k).symm⟩
  · intro j p key length hp hplace
    have hj := (h.good j p hp).drives.mp (by rw [hplace]; rfl)
    obtain rfl := mem_unique hj hk
    obtain rfl := mem_unique hp hr
    exact waiting_eq_none.mp (hparked key length hplace)
  · intro j p hj hp
    obtain rfl := mem_unique hj hk
    obtain rfl := mem_unique hp hr
    exact hflow

theorem getElem?_moveTo (a : Place) (h : s.posts[k]? = some p) :
    (s.moveTo k a).posts[k]? = some { p with place := a } := by
  rw [getElem?_posts_of rfl h, if_pos rfl]

/-- **What the reader does with a header**: the frame is for a receive that was posted, or it waits
for one. -/
theorem Core.look {rest : List Frame} (h : s.Core l (f :: rest)) (hk : s.reader = some k)
    (hahead : f.payload ++ frames rest = s.ahead) :
    ∃ l' w', (s.look k f.key f.payload.length).Inv l' w' := by
  obtain ⟨r, hr⟩ := h.present k hk
  rw [Channel.look]
  cases hw : s.waiting f.key with
  | none =>
    refine ⟨l, f :: rest, (h.drive hk rfl).inv hk (getElem?_moveTo _ hr) ?_ ⟨f, rest, rfl, rfl, rfl,
      hahead⟩⟩
    rintro key length ⟨⟩
    refine waiting_eq_none.mpr fun q' hq' hkey => ?_
    obtain ⟨j, hj⟩ := mem_iff_getElem?.mp hq'
    obtain ⟨q, hq, rfl⟩ := getElem?_posts rfl hj
    by_cases hjk : j = k
    · -- the reader waits for a frame of its own, so this one is not
      subst hjk
      rw [if_pos rfl] at hkey
      have hreturned := waiting_eq_none.mp hw q (mem_of_getElem? hq) hkey
      have hdrives := (h.good j q hq).drives.mpr hk
      cases hplace : q.place <;> simp [hplace, Place.drives, Place.isReturned] at hdrives hreturned
    · rw [if_neg hjk] at hkey ⊢
      exact waiting_eq_none.mp hw q (mem_of_getElem? hq) hkey
  | some e =>
    obtain ⟨p, t⟩ := e
    obtain ⟨hp, hkey, hlive⟩ := waiting_eq_some hw
    have hdone := h.undone mem_cons_self hp hkey
    have hfill := h.fill hp hdone fun _ => []
    have hempty : (s.alter t fun p => { p with into := [] }).posts[t]? =
        some { p with into := [] } := by
      rw [getElem?_posts_of rfl hp, if_pos rfl]
    simp only
    split_ifs with hroom hzero
    · refine ⟨l, f :: rest, h.fail hk _ (.inr ⟨f, ?_, p, mem_of_getElem? hp, hkey, .symm hroom⟩)⟩
      rw [h.split]
      simp
    · have hnil : f.payload = [] := eq_nil_of_length_eq_zero hzero
      rw [hnil, nil_append] at hahead
      exact ⟨l ++ [f], rest, hfill.land hk hempty hkey hnil.symm hlive hahead⟩
    · have hplace : ∃ q : Posted,
          ((s.alter t fun p => { p with into := [] }).moveTo k (.payload t)).posts[t]? = some q ∧
            q.key = p.key ∧ q.room = p.room ∧ q.done = p.done ∧ q.place.isReturned = false ∧
            q.into = [] := by
        refine ⟨_, getElem?_posts_of rfl hempty, ?_⟩
        split_ifs
        · exact ⟨rfl, rfl, rfl, rfl, rfl⟩
        · exact ⟨rfl, rfl, rfl, hlive, rfl⟩
      obtain ⟨q, hq, hqkey, hqroom, hqdone, hqlive, hqinto⟩ := hplace
      have hsize : f.payload.length = p.room := not_not.mp hroom
      obtain ⟨r', hr'⟩ := hfill.present k hk
      refine ⟨l, f :: rest, (hfill.drive hk rfl).inv hk (getElem?_moveTo _ hr') (fun _ _ hs =>
        Place.noConfusion hs) ?_⟩
      refine ⟨f, rest, q, rfl, hq, hqkey.trans hkey, hqroom.trans hsize.symm, hqdone.trans hdone,
        fun _ => hqlive, ?_, ?_⟩
      · rw [hqinto, hqroom, ← hsize]
        exact Nat.pos_of_ne_zero hzero
      · rw [hqinto, nil_append]
        exact hahead

/-- The reader does not notice changes to the posts that leave the one it fills. -/
theorem Flow.congr (h : s.Flow w a) (hahead : t.ahead = s.ahead)
    (hposts : ∀ (j : ℕ) (p : Posted), s.posts[j]? = some p → p.done = false →
      (s.failure = none → p.place.isReturned = false) →
      ∃ q : Posted, t.posts[j]? = some q ∧ q.key = p.key ∧ q.room = p.room ∧ q.into = p.into ∧
      q.done = false ∧ (t.failure = none → q.place.isReturned = false)) : t.Flow w a := by
  cases a with
  | header got => exact ⟨h.1, hahead ▸ h.2⟩
  | seek key length woken =>
    obtain ⟨f, rest, hw, hkey, hlen, hbytes⟩ := h
    exact ⟨f, rest, hw, hkey, hlen, hahead ▸ hbytes⟩
  | payload k =>
    obtain ⟨f, rest, p, hw, hp, hkey, hroom, hdone, hlive, hshort, hbytes⟩ := h
    obtain ⟨q, hq, hqkey, hqroom, hqinto, hqdone, hqlive⟩ := hposts k p hp hdone hlive
    refine ⟨f, rest, q, hw, hq, hqkey.trans hkey, hqroom.trans hroom, hqdone, hqlive, ?_, ?_⟩
    · rw [hqinto, hqroom]
      exact hshort
    · rw [hqinto, hahead]
      exact hbytes
  | _ => trivial

theorem Flow.woken (h : s.Flow w a) : s.Flow w a.woken := by
  cases a <;> exact h

/-- After `wakeReaders` nobody has overlooked anything. -/
theorem Core.wake (h : s.Core l w) (hflow : ∀ k p, s.reader = some k → s.posts[k]? = some p →
      s.Flow w p.place) (hrest : s.reader = none → s.failure = none → frames w = s.ahead) :
      s.wake.Inv l w := by
  refine ⟨?_, ?_, ?_, hrest⟩
  · exact h.carry rfl (fun _ _ => ⟨rfl, rfl, id⟩) (fun j p hp =>
      (h.good j p hp).woken (fun _ hf => hf) Iff.rfl id) (.inl rfl)
      rfl h.split (fun _ hf => .inl hf) h.alive h.blamed
  · intro j q key length hq hplace
    obtain ⟨p, -, rfl⟩ := getElem?_posts rfl hq
    exact absurd hplace (Place.woken_ne_seek _ _ _)
  · intro k q hk hq
    obtain ⟨p, hp, rfl⟩ := getElem?_posts rfl hq
    refine ((hflow k p hk hp).woken).congr rfl fun j r hr hdone hlive => ?_
    refine ⟨_, getElem?_posts_of rfl hr, rfl, rfl, rfl, hdone, fun hf => ?_⟩
    exact (Place.isReturned_woken _).trans (hlive hf)

/-- A receive that is scheduled goes to a place where it does not read. -/
theorem Inv.aside (h : s.Inv l w) (hp : s.posts[k]? = some p) (hplace : p.place = .scheduled)
    (hlive : a.isReturned = true → s.failure = none → p.done = true)
    (hgood : s.Good l k { p with place := a }) : (s.moveTo k a).Inv l w := by
  have hreader := (h.good k p hp).not_reader hplace
  refine ⟨?_, ?_, ?_, h.rest⟩
  · refine h.toCore.alter (fun _ => ⟨rfl, rfl, id⟩) fun q hq => ?_
    obtain rfl := mem_unique hp hq
    exact hgood
  · intro j q' key length hq' hseek r' hr' hkey
    obtain ⟨q, hq, rfl⟩ := getElem?_posts rfl hq'
    have hj : j ≠ k := by
      rintro rfl
      rw [if_pos rfl] at hseek
      exact hreader (hgood.drives.mp (by rw [hseek]; rfl))
    rw [if_neg hj] at hseek
    obtain ⟨i, hi⟩ := mem_iff_getElem?.mp hr'
    obtain ⟨r, hr, rfl⟩ := getElem?_posts rfl hi
    by_cases hik : i = k
    · subst hik
      rw [if_pos rfl] at hkey
      obtain rfl := mem_unique hp hr
      have hreturned := h.parked j q key length hq hseek p (mem_of_getElem? hp) hkey
      rw [hplace] at hreturned
      exact Bool.noConfusion hreturned
    · rw [if_neg hik] at hkey ⊢
      exact h.parked j q key length hq hseek r (mem_of_getElem? hr) hkey
  · intro j q' hj hq'
    obtain ⟨q, hq, rfl⟩ := getElem?_posts rfl hq'
    have hjk : j ≠ k := fun hjk => hreader (hjk ▸ hj)
    rw [if_neg hjk]
    refine (h.flow j q hj hq).congr rfl fun i r hr hdone hrlive => ⟨_, getElem?_posts_of rfl hr, ?_⟩
    by_cases hik : i = k
    · subst hik
      obtain rfl := mem_unique hp hr
      rw [if_pos rfl]
      refine ⟨rfl, rfl, rfl, hdone, fun hf => Bool.eq_false_iff.mpr fun hret => ?_⟩
      exact Bool.noConfusion (hdone.symm.trans (hlive hret hf))
    · rw [if_neg hik]
      exact ⟨rfl, rfl, rfl, hdone, hrlive⟩

/-- **Once round the loop of a receive.** -/
theorem Inv.pass (h : s.Inv l w) (hp : s.posts[k]? = some p) (hplace : p.place = .scheduled) :
    (s.pass k p.done).Inv l w := by
  have hgood := h.good k p hp
  have hreader := hgood.not_reader hplace
  have haside : ∀ {a : Place}, a.drives = false → (a.drives = true ↔ s.reader = some k) :=
    fun ha => iff_of_false (by simp [ha]) hreader
  cases hdone : p.done with
  | true =>
    exact h.aside hp hplace (fun _ _ => hdone)
      ⟨haside rfl, fun hd => ⟨.inr rfl, (hgood.done hd).2⟩, by simp, fun _ => hdone, by simp⟩
  | false =>
    have hnot : ∀ {P}, p.done = true → P := fun hd => Bool.noConfusion (hdone.symm.trans hd)
    rcases eq_none_or_eq_some s.failure with hf | ⟨why, hf⟩
    · rcases eq_none_or_eq_some s.reader with hr | ⟨r, hr⟩
      · have hpass : s.pass k false = { s with reader := some k }.moveTo k (.header []) := by
          simp [Channel.pass, hf, hr]
        have hcore : ({ s with reader := some k }.moveTo k (.header [])).Core l w := by
          refine h.toCore.carry rfl ?_ ?_ (.inr (.inr ⟨k, p, rfl, hp⟩)) rfl h.split (fun f hf =>
            .inl hf) (fun _ => .inl hf) h.blamed
          · intro j q
            split_ifs <;> exact ⟨rfl, rfl, id⟩
          · intro j q hq
            by_cases hj : j = k
            · subst hj
              obtain rfl := mem_unique hp hq
              rw [if_pos rfl]
              exact ⟨iff_of_true rfl rfl, hnot, fun hnone => absurd hnone (some_ne_none j), by simp,
                by simp⟩
            · rw [if_neg hj]
              have hqgood := h.good j q hq
              refine { hqgood with
                drives := iff_of_false (fun hd => ?_) fun he => hj (some.inj he).symm
                awake := fun hnone => absurd hnone (some_ne_none k) }
              exact absurd (hr.symm.trans (hqgood.drives.mp hd)) (some_ne_none j).symm
        rw [hpass]
        exact hcore.inv rfl (getElem?_moveTo _ hp) (fun _ _ hs => Place.noConfusion hs) ⟨by decide,
          h.rest hr hf⟩
      · have hpass : s.pass k false = s.moveTo k .idle := by simp [Channel.pass, hf, hr]
        rw [hpass]
        exact h.aside hp hplace (fun hret _ => absurd hret Bool.false_ne_true)
          ⟨haside rfl, hnot, fun hnone => absurd (hnone.symm.trans hr) (some_ne_none r).symm,
          by simp, by simp⟩
    · have hpass : s.pass k false = s.moveTo k (.returned (.failed (protocolError why))) := by
        simp [Channel.pass, hf]
      have hsome : s.failure ≠ none := hf ▸ some_ne_none why
      rw [hpass]
      exact h.aside hp hplace (fun _ hnone => absurd hnone hsome) ⟨haside rfl, hnot, by simp,
        by simp, fun _ _ => hsome⟩

/-! ## The steps -/

/-- Nothing but the flow is about the bytes. -/
theorem Core.bytes (h : s.Core l w) (pipe writing : Bytes) : Core { s with pipe, writing } l w :=
  { h with good := fun j p hp => { h.good j p hp with } }

section

variable (h : s.Inv l w)
include h

theorem Inv.start (hstep : s.start = some t) : ∃ w', t.Inv l w' := by
  rw [Channel.start] at hstep
  cases hw : s.writing with
  | cons b bs => simp [hw] at hstep
  | nil =>
    cases hq : s.queue with
    | nil => simp [hw, hq] at hstep
    | cons f rest =>
      simp only [hw, hq] at hstep
      cases hstep
      have hahead : ahead { s with writing := f.bytes, queue := rest } = s.ahead ++ f.bytes := by
        rw [ahead, ahead, hw, append_nil]
      refine ⟨w ++ [f], { h.toCore with good := fun j p hp => { h.good j p hp with }, split := ?_ },
        h.parked, ?_, ?_⟩
      · rw [h.split, hq]
        simp
      · intro k p hk hp
        have hflow := h.flow k p hk hp
        show Flow _ _ p.place
        cases hplace : p.place with
        | header got =>
          rw [hplace] at hflow
          refine ⟨hflow.1, ?_⟩
          rw [frames_concat, hflow.2, hahead, append_assoc]
        | seek key length woken =>
          rw [hplace] at hflow
          obtain ⟨g, more, rfl, hkey, hlen, hbytes⟩ := hflow
          refine ⟨g, more ++ [f], rfl, hkey, hlen, ?_⟩
          rw [frames_concat, ← append_assoc, hbytes, hahead]
        | payload t =>
          rw [hplace] at hflow
          obtain ⟨g, more, r, rfl, hr, hkey, hroom, hdone, hlive, hshort, hbytes⟩ := hflow
          refine ⟨g, more ++ [f], r, rfl, hr, hkey, hroom, hdone, hlive, hshort, ?_⟩
          rw [frames_concat, ← append_assoc, hbytes, hahead, append_assoc]
        | _ => trivial
      · intro hr hf
        rw [frames_concat, h.rest hr hf, hahead]

theorem Inv.write {n : ℕ} (hstep : s.write n = some t) : t.Inv l w := by
  obtain ⟨-, hstep⟩ := ite_none_right_eq_some.mp hstep
  cases hstep
  have hahead : ahead { s with pipe := s.pipe ++ s.writing.take n, writing := s.writing.drop n } =
      s.ahead := by
    rw [ahead, append_assoc, take_append_drop, ahead]
  refine ⟨h.toCore.bytes _ _, h.parked, ?_, ?_⟩
  · intro k p hk hp
    exact (h.flow k p hk hp).congr hahead fun j q hq hdone hlive =>
      ⟨q, hq, rfl, rfl, rfl, hdone, hlive⟩
  · intro hr hf
    rw [hahead]
    exact h.rest hr hf

theorem Inv.send (hnew : s.distinct (.send f)) (hfits : (Event.send f).fits) :
    Inv { s with queue := s.queue ++ [f], sent := s.sent ++ [f] } l w := by
  refine ⟨{ h.toCore with
    good := fun j p hp => { h.good j p hp with }
    distinct := ?_
    small := ?_
    split := ?_
    blamed := ?_ }, h.parked, ?_, h.rest⟩
  · rw [map_append]
    exact concat_eq_append ▸ h.distinct.concat hnew
  · exact forall_mem_append.mpr ⟨h.small, forall_mem_singleton.mpr hfits⟩
  · rw [h.split, append_assoc]
  · intro hf
    refine (h.blamed hf).imp_right ?_
    rintro ⟨g, hg, p, hp⟩
    exact ⟨g, mem_append_left _ hg, p, hp⟩
  · intro k p hk hp
    exact (h.flow k p hk hp).congr rfl fun j q hq hdone hlive =>
      ⟨q, hq, rfl, rfl, rfl, hdone, hlive⟩

theorem Inv.close : s.close.Inv l w := by
  refine Core.wake { h.toCore with
    good := fun j p hp => { h.good j p hp with failed := fun _ _ => some_ne_none _ }
    alive := fun _ => .inr rfl
    blamed := fun _ => .inl rfl } ?_ fun _ hf => absurd hf (some_ne_none _)
  intro k p hk hp
  exact (h.flow k p hk hp).congr rfl fun j q hq hdone _ =>
    ⟨q, hq, rfl, rfl, rfl, hdone, fun hf => absurd hf (some_ne_none _)⟩

theorem Inv.lose {why : String} (hstep : s.lose why = some t) : t.Inv l w := by
  obtain ⟨k, hk, hstep⟩ := bind_eq_some_iff.mp hstep
  obtain ⟨p, -, hstep⟩ := bind_eq_some_iff.mp hstep
  have hcore : Core { s with up := false } l w :=
    { h.toCore with
      good := fun j p hp => { h.good j p hp with }
      alive := fun _ => .inr rfl
      blamed := fun _ => .inl rfl }
  cases hplace : p.place with
  | header got | payload t' =>
    simp only [hplace] at hstep
    cases hstep
    exact hcore.fail hk why (.inl rfl)
  | _ => simp [hplace] at hstep

theorem Inv.recv {length capacity : ℕ} (hfresh : s.distinct (.recv key length capacity)) :
    (s.recv key length capacity).Inv l w := by
  rw [Channel.recv]
  split_ifs with hlarge htwice
  · exact h
  · exact h
  · have hnew : (s.post key length).posts[s.posts.length]? = some { key, room := length } :=
      getElem?_concat_length
    have hold : ∀ {j : ℕ} {p : Posted}, s.posts[j]? = some p → (s.post key length).posts[j]? =
        some p := by
      intro j p hp
      exact (getElem?_append_left (List.getElem?_eq_some_iff.mp hp).1).trans hp
    have hcore : (s.post key length).Core l w := by
      refine { h.toCore with good := ?_, present := ?_, keys := ?_, posted := ?_, blamed := ?_ }
      · intro j p hp
        rcases Nat.lt_or_ge j s.posts.length with hj | hj
        · have hp' : s.posts[j]? = some p := (getElem?_append_left hj).symm.trans hp
          exact { h.good j p hp' with }
        · have hlast : j = s.posts.length := by
            have hlt := (List.getElem?_eq_some_iff.mp hp).1
            rw [post, length_append, length_singleton] at hlt
            omega
          subst hlast
          obtain rfl := mem_unique hnew hp
          have hreader : s.reader ≠ some s.posts.length := by
            intro hr
            obtain ⟨q, hq⟩ := h.present _ hr
            exact Nat.lt_irrefl _ (List.getElem?_eq_some_iff.mp hq).1
          exact ⟨iff_of_false Bool.false_ne_true hreader, by simp, by simp, by simp, by simp⟩
      · intro k hk
        obtain ⟨p, hp⟩ := h.present k hk
        exact ⟨p, hold hp⟩
      · rw [post, map_append]
        exact concat_eq_append ▸ h.keys.concat hfresh
      · intro f hf
        obtain ⟨p, hp, hrest⟩ := h.posted f hf
        exact ⟨p, mem_append_left _ hp, hrest⟩
      · intro hf
        refine (h.blamed hf).imp_right ?_
        rintro ⟨f, hf, p, hp, hrest⟩
        exact ⟨f, hf, p, mem_append_left _ hp, hrest⟩
    have hwake : (s.post key length).wake.Inv l w := by
      refine hcore.wake ?_ h.rest
      intro k p hk hp
      obtain ⟨r, hr⟩ := h.present k hk
      obtain rfl := some.inj ((hold hr).symm.trans hp)
      exact (h.flow k r hk hr).congr rfl fun j q hq hdone hlive =>
        ⟨q, hold hq, rfl, rfl, rfl, hdone, hlive⟩
    exact hwake.pass (getElem?_posts_of rfl hnew) rfl

end

theorem header_key (key : UInt64) (length : UInt32) :
    UInt64.ofNat (ofLE ((Put.u64 key ++ Put.u32 length).take 8)) = key := by
  rw [take_left' (length_u64 _), Put.u64, ofLE_le key.toNat_lt, UInt64.ofNat_toNat]

theorem header_length (key : UInt64) (length : UInt32) :
    ofLE (((Put.u64 key ++ Put.u32 length).drop 8).take 4) = length.toNat := by
  rw [drop_left' (length_u64 _), take_of_length_le (by simp), Put.u32, ofLE_le (UInt32.toNat_lt _)]

/-- Twelve bytes at the start of the frames are the header of the first. -/
theorem frames_eq_header {h rest : Bytes} (hlen : h.length = headerSize)
    (hsmall : ∀ f ∈ w, f.payload.length < 2 ^ 32) (hw : frames w = h ++ rest) :
    ∃ f w', w = f :: w' ∧ UInt64.ofNat (ofLE (h.take 8)) = f.key ∧
    ofLE ((h.drop 8).take 4) = f.payload.length ∧ f.payload ++ frames w' = rest := by
  cases w with
  | nil =>
    have hnil := congrArg List.length hw
    rw [frames, flatMap_nil, length_nil, length_append, hlen, headerSize] at hnil
    omega
  | cons f w' =>
    have hfits := hsmall f mem_cons_self
    rw [frames_cons] at hw
    obtain ⟨rfl, hrest⟩ := append_inj hw (by rw [hlen]; simp [headerSize])
    exact ⟨f, w', rfl, header_key _ _, (header_length _ _).trans (UInt32.toNat_ofNat_of_lt' hfits),
      hrest⟩

theorem Inv.read {n : ℕ} (h : s.Inv l w) (hstep : s.read n = some t) : ∃ l' w', t.Inv l' w' := by
  obtain ⟨⟨hup, -, hn⟩, hstep⟩ := ite_none_right_eq_some.mp hstep
  obtain ⟨k, hk, hstep⟩ := bind_eq_some_iff.mp hstep
  obtain ⟨r, hr, hstep⟩ := bind_eq_some_iff.mp hstep
  have hflow := h.flow k r hk hr
  have hcore := h.toCore.bytes (s.pipe.drop n) s.writing
  have htake : (s.pipe.take n).length = n := length_take_of_le hn
  have hahead : s.ahead = s.pipe.take n ++ ahead { s with pipe := s.pipe.drop n } := by
    rw [ahead, ahead, ← append_assoc, take_append_drop]
  cases hplace : r.place with
  | header got =>
    rw [hplace] at hflow
    obtain ⟨hshort, hbytes⟩ := hflow
    rw [hahead, ← append_assoc] at hbytes
    simp only [hplace] at hstep
    split_ifs at hstep with hless hfull
    · cases hstep
      refine ⟨l, w, (hcore.drive hk rfl).inv hk (getElem?_moveTo _ hr) (fun _ _ hs =>
        Place.noConfusion hs) ⟨?_, hbytes⟩⟩
      rw [length_append, htake]
      exact hless
    · cases hstep
      have hsmall : ∀ f ∈ w, f.payload.length < 2 ^ 32 := by
        intro f hf
        refine h.small f ?_
        rw [h.split]
        simp [hf]
      obtain ⟨f, w', rfl, hkey, hlen, hrest⟩ :=
        frames_eq_header (by rw [length_append, htake]; exact hfull) hsmall hbytes
      rw [hkey, hlen]
      exact hcore.look hk hrest
  | payload u =>
    rw [hplace] at hflow
    obtain ⟨f, rest, p, rfl, hp, hkey, hroom, hdone, hlive, hshort, hbytes⟩ := hflow
    rw [hahead, ← append_assoc] at hbytes
    simp only [hplace] at hstep
    rw [hp, bind_some] at hstep
    have hfill := hcore.fill hp hdone fun p => p.into ++ s.pipe.take n
    have hfilled : ({ s with pipe := s.pipe.drop n }.alter u fun p =>
      { p with into := p.into ++ s.pipe.take n }).posts[u]? =
        some { p with into := p.into ++ s.pipe.take n } := by
      rw [getElem?_posts_of rfl hp, if_pos rfl]
    split_ifs at hstep with hless hfull
    · cases hstep
      have hreader : ∃ r', ({ s with pipe := s.pipe.drop n }.alter u fun p =>
          { p with into := p.into ++ s.pipe.take n }).posts[k]? = some r' ∧
            r'.place = .payload u := by
        refine ⟨_, getElem?_posts_of rfl hr, ?_⟩
        split_ifs
        all_goals exact hplace
      obtain ⟨r', hr', hplace'⟩ := hreader
      refine ⟨l, f :: rest,
        hfill.inv hk hr' (fun _ _ hs => Place.noConfusion (hplace'.symm.trans hs)) ?_⟩
      rw [hplace']
      refine ⟨f, rest, _, rfl, hfilled, hkey, hroom, hdone, hlive, ?_, hbytes⟩
      show (p.into ++ s.pipe.take n).length < p.room
      rw [length_append, htake]
      exact hless
    · cases hstep
      obtain ⟨hinto, hrest⟩ := append_inj hbytes (by rw [length_append, htake, hfull, hroom])
      have hfailure : s.failure = none := by
        refine (h.alive (hk ▸ some_ne_none k)).resolve_right fun hdown => ?_
        exact Bool.noConfusion (hup.symm.trans hdown)
      exact ⟨l ++ [f], rest, hfill.land hk hfilled hkey hinto.symm (hlive hfailure) hrest⟩
  | _ => simp [hplace] at hstep

theorem Inv.resume (h : s.Inv l w) (hstep : s.resume k = some t) : ∃ l' w', t.Inv l' w' := by
  obtain ⟨p, hp, hstep⟩ := bind_eq_some_iff.mp hstep
  cases hplace : p.place with
  | scheduled =>
    simp only [hplace] at hstep
    cases hstep
    exact ⟨l, w, h.pass hp hplace⟩
  | seek key length woken =>
    cases woken with
    | false => simp [hplace] at hstep
    | true =>
      simp only [hplace] at hstep
      cases hstep
      have hk := (h.good k p hp).drives.mp (by rw [hplace]; rfl)
      have hflow := h.flow k p hk hp
      rw [hplace] at hflow
      obtain ⟨f, rest, rfl, rfl, rfl, hahead⟩ := hflow
      exact h.toCore.look hk hahead
  | _ => simp [hplace] at hstep

/-- **Every step keeps the invariant.** -/
theorem Inv.step {e : Event} (h : ∃ l w, s.Inv l w) (hok : s.distinct e ∧ e.fits)
    (hstep : s.step e = some t) : ∃ l w, t.Inv l w := by
  obtain ⟨l, w, h⟩ := h
  cases e with
  | send f =>
    cases hstep
    exact ⟨l, w, h.send hok.1 hok.2⟩
  | start => exact ⟨l, h.start hstep⟩
  | write n => exact ⟨l, w, h.write hstep⟩
  | recv key length capacity =>
    cases hstep
    exact ⟨l, w, h.recv hok.1⟩
  | read n => exact h.read hstep
  | resume k => exact h.resume hstep
  | lose why => exact ⟨l, w, h.lose hstep⟩
  | close =>
    cases hstep
    exact ⟨l, w, h.close⟩

end Channel
end Rail.Transport
