import Rail.Transport.Delivery

/-!
# The data channel at rest

What the channel does by itself comes to an end: every byte is written and read once, and between
two reads a receive goes round its loop only when it is woken, which happens when one of them is
done (`weight`).  When it has come to an end, every frame has landed if each is matched by a
receive.
-/

namespace Rail.Transport.Channel

open List Option Wire

/-- Nothing can happen by itself. -/
def Quiet (s : Channel) : Prop := ∀ e : Event, e.internal = true → s.step e = none

variable {s t : Channel} {l w : List Frame} {k : ℕ} {p : Posted} {f : Frame}

theorem Quiet.idle (h : s.Quiet) : s.writing = [] ∧ s.queue = [] := by
  have hw : s.writing = [] := by
    refine eq_nil_of_length_eq_zero (Nat.eq_zero_of_not_pos fun hpos => ?_)
    have hwrite : s.step (.write 1) = none := h (.write 1) rfl
    rw [Channel.step, Channel.write, if_pos ⟨Nat.one_pos, hpos⟩] at hwrite
    cases hwrite
  refine ⟨hw, ?_⟩
  cases hq : s.queue with
  | nil => rfl
  | cons f rest =>
    have hstart : s.step .start = none := h .start rfl
    simp [Channel.step, Channel.start, hw, hq] at hstart

/-- Nobody is left, and nothing is left to write. -/
theorem quiet_of_returned (hwriting : s.writing = []) (hqueue : s.queue = [])
    (hreader : s.reader = none) (hreturned : ∀ p ∈ s.posts, p.place.isReturned = true) :
    s.Quiet := by
  intro e he
  cases e with
  | start => simp [Channel.step, Channel.start, hwriting, hqueue]
  | write n =>
    rw [Channel.step, Channel.write, hwriting, if_neg]
    simp only [length_nil]
    omega
  | read n => simp [Channel.step, Channel.read, hreader]
  | resume k =>
    rw [Channel.step, Channel.resume, bind_eq_none_iff]
    intro p hp
    have hplace := hreturned p (mem_of_getElem? hp)
    cases h : p.place <;> simp_all [Place.isReturned]
  | _ => exact Bool.noConfusion he

/-- Nobody is scheduled. -/
theorem Quiet.unscheduled (h : s.Quiet) (hp : s.posts[k]? = some p) :
    p.place ≠ .scheduled ∧ ∀ key length, p.place ≠ .seek key length true := by
  have hresume : s.step (.resume k) = none := h (.resume k) rfl
  rw [Channel.step, Channel.resume, hp, bind_some] at hresume
  constructor
  · intro hplace
    simp [hplace] at hresume
  · intro key length hplace
    simp [hplace] at hresume

/-- A reader that reads has read everything. -/
theorem Quiet.pipe (h : s.Quiet) (hup : s.up = true) {r : Posted} (hk : s.reader = some k)
    (hr : s.posts[k]? = some r) (hs : s.Inv l w) (hreads : (∃ got, r.place = .header got) ∨
      ∃ u, r.place = .payload u) : s.pipe = [] := by
  refine eq_nil_of_length_eq_zero (Nat.eq_zero_of_not_pos fun hpos => ?_)
  have hread : s.step (.read 1) = none := h (.read 1) rfl
  have hflow := hs.flow k r hk hr
  rw [Channel.step, Channel.read, if_pos ⟨hup, Nat.one_pos, hpos⟩, hk, bind_some, hr,
    bind_some] at hread
  rcases hreads with ⟨got, hplace⟩ | ⟨u, hplace⟩
  · rw [hplace] at hflow
    have hlt := hflow.1
    simp only [hplace] at hread
    split_ifs at hread
    omega
  · rw [hplace] at hflow
    obtain ⟨f, rest, p, -, hp, -, -, -, -, hshort, -⟩ := hflow
    simp only [hplace, hp, bind_some] at hread
    split_ifs at hread
    omega

/-- Every frame has a receive of its key and its length. -/
def Matched (s : Channel) : Prop := ∀ f ∈ s.sent, ∃ p ∈ s.posts, p.key = f.key ∧
  p.room = f.payload.length

theorem Inv.unfailed (h : s.Inv l w) (hup : s.up = true) (hmatch : s.Matched) :
    s.failure = none := by
  by_contra hf
  rcases h.blamed hf with hdown | ⟨f, hf, p, hp, hkey, hroom⟩
  · exact Bool.noConfusion (hup.symm.trans hdown)
  · obtain ⟨q, hq, hqkey, hqroom⟩ := hmatch f hf
    obtain rfl := inj_on_of_nodup_map h.keys hp hq (hkey.trans hqkey.symm)
    exact hroom hqroom

/-- The receive of a frame on the wire has not returned. -/
theorem Inv.awaits (h : s.Inv l w) (hup : s.up = true) (hmatch : s.Matched) (hf : f ∈ w) :
    ∃ (j : ℕ) (p : Posted), s.posts[j]? = some p ∧ p.key = f.key ∧ p.place.isReturned = false := by
  obtain ⟨p, hp, hkey, -⟩ := hmatch f (by rw [h.split]; simp [hf])
  obtain ⟨j, hj⟩ := mem_iff_getElem?.mp hp
  have hdone := h.toCore.undone hf hj hkey
  refine ⟨j, p, hj, hkey, ?_⟩
  cases hplace : p.place with
  | returned r =>
    cases r with
    | landed => exact Bool.noConfusion (hdone.symm.trans ((h.good j p hj).landed hplace))
    | failed why => exact absurd (h.unfailed hup hmatch) ((h.good j p hj).failed why hplace)
  | _ => rfl

/-- Where nobody reads, whoever has not returned is scheduled. -/
theorem Inv.scheduled_of_reader_eq_none (h : s.Inv l w) (hr : s.reader = none) {j : ℕ}
    (hj : s.posts[j]? = some p) (hlive : p.place.isReturned = false) : p.place = .scheduled := by
  have hgood := h.good j p hj
  cases hplace : p.place with
  | idle => exact absurd hplace (hgood.awake hr)
  | scheduled => rfl
  | returned r =>
    rw [hplace] at hlive
    exact Bool.noConfusion hlive
  | _ =>
    have hdrives := hgood.drives.mp (by rw [hplace]; rfl)
    exact absurd (hr.symm.trans hdrives) (some_ne_none j).symm

/-- **A frame is held up only by its key**: when nothing can happen any more, nobody waits for the
first frame on the wire. -/
theorem Inv.head_unposted (h : s.Inv l (f :: w)) (hquiet : s.Quiet) (hup : s.up = true) {j : ℕ}
    (hj : s.posts[j]? = some p) (hkey : p.key = f.key) : p.place.isReturned = true := by
  obtain ⟨hwriting, -⟩ := hquiet.idle
  rcases eq_none_or_eq_some s.reader with hr | ⟨k, hk⟩
  · cases hlive : p.place.isReturned with
    | true => rfl
    | false => exact absurd (h.scheduled_of_reader_eq_none hr hj hlive) (hquiet.unscheduled hj).1
  · obtain ⟨r, hr⟩ := h.present k hk
    have hflow := h.flow k r hk hr
    have hdrives := (h.good k r hr).drives.mpr hk
    cases hplace : r.place with
    | header got =>
      have hpipe := hquiet.pipe hup hk hr h (.inl ⟨got, hplace⟩)
      rw [hplace] at hflow
      obtain ⟨hshort, hbytes⟩ := hflow
      rw [ahead, hpipe, hwriting] at hbytes
      have hlen := congrArg List.length hbytes
      rw [frames_cons] at hlen
      simp [headerSize] at hlen hshort
      omega
    | seek key length woken =>
      cases woken with
      | true => exact absurd hplace ((hquiet.unscheduled hr).2 key length)
      | false =>
        rw [hplace] at hflow
        obtain ⟨g, rest, hhead, hgkey, -, -⟩ := hflow
        obtain ⟨rfl, -⟩ := List.cons.inj hhead
        exact h.parked k r key length hr hplace p (mem_of_getElem? hj) (hkey.trans hgkey)
    | payload u =>
      have hpipe := hquiet.pipe hup hk hr h (.inr ⟨u, hplace⟩)
      rw [hplace] at hflow
      obtain ⟨g, rest, q, -, -, -, hroom, -, -, hshort, hbytes⟩ := hflow
      have hlen := congrArg List.length hbytes
      rw [ahead, hpipe, hwriting] at hlen
      simp at hlen
      omega
    | _ =>
      rw [hplace] at hdrives
      exact Bool.noConfusion hdrives

/-- **When nothing can happen any more, nothing is on the wire.** -/
theorem Inv.drained (h : s.Inv l w) (hquiet : s.Quiet) (hup : s.up = true) (hmatch : s.Matched) :
    w = [] := by
  cases w with
  | nil => rfl
  | cons f rest =>
    obtain ⟨j, p, hj, hkey, hlive⟩ := h.awaits hup hmatch mem_cons_self
    exact Bool.noConfusion (hlive.symm.trans (h.head_unposted hquiet hup hj hkey))

/-- **When nothing can happen any more, every frame has landed.** -/
theorem Inv.quiet (h : s.Inv l w) (hquiet : s.Quiet) (hup : s.up = true) (hmatch : s.Matched) :
    ∀ f ∈ s.sent, ∃ p ∈ s.posts, p.key = f.key ∧ p.place = .returned .landed ∧
    p.into = f.payload := by
  intro f hf
  have hlanded : f ∈ l := by
    rw [h.split, h.drained hquiet hup hmatch, hquiet.idle.2] at hf
    simpa using hf
  obtain ⟨p, hp, hkey, hdone⟩ := h.posted f hlanded
  obtain ⟨j, hj⟩ := mem_iff_getElem?.mp hp
  obtain ⟨hplace, g, hg, hgkey, hinto⟩ := (h.good j p hj).done hdone
  have hsame : g = f := by
    refine inj_on_of_nodup_map h.distinct ?_ hf (hgkey.trans hkey)
    rw [h.split]
    simp [hg]
  exact ⟨p, hp, hkey, hplace.resolve_left (hquiet.unscheduled hj).1, hsame ▸ hinto⟩

/-! ## Every run comes to rest -/

section Counting

variable {α : Type*} {q : α → Bool}

theorem countP_mapIdx_le {l : List α} {g : ℕ → α → α}
    (h : ∀ j a, l[j]? = some a → q (g j a) = true → q a = true) :
    (l.mapIdx g).countP q ≤ l.countP q := by
  induction l generalizing g with
  | nil => simp
  | cons a l ih =>
    have htail := ih fun j b hb => h (j + 1) b hb
    have hhead := h 0 a rfl
    rw [mapIdx_cons, countP_cons, countP_cons]
    split_ifs with h₁ h₂
    · exact Nat.add_le_add_right htail 1
    · exact absurd (hhead h₁) h₂
    · exact Nat.le_succ_of_le htail
    · exact htail

theorem countP_mapIdx_lt {l : List α} {g : ℕ → α → α} {a : α}
    (h : ∀ j a, l[j]? = some a → q (g j a) = true → q a = true) (hk : l[k]? = some a)
    (ha : q a = true) (hg : q (g k a) = false) : (l.mapIdx g).countP q < l.countP q := by
  induction l generalizing g k with
  | nil => simp at hk
  | cons b l ih =>
    have hhead := h 0 b rfl
    rw [mapIdx_cons, countP_cons, countP_cons]
    cases k with
    | zero =>
      cases hk
      have htail : (l.mapIdx fun i => g (i + 1)).countP q ≤ l.countP q :=
        countP_mapIdx_le fun j c hc => h (j + 1) c hc
      rw [ha, hg, if_neg Bool.false_ne_true, if_pos rfl]
      omega
    | succ k =>
      have htail := ih (fun j c hc => h (j + 1) c hc) hk hg
      split_ifs with h₁ h₂
      · exact Nat.add_lt_add_right htail 1
      · exact absurd (hhead h₁) h₂
      · exact Nat.lt_succ_of_lt htail
      · exact htail

end Counting

/-- Bytes still to be written, and to be read. -/
def load (s : Channel) : ℕ :=
  2 * (frames s.queue).length + s.queue.length + 2 * s.writing.length + s.pipe.length

/-- Receives that are neither done nor returned. -/
def undone (s : Channel) : ℕ := s.posts.countP fun p => !p.done && !p.place.isReturned

def scheduled (s : Channel) : ℕ := s.posts.countP fun p => p.place.isScheduled

/-- The three in lexicographic order, as one number. -/
def weight (s : Channel) : ℕ :=
  (s.load * (s.posts.length + 1) + s.undone) * (s.posts.length + 1) + s.scheduled

/-- Only the receives have changed, and not in what they were posted for. -/
structure Reposted (s t : Channel) : Prop where
  queue : t.queue = s.queue
  writing : t.writing = s.writing
  pipe : t.pipe = s.pipe
  sent : t.sent = s.sent
  up : t.up = s.up
  posts : t.posts.map (fun p => (p.key, p.room)) = s.posts.map fun p => (p.key, p.room)

theorem Reposted.of_mapIdx {g : ℕ → Posted → Posted} (hposts : t.posts = s.posts.mapIdx g)
    (hg : ∀ j p, (g j p).key = p.key ∧ (g j p).room = p.room) (hqueue : t.queue = s.queue)
    (hwriting : t.writing = s.writing) (hpipe : t.pipe = s.pipe) (hsent : t.sent = s.sent)
    (hup : t.up = s.up) : Reposted s t := by
  refine ⟨hqueue, hwriting, hpipe, hsent, hup, ext_getElem? fun j => ?_⟩
  rw [hposts, getElem?_map, getElem?_map, getElem?_mapIdx, Option.map_map]
  exact congrArg (Option.map · s.posts[j]?) (funext fun p => Prod.ext (hg j p).1 (hg j p).2)

theorem Reposted.trans {u : Channel} (h : Reposted s t) (h' : Reposted t u) : Reposted s u :=
  ⟨h'.queue.trans h.queue, h'.writing.trans h.writing, h'.pipe.trans h.pipe, h'.sent.trans h.sent,
    h'.up.trans h.up, h'.posts.trans h.posts⟩

theorem reposted_alter (s : Channel) (k : ℕ) {f : Posted → Posted}
    (hf : ∀ p, (f p).key = p.key ∧ (f p).room = p.room) : Reposted s (s.alter k f) := by
  refine .of_mapIdx rfl (fun j p => ?_) rfl rfl rfl rfl rfl
  split_ifs
  · exact hf p
  · exact ⟨rfl, rfl⟩

theorem reposted_moveTo (s : Channel) (k : ℕ) (a : Place) : Reposted s (s.moveTo k a) :=
  reposted_alter s k fun _ => ⟨rfl, rfl⟩

theorem reposted_fail (s : Channel) (k : ℕ) (why : String) : Reposted s (s.fail k why) := by
  rw [fail_eq]
  exact .of_mapIdx rfl (fun _ _ => ⟨rfl, rfl⟩) rfl rfl rfl rfl rfl

theorem reposted_land (s : Channel) (k t : ℕ) : Reposted s (s.land k t) := by
  by_cases ht : t = k
  · subst ht
    rw [land_self]
    exact .of_mapIdx rfl (fun _ _ => ⟨rfl, rfl⟩) rfl rfl rfl rfl rfl
  · rw [land_other s ht]
    exact .of_mapIdx rfl (fun _ _ => ⟨rfl, rfl⟩) rfl rfl rfl rfl rfl

theorem reposted_look (s : Channel) (k : ℕ) (key : UInt64) (length : ℕ) :
    Reposted s (s.look k key length) := by
  rw [look]
  cases s.waiting key with
  | none => exact reposted_moveTo s k _
  | some e =>
    obtain ⟨p, t⟩ := e
    have hempty : Reposted s (s.alter t fun p => { p with into := [] }) :=
      reposted_alter s t fun _ => ⟨rfl, rfl⟩
    simp only
    split_ifs
    · exact reposted_fail s k _
    · exact hempty.trans (reposted_land _ k t)
    · exact hempty.trans (reposted_moveTo _ k _)

/-- Once round the loop, a receive returns, parks or begins to read: it is no longer scheduled. -/
theorem pass_eq_moveTo (s : Channel) (k : ℕ) (done : Bool) :
    ∃ r a, s.pass k done = { s with reader := r }.moveTo k a ∧ a.isScheduled = false := by
  cases done with
  | true => exact ⟨s.reader, .returned .landed, rfl, rfl⟩
  | false =>
    rcases eq_none_or_eq_some s.failure with hf | ⟨why, hf⟩
    · rcases eq_none_or_eq_some s.reader with hr | ⟨r, hr⟩
      · exact ⟨some k, .header [], by simp [Channel.pass, hf, hr], rfl⟩
      · have hpass : s.pass k false = s.moveTo k .idle := by simp [Channel.pass, hf, hr]
        exact ⟨s.reader, .idle, hpass, rfl⟩
    · have hpass : s.pass k false = s.moveTo k (.returned (.failed (protocolError why))) := by
        simp [Channel.pass, hf]
      exact ⟨s.reader, .returned (.failed (protocolError why)), hpass, rfl⟩

theorem Reposted.load (h : Reposted s t) : t.load = s.load := by
  rw [Channel.load, Channel.load, h.queue, h.writing, h.pipe]

theorem Reposted.length (h : Reposted s t) : t.posts.length = s.posts.length := by
  simpa using congrArg List.length h.posts

/-- One receive fewer that waits for its frame, or one fewer that the loop has to resume. -/
def Lighter (s t : Channel) : Prop := t.undone < s.undone ∨ t.undone ≤ s.undone ∧
  t.scheduled < s.scheduled

theorem lex_lt {n a b x y : ℕ} (hx : x ≤ n) (h : a < b ∨ a ≤ b ∧ x < y) :
    a * (n + 1) + x < b * (n + 1) + y := by
  rcases h with h | ⟨hab, hxy⟩
  · have hmul := Nat.mul_le_mul_right (n + 1) h
    rw [Nat.succ_mul] at hmul
    omega
  · have hmul := Nat.mul_le_mul_right (n + 1) hab
    omega

theorem Reposted.weight_lt (h : Reposted s t) (hlighter : Lighter s t) : t.weight < s.weight := by
  have hundone : t.undone ≤ s.posts.length := h.length ▸ countP_le_length
  have hscheduled : t.scheduled ≤ s.posts.length := h.length ▸ countP_le_length
  rw [weight, weight, h.length, h.load]
  refine lex_lt hscheduled ?_
  rcases hlighter with hu | ⟨hu, hs⟩
  · exact .inl (Nat.add_lt_add_left hu _)
  · exact .inr ⟨Nat.add_le_add_left hu _, hs⟩

theorem weight_lt_of_load (hlength : t.posts.length = s.posts.length) (hload : t.load < s.load) :
    t.weight < s.weight := by
  have hundone : t.undone ≤ s.posts.length := hlength ▸ countP_le_length
  have hscheduled : t.scheduled ≤ s.posts.length := hlength ▸ countP_le_length
  rw [weight, weight, hlength]
  exact lex_lt hscheduled (.inl (lex_lt hundone (.inl hload)))

/-- A receive that was scheduled is not any more. -/
theorem lighter_moveTo {a : Place} (hp : s.posts[k]? = some p) (hplace : p.place.isScheduled = true)
    (ha : a.isScheduled = false) : Lighter s (s.moveTo k a) := by
  have hlive : p.place.isReturned = false := by
    cases h : p.place <;> simp [h, Place.isScheduled, Place.isReturned] at hplace ⊢
  refine .inr ⟨countP_mapIdx_le fun j q hq => ?_, countP_mapIdx_lt (fun j q hq => ?_) hp hplace ?_⟩
  · by_cases hj : j = k
    · subst hj
      obtain rfl := mem_unique hp hq
      rw [if_pos rfl, hlive]
      intro h
      rw [(Bool.and_eq_true_iff.mp h).1]
      rfl
    · rw [if_neg hj]
      exact id
  · split_ifs with hj
    · intro h
      rw [ha] at h
      exact Bool.noConfusion h
    · exact id
  · rw [if_pos rfl]
    exact ha

theorem Lighter.of_le {u : Channel} (hundone : t.undone ≤ s.undone)
    (hscheduled : t.scheduled ≤ s.scheduled) (h : Lighter t u) : Lighter s u := by
  rcases h with h | ⟨h, h'⟩
  · exact .inl (Nat.lt_of_lt_of_le h hundone)
  · exact .inr ⟨Nat.le_trans h hundone, Nat.lt_of_lt_of_le h' hscheduled⟩

theorem lighter_land {t : ℕ} {r : Posted} (hr : s.posts[k]? = some r)
    (hreads : r.place.isReturned = false) (hp : s.posts[t]? = some p) (hdone : p.done = false)
    (hlive : p.place.isReturned = false) : Lighter s (s.land k t) := by
  by_cases ht : t = k
  · subst ht
    rw [land_self]
    refine .inl (countP_mapIdx_lt (fun j q _ hq => ?_) hp (by simp [hdone, hlive]) (by simp))
    by_cases hj : j = t
    · simp [hj] at hq
    · simpa [hj] using hq
  · rw [land_other s ht]
    refine .inl (countP_mapIdx_lt (fun j q hq hcount => ?_) hp (by simp [hdone, hlive]) (by simp))
    by_cases hj : j = k
    · subst hj
      obtain rfl := mem_unique hr hq
      simp only [Bool.and_eq_true, Bool.not_eq_true', Bool.or_eq_false_iff] at hcount
      simp [hcount.1.2, hreads]
    · by_cases hjt : j = t
      · simp [hjt] at hcount
      · simpa [hj, hjt] using hcount

theorem Inv.lighter_look {key : UInt64} {length : ℕ} (h : s.Inv l w) (hp : s.posts[k]? = some p)
    (hplace : p.place = .seek key length true) : Lighter s (s.look k key length) := by
  have hscheduled : p.place.isScheduled = true := by rw [hplace]; rfl
  have hk := (h.good k p hp).drives.mp (by rw [hplace]; rfl)
  have hdone := (h.good k p hp).not_done hk
  have hflow := h.flow k p hk hp
  rw [hplace] at hflow
  obtain ⟨f, rest, rfl, rfl, rfl, -⟩ := hflow
  rw [look]
  cases hw : s.waiting f.key with
  | none => exact lighter_moveTo hp hscheduled rfl
  | some e =>
    obtain ⟨q, t⟩ := e
    obtain ⟨hq, hkey, hlive⟩ := waiting_eq_some hw
    have hqdone := h.toCore.undone mem_cons_self hq hkey
    have hempty : ∀ {u}, Lighter (s.alter t fun p => { p with into := [] }) u → Lighter s u := by
      refine .of_le (countP_mapIdx_le fun j r _ hr => ?_) (countP_mapIdx_le fun j r _ hr => ?_)
      all_goals by_cases hj : j = t <;> simpa [hj] using hr
    have hq' : (s.alter t fun p => { p with into := [] }).posts[t]? =
        some { q with into := [] } := by
      rw [getElem?_posts_of rfl hq, if_pos rfl]
    obtain ⟨r, hk', hplace'⟩ : ∃ r, (s.alter t fun p => { p with into := [] }).posts[k]? = some r ∧
        r.place = .seek f.key f.payload.length true := by
      refine ⟨_, getElem?_posts_of rfl hp, ?_⟩
      split_ifs <;> exact hplace
    simp only
    split_ifs
    · rw [fail_eq]
      refine .inl (countP_mapIdx_lt (fun j r _ hr => ?_) hp ?_ ?_)
      · by_cases hj : j = k
        · simp [hj, Place.isReturned] at hr
        · simpa [hj] using hr
      · simp [hdone, hplace, Place.isReturned]
      · simp [Place.isReturned]
    · exact hempty (lighter_land hk' (by rw [hplace']; rfl) hq' hqdone hlive)
    · exact hempty (lighter_moveTo hk' (by rw [hplace']; rfl) rfl)

theorem Inv.lighter_resume (h : s.Inv l w) (hstep : s.resume k = some t) :
    Reposted s t ∧ Lighter s t := by
  obtain ⟨p, hp, hstep⟩ := bind_eq_some_iff.mp hstep
  cases hplace : p.place with
  | scheduled =>
    simp only [hplace] at hstep
    cases hstep
    obtain ⟨r, a, hpass, ha⟩ := pass_eq_moveTo s k p.done
    rw [hpass]
    constructor
    · exact { reposted_moveTo { s with reader := r } k a with }
    · exact lighter_moveTo (s := { s with reader := r }) hp (by rw [hplace]; rfl) ha
  | seek key length woken =>
    cases woken with
    | false => simp [hplace] at hstep
    | true =>
      simp only [hplace] at hstep
      cases hstep
      exact ⟨reposted_look s k key length, h.lighter_look hp hplace⟩
  | _ => simp [hplace] at hstep

/-- A read takes bytes off the pipe, and does something to the receives. -/
theorem read_reposted {n : ℕ} (hstep : s.read n = some t) :
    0 < n ∧ n ≤ s.pipe.length ∧ Reposted { s with pipe := s.pipe.drop n } t := by
  obtain ⟨⟨-, hpos, hn⟩, hstep⟩ := ite_none_right_eq_some.mp hstep
  obtain ⟨k, -, hstep⟩ := bind_eq_some_iff.mp hstep
  obtain ⟨r, -, hstep⟩ := bind_eq_some_iff.mp hstep
  refine ⟨hpos, hn, ?_⟩
  cases hplace : r.place with
  | header got =>
    simp only [hplace] at hstep
    split_ifs at hstep
    · cases hstep
      exact reposted_moveTo _ k _
    · cases hstep
      exact reposted_look _ k _ _
  | payload u =>
    simp only [hplace] at hstep
    obtain ⟨p, -, hstep⟩ := bind_eq_some_iff.mp hstep
    have hfill : Reposted { s with pipe := s.pipe.drop n }
        ({ s with pipe := s.pipe.drop n }.alter u fun p =>
        { p with into := p.into ++ s.pipe.take n }) :=
      reposted_alter _ u fun _ => ⟨rfl, rfl⟩
    split_ifs at hstep
    · cases hstep
      exact hfill
    · cases hstep
      exact hfill.trans (reposted_land _ k u)
  | _ => simp [hplace] at hstep

/-- What no step of the channel itself touches. -/
structure Kept (s t : Channel) : Prop where
  sent : t.sent = s.sent
  up : t.up = s.up
  posts : t.posts.map (fun p => (p.key, p.room)) = s.posts.map fun p => (p.key, p.room)

/-- **Whatever the channel does by itself brings it nearer to rest.** -/
theorem Inv.settles {e : Event} (h : s.Inv l w) (he : e.internal = true)
    (hstep : s.step e = some t) : Kept s t ∧ t.weight < s.weight := by
  cases e with
  | start =>
    rw [Channel.step, Channel.start] at hstep
    cases hw : s.writing with
    | cons b bs => simp [hw] at hstep
    | nil =>
      cases hq : s.queue with
      | nil => simp [hw, hq] at hstep
      | cons f rest =>
        simp only [hw, hq] at hstep
        cases hstep
        refine ⟨⟨rfl, rfl, rfl⟩, weight_lt_of_load rfl ?_⟩
        simp only [load, hw, hq, frames, flatMap_cons, length_append, length_cons, length_nil]
        omega
  | write n =>
    obtain ⟨⟨hpos, hn⟩, hstep⟩ := ite_none_right_eq_some.mp hstep
    cases hstep
    refine ⟨⟨rfl, rfl, rfl⟩, weight_lt_of_load rfl ?_⟩
    simp only [load, length_append, length_drop, length_take_of_le hn]
    omega
  | read n =>
    obtain ⟨hpos, hn, hreposted⟩ := read_reposted hstep
    refine ⟨{ hreposted with }, weight_lt_of_load hreposted.length ?_⟩
    rw [hreposted.load]
    simp only [load, length_drop]
    omega
  | resume k =>
    obtain ⟨hreposted, hlighter⟩ := h.lighter_resume hstep
    exact ⟨{ hreposted with }, hreposted.weight_lt hlighter⟩
  | _ => exact Bool.noConfusion he

theorem Matched.kept (h : s.Matched) (hkept : Kept s t) : t.Matched := by
  intro f hf
  obtain ⟨p, hp, hkey, hroom⟩ := h f (hkept.sent ▸ hf)
  have hmem : (p.key, p.room) ∈ t.posts.map fun p => (p.key, p.room) :=
    hkept.posts ▸ List.mem_map.mpr ⟨p, hp, rfl⟩
  obtain ⟨q, hq, he⟩ := List.mem_map.mp hmem
  exact ⟨q, hq, (congrArg Prod.fst he).trans hkey, (congrArg Prod.snd he).trans hroom⟩

/-- A run of the channel by itself. -/
theorem Inv.settle :
    ∀ {es : List Event} {s t : Channel}, (∃ l w, s.Inv l w) → (∀ e ∈ es, e.internal = true) →
    Runs.exec Channel.step s es = some t → (∃ l w, t.Inv l w) ∧ Kept s t ∧
    es.length + t.weight ≤ s.weight
  | [], s, t, h, _, hrun => by
    cases hrun
    exact ⟨h, ⟨rfl, rfl, rfl⟩, by simp⟩
  | e :: es, s, t, h, hes, hrun => by
    obtain ⟨u, hu, hrest⟩ := Runs.exec_cons_eq_some hrun
    have he := hes e mem_cons_self
    have hok : s.distinct e ∧ e.fits := by cases e <;> trivial
    obtain ⟨l, w, hs⟩ := h
    obtain ⟨hkept, hlt⟩ := hs.settles he hu
    obtain ⟨ht, hkept', hle⟩ :=
      Inv.settle (Inv.step ⟨l, w, hs⟩ hok hu) (fun e he => hes e (mem_cons_of_mem _ he)) hrest
    refine ⟨ht, ⟨hkept'.sent.trans hkept.sent, hkept'.up.trans hkept.up,
      hkept'.posts.trans hkept.posts⟩, ?_⟩
    rw [length_cons]
    omega

/-- **The channel delivers by key.**  Keys of receives are distinct, keys of frames are, and every
payload is shorter than `2 ^ 32`.  Then, however receives are posted, frames sent and the stream
split, a receive that returns with its frame has the one payload sent under its key.  And while the
connection holds, if every frame is matched by a receive of its length, the channel comes to rest
after a bounded number of steps, and there every such receive has returned with its frame. -/
theorem delivers_by_key (es : List Event) (s : Channel) (hkeys : Runs.Meets step distinct {} es)
    (hfits : ∀ e ∈ es, e.fits) (hrun : Runs.exec step {} es = some s) :
    (∀ p ∈ s.posts, p.place = .returned .landed →
      ∃ f ∈ s.sent, f.key = p.key ∧ p.into = f.payload ∧ ∀ g ∈ s.sent, g.key = p.key → g = f) ∧
    (s.up = true → s.Matched →
      ∃ bound, ∀ (es' : List Event) (t : Channel), (∀ e ∈ es', e.internal = true) →
      Runs.exec step s es' = some t → es'.length ≤ bound ∧
        (t.Quiet → ∀ f ∈ s.sent, ∃ p ∈ t.posts, p.key = f.key ∧ p.place = .returned .landed ∧
        p.into = f.payload)) := by
  have hinv : ∃ l w, s.Inv l w :=
    Runs.exec_invariant (fun hs hok ht => Inv.step hs hok ht) ⟨[], [], Inv.initial⟩
      (hkeys.and_events hfits) hrun
  constructor
  · intro p hp hplace
    obtain ⟨l, w, h⟩ := hinv
    obtain ⟨j, hj⟩ := mem_iff_getElem?.mp hp
    obtain ⟨-, f, hf, hkey, hinto⟩ := (h.good j p hj).done ((h.good j p hj).landed hplace)
    have hsent : f ∈ s.sent := by
      rw [h.split]
      simp [hf]
    exact ⟨f, hsent, hkey, hinto, fun g hg hgkey =>
      inj_on_of_nodup_map h.distinct hg hsent (hgkey.trans hkey.symm)⟩
  · intro hup hmatch
    refine ⟨s.weight, fun es' t hes ht => ?_⟩
    obtain ⟨⟨l, w, hinv'⟩, hkept, hle⟩ := Inv.settle hinv hes ht
    refine ⟨by omega, fun hquiet => ?_⟩
    rw [← hkept.sent]
    exact hinv'.quiet hquiet (hkept.up.trans hup) (hmatch.kept hkept)

/-- Two receives, and their frames in the other order: the first to post reads for both. -/
theorem delivers_by_key_swapped :
    ∃ s, Runs.exec step {} [.recv 1 1 8, .recv 2 2 8, .send ⟨2, [5, 6]⟩, .send ⟨1, [7]⟩, .start,
      .write 14, .read 12] = some s ∧ s.up = true ∧ s.Matched ∧
      ∃ t, Runs.exec step s [.read 2, .start, .write 13, .read 12, .read 1, .resume 1] = some t ∧
      t.Quiet ∧ ∀ f ∈ s.sent, ∃ p ∈ t.posts, p.key = f.key ∧ p.place = .returned .landed ∧
      p.into = f.payload := by
  refine Runs.exists_exec rfl fun hs => ?_
  obtain ⟨-, hrest⟩ := delivers_by_key _ _ (by decide) (by decide) hs
  obtain ⟨bound, hsettles⟩ := hrest rfl (by unfold Matched; decide)
  refine ⟨rfl, by unfold Matched; decide, Runs.exists_exec rfl fun ht => ?_⟩
  refine ⟨quiet_of_returned rfl rfl rfl (by decide), (hsettles _ _ (by decide) ht).2 ?_⟩
  exact quiet_of_returned rfl rfl rfl (by decide)

/-- A frame of `2 ^ 32` bytes on an idle channel, as `FileClient::write` sends it: the request says
that there are none, for its length is cut to 32 bits as well. -/
def wideRun (f : Frame) : List Event :=
  [.send f, .start, .write f.bytes.length, .recv f.key 0 f.payload.length, .read headerSize]

/-- Where it ends: the header says that the frame has no bytes, and they are left on the wire. -/
def wideEnd (f : Frame) : Channel where
  pipe := f.payload
  posts := [{ key := f.key, room := 0, done := true, place := .returned .landed }]
  sent := [f]

theorem wideRun_lands (hlen : f.payload.length = 2 ^ 32) :
    Runs.Meets step distinct {} (wideRun f) ∧ Runs.exec step {} (wideRun f) = some (wideEnd f) := by
  have hbytes : f.bytes = (Put.u64 f.key ++ Put.u32 0) ++ f.payload := by
    have hcut : UInt32.ofNat (2 ^ 32) = 0 := rfl
    rw [Frame.bytes, hlen, hcut]
    simp
  have hlong : headerSize ≤ f.bytes.length := by rw [length_bytes]; exact Nat.le_add_right _ _
  have hwrite : Channel.step { writing := f.bytes, sent := [f] } (.write f.bytes.length) =
      some { pipe := f.bytes, sent := [f] } := by
    have hpos : 0 < f.bytes.length := Nat.lt_of_lt_of_le (by decide) hlong
    simp [Channel.step, Channel.write, hpos]
  let reading : Channel :=
    { pipe := f.bytes, posts := [{ key := f.key, room := 0, place := .header [] }],
      reader := some 0, sent := [f] }
  have hread : reading.step (.read headerSize) = some (wideEnd f) := by
    have hlook : { reading with pipe := f.payload }.look 0 f.key 0 = wideEnd f := by
      simp [look, waiting, reading, Place.isReturned]
      rfl
    have hwhole : reading.step (.read headerSize) =
        some ({ reading with pipe := f.bytes.drop headerSize }.look 0
          (UInt64.ofNat (ofLE ((f.bytes.take headerSize).take 8)))
          (ofLE (((f.bytes.take headerSize).drop 8).take 4))) := by
      rw [Channel.step, Channel.read, if_pos ⟨rfl, by decide, hlong⟩]
      rfl
    rw [hwhole, hbytes, take_left' (by simp [headerSize]), drop_left' (by simp [headerSize]),
      header_key, header_length]
    exact congrArg some hlook
  refine Runs.Meets.exec_cons not_mem_nil rfl ?_
  refine Runs.Meets.exec_cons trivial rfl ?_
  refine Runs.Meets.exec_cons trivial hwrite ?_
  refine Runs.Meets.exec_cons (u := reading) not_mem_nil rfl ?_
  exact Runs.Meets.exec_cons trivial hread ⟨trivial, rfl⟩

/-- **A frame of `2 ^ 32` bytes lands as one of none**: its receive returns with success, and
without the payload. -/
theorem wide_frame_lands_empty :
    ¬ ∀ (es : List Event) (s : Channel), Runs.Meets step distinct {} es →
    Runs.exec step {} es = some s → ∀ p ∈ s.posts, p.place = .returned .landed → ∃ f ∈ s.sent,
    f.key = p.key ∧ p.into = f.payload := by
  intro h
  let f : Frame := ⟨1, List.replicate (2 ^ 32) 0⟩
  have hlen : f.payload.length = 2 ^ 32 := length_replicate
  clear_value f
  obtain ⟨hmeets, hrun⟩ := wideRun_lands hlen
  obtain ⟨g, hg, -, hinto⟩ := h _ _ hmeets hrun _ (mem_singleton_self _) rfl
  obtain rfl := mem_singleton.mp hg
  rw [← hinto] at hlen
  cases hlen

end Rail.Transport.Channel
