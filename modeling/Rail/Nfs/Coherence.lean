import Rail.Nfs.Serving

/-!
# What an NFS read returns

Two questions about the replies of a session are answered here.  Both rest on the invariant of
`Rail.Nfs.Serving`, by which a reply carries the bytes of one read the daemon made.

*What a read may exceed.*  A plain read asks for the capacity of its scratch page, not for the count
of the call, and the page may have been made for a larger call before: the scratch window of a
session keeps it.  So the reply stays within its request exactly when the page is no larger than the
count, or the file, or what the daemon returns, ends before it.  A windowed read cuts its reply out
of the window and never exceeds anything.

*What a read may miss.*  A fill is under way while the daemon's answer travels.  A change that is
served and answered meanwhile makes the windows forget their path, but the fill installs what it
read afterwards, and nothing remembers that it is stale.  A window that holds the file under another
name is not told at all.
-/

namespace Rail.Nfs

open List Option ByteFile Memory

namespace Gateway

variable {o : ExportOptions} {s s' : Gateway} {k e : ℕ} {c : Cached} {t : Tag} {r : ReadCall}
  {l : Luck} {names : String → Option ℕ} {contents : ℕ → List UInt8}

/-! ## Reads and their requests -/

/-- The reply is within its request: no more than the count, and either the daemon had nothing to be
asked for, or the bytes are the file's from the offset on, with `eof` where they reach its end. -/
def Within (o : ExportOptions) (names : String → Option ℕ) (contents : ℕ → List UInt8)
    (p : Replied) : Prop :=
  p.answer.bytes.length ≤ p.call.count ∧
    (min p.call.count o.ceiling = 0 ∧ p.answer.bytes = [] ∨
      ∃ f, names p.call.path = some f ∧
        p.answer.bytes = slice (contents f) p.call.off p.answer.bytes.length ∧
        (p.answer.eof = true ↔ (contents f).length ≤ p.call.off + p.answer.bytes.length))

/-- A plain read has no more room than its call asks for, or less is there to be read. -/
def roomFits (o : ExportOptions) (s : Gateway) (k i : ℕ) (l : Luck) : Bool :=
  match s.frames k with
  | some (.direct r) =>
    decide (((s.scratches[i]?).getD {}).fits (min r.count o.ceiling) l.found ≤ r.count) ||
      decide (l.count ≤ r.count) ||
      (s.current r.path).all fun t => decide (t.content.length ≤ r.off + r.count)
  | _ => true

/-- The steps of reads; nothing changes a file or a name. -/
def isRead : Event → Bool
  | .read .. | .serveRead .. | .serveFill .. | .install .. | .wake .. | .sent .. | .fail .. => true
  | _ => false

/-- What a step of a read needs for its reply to stay within the request. -/
def fits (o : ExportOptions) (s : Gateway) : Event → Bool
  | .serveRead k i l => s.roomFits o k i l
  | .serveFill k l => s.registers o k l
  | _ => true

/-- A reply on its way is no longer than its call asks for, and has asked the daemon unless there
was nothing to ask for. -/
def Bounded (o : ExportOptions) : Frame → Prop
  | .served r _ a => a.bytes.length ≤ r.count ∧ (a.tag = none → min r.count o.ceiling = 0)
  | .sending r _ _ _ mine _ _ => mine ≤ r.count
  | _ => True

/-- What a session that only reads keeps, beside the invariant of every session. -/
structure Calm (o : ExportOptions) (names : String → Option ℕ) (contents : ℕ → List UInt8)
    (s : Gateway) : Prop where
  named : s.names = names
  hist : s.hist = fun f => [contents f]
  reads : ∀ t ∈ s.reads, names t.path = some t.file ∧ t.content = contents t.file
  frames : ∀ (k : ℕ) (f : Frame), s.frames k = some f → Bounded o f
  replies : ∀ p ∈ s.replies, p.answer.bytes.length ≤ p.call.count ∧
    (p.answer.tag = none → min p.call.count o.ceiling = 0)

variable {path : String}

section

variable (hs : Calm o names contents s)
include hs

theorem Calm.of_current (ht : s.current path = some t) :
    names t.path = some t.file ∧ t.content = contents t.file := by
  obtain ⟨f, hf, h⟩ := bind_eq_some_iff.mp ht
  obtain ⟨content, hlast, rfl⟩ := map_eq_some_iff.mp h
  rw [hs.named] at hf
  rw [hs.hist] at hlast
  exact ⟨hf, (some.inj hlast).symm⟩

/-- One call takes a step of its own. -/
theorem Calm.call (hnames : s'.names = s.names)
    (hhist : s'.hist = s.hist) (hframes : ∀ j, j ≠ k → s'.frames j = s.frames j)
    (hreads : ∀ t ∈ s'.reads, t ∈ s.reads ∨ ∃ path, s.current path = some t)
    (hframe : ∀ f, s'.frames k = some f → Bounded o f)
    (hrep : ∀ p ∈ s'.replies, p ∈ s.replies ∨ p.answer.bytes.length ≤ p.call.count ∧
      (p.answer.tag = none → min p.call.count o.ceiling = 0)) : Calm o names contents s' := by
  refine ⟨hnames.trans hs.named, hhist.trans hs.hist, fun t ht => ?_, fun j f hf => ?_,
    fun p hp => ?_⟩
  · rcases hreads t ht with hold | ⟨path, hnew⟩
    · exact hs.reads t hold
    · exact hs.of_current hnew
  · by_cases hj : j = k
    · subst hj
      exact hframe f hf
    · rw [hframes j hj] at hf
      exact hs.frames j f hf
  · exact (hrep p hp).elim (hs.replies p) id

theorem Calm.ends : Calm o names contents (s.put k none) := by
  refine hs.call (k := k) rfl rfl (fun j hj => frames_put_of_ne s _ hj) (fun _ => .inl)
    (fun g hg => ?_) fun _ => .inl
  rw [frames_put_self] at hg
  cases hg

/-- A call goes on to `f`; it may have turned to a window or used a scratch window. -/
theorem Calm.put {f : Frame} (hf : Bounded o f) : Calm o names contents (s.put k (some f)) := by
  refine hs.call (k := k) rfl rfl (fun j hj => frames_put_of_ne s _ hj) (fun _ => .inl)
    (fun g hg => ?_) fun _ => .inl
  rw [frames_put_self] at hg
  cases hg
  exact hf

theorem Calm.windows (next ticks : ℕ) (ws : List Cached) :
    Calm o names contents { s with next, ticks, windows := ws } :=
  { hs with }

theorem Calm.setEntry (e : ℕ) (c : Cached) : Calm o names contents (s.setEntry e c) :=
  hs.windows s.next s.ticks (s.windows.set e c)

theorem Calm.recorded (ht : s.current path = some t) (ws : List Window) :
    Calm o names contents { s with scratches := ws, reads := t :: s.reads } := by
  exact { hs with reads := forall_mem_cons.mpr ⟨hs.of_current ht, hs.reads⟩ }

end

theorem mine_le (n valid into : ℕ) : (if into < valid then min n (valid - into) else 0) ≤ n := by
  split
  · exact Nat.min_le_left ..
  · exact Nat.zero_le _

theorem Calm.respond (hs : Calm o names contents s) : Calm o names contents (s.respond k r e c) :=
  (hs.setEntry e _).put (mine_le ..)

theorem Calm.onWindowedRead (hs : Calm o names contents s) :
    Calm o names contents (s.onWindowedRead k r e c) := by
  rw [Gateway.onWindowedRead]
  dsimp only
  split
  · exact hs.respond
  · split
    all_goals exact (hs.setEntry e _).put trivial

theorem Calm.onRead (hs : Calm o names contents s) {off count : ℕ}
    (h : s.onRead o path off count = some s') : Calm o names contents s' := by
  rw [Gateway.onRead] at h
  dsimp only at h
  rcases windowFor_cases { s with next := s.next + 1 } path with hno | ⟨e, c, c', hw, hc, -, -, -⟩
  · rw [hno] at h
    cases h
    exact (hs.windows (s.next + 1) s.ticks s.windows).put trivial
  · rw [hw] at h
    have hturn := hs.windows (s.next + 1) (s.ticks + 1) (s.windows.set e c')
    obtain ⟨d, -, rfl⟩ := map_eq_some_iff.mp h
    split
    · exact hturn.onWindowedRead
    · exact (hturn.setEntry e _).put trivial

/-- A plain read returns no more than its call asks for, where its room fits. -/
theorem length_plain_le (hs : s.frames k = some (.direct r)) {i : ℕ}
    (ht : s.current r.path = some t) (hfits : s.roomFits o k i l = true) :
    (plain o ((s.scratches[i]?).getD {}) r l t).read.length ≤ r.count := by
  rw [roomFits, hs] at hfits
  dsimp only at hfits
  rw [ht, all_some, Bool.or_eq_true, Bool.or_eq_true, decide_eq_true_eq, decide_eq_true_eq,
    decide_eq_true_eq] at hfits
  rw [plain]
  dsimp only
  rw [length_slice]
  omega

section

variable (hs : Calm o names contents s)
include hs

theorem Calm.serveRead {i : ℕ} (hfits : s.roomFits o k i l = true)
    (h : s.serveRead o k i l = some s') : Calm o names contents s' := by
  rw [Gateway.serveRead] at h
  split at h
  next r hf =>
    dsimp only at h
    split at h
    next hzero =>
      cases h
      have hscratch : Calm o names contents { s with scratches := s.scratches.eraseIdx i } :=
        { hs with }
      exact hscratch.put ⟨Nat.zero_le _, fun _ => hzero⟩
    · obtain ⟨t, ht, rfl⟩ := map_eq_some_iff.mp h
      have hcur : s.current r.path = some t := ht
      split
      next hok =>
        refine (hs.recorded hcur _).put ⟨?_, fun h => by cases h⟩
        show (plainBytes _ _).length ≤ r.count
        rw [plainBytes_eq hok]
        exact length_plain_le hf hcur hfits
      · exact (hs.recorded hcur _).ends
  · cases h

theorem Calm.failFill : Calm o names contents (s.failFill k e c) :=
  (hs.setEntry e _).ends

theorem Calm.serveFill (h : s.serveFill o k l = some s') : Calm o names contents s' := by
  rw [Gateway.serveFill] at h
  split at h
  next r e hf =>
    obtain ⟨c, hc, h⟩ := bind_eq_some_iff.mp h
    obtain ⟨t, ht, h⟩ := bind_eq_some_iff.mp h
    have hrec := hs.recorded ht s.scratches
    dsimp only at h
    split at h
    · split at h
      · cases h
        exact (hrec.setEntry e _).put trivial
      · cases h
        exact hrec.failFill
    · cases h
  · cases h

theorem Calm.install (h : s.install k = some s') : Calm o names contents s' := by
  rw [Gateway.install] at h
  split at h
  · obtain ⟨c, -, rfl⟩ := map_eq_some_iff.mp h
    exact hs.respond
  · cases h

theorem Calm.wake (h : s.wake k = some s') : Calm o names contents s' := by
  rw [Gateway.wake] at h
  split at h
  · obtain ⟨c, -, h⟩ := bind_eq_some_iff.mp h
    split at h
    · split at h
      · exact some.inj h ▸ hs.respond
      · cases h
        exact hs.put trivial
    · cases h
  · cases h

theorem Calm.sent (hsound : s.Sound) (h : s.sent k = some s') : Calm o names contents s' := by
  have hend : Calm o names contents (s.put k none) := hs.ends
  rw [Gateway.sent] at h
  split at h
  next r w a hf =>
    cases h
    exact ⟨hs.named, hs.hist, hs.reads, hend.frames,
      forall_mem_append.mpr ⟨hs.replies, forall_mem_singleton.mpr (hs.frames k _ hf)⟩⟩
  next r e side into mine eof tag hf =>
    obtain ⟨c, hc, rfl⟩ := map_eq_some_iff.mp h
    obtain ⟨d, -, -, htag, -⟩ := hsound.frames k _ hf
    have hmine : mine ≤ r.count := hs.frames k _ hf
    refine ⟨hs.named, hs.hist, hs.reads, hend.frames,
      forall_mem_append.mpr ⟨hs.replies, forall_mem_singleton.mpr ⟨?_, fun hnone => ?_⟩⟩⟩
    · show (slice _ into mine).length ≤ r.count
      rw [length_slice]
      omega
    · have hnone : tag = none := hnone
      rw [hnone] at htag
      cases htag
  · cases h
    exact { hs with frames := hend.frames }
  · cases h

theorem Calm.fail (h : s.fail k = some s') : Calm o names contents s' := by
  have hend : Calm o names contents (s.put k none) := hs.ends
  rw [Gateway.fail] at h
  split at h
  · obtain ⟨c, -, rfl⟩ := map_eq_some_iff.mp h
    exact hs.failFill
  · obtain ⟨c, -, rfl⟩ := map_eq_some_iff.mp h
    exact hs.failFill
  · exact some.inj h ▸ hend
  · exact some.inj h ▸ hend
  · exact some.inj h ▸ hend
  · exact some.inj h ▸ hend
  · cases h

theorem Calm.step {ev : Event} (hsound : s.Sound)
    (hread : isRead ev = true) (hfits : s.fits o ev = true) (h : s.step o ev = some s') :
    Calm o names contents s' := by
  cases ev with
  | read path off count => exact hs.onRead h
  | serveRead k i l => exact hs.serveRead hfits h
  | serveFill k l => exact hs.serveFill h
  | install k => exact hs.install h
  | wake k => exact hs.wake h
  | sent k => exact hs.sent hsound h
  | fail k => exact hs.fail h
  | change path op | serveChange k | complete k | rebind names | forgets path =>
    simp [isRead] at hread

end

/-- The steps of reads need no more of the windows than that fills are registered. -/
theorem grounded_of_fits {ev : Event} (hread : isRead ev = true) (hfits : s.fits o ev = true) :
    s.grounded o ev = true := by
  cases ev with
  | serveFill k l => exact hfits
  | complete k => simp [isRead] at hread
  | _ => rfl

/-- **Reads answer within their request.**  In every sequence of reads of a session, with the
scratch windows used in any order: as long as no fill falls back to the heap, and the room of a
plain read is no larger than its count, or no more than the count is there to be read. -/
theorem reads_within_request (o : ExportOptions) (names : String → Option ℕ)
    (contents : ℕ → List UInt8) (n : ℕ) (evs : List Event) (s : Gateway)
    (hreads : ∀ ev ∈ evs, isRead ev = true)
    (hmeets : Runs.Meets (step o) (fun s ev => s.fits o ev = true) (opened names contents n) evs)
    (hrun : Runs.exec (step o) (opened names contents n) evs = some s) :
    ∀ p ∈ s.replies, Within o names contents p := by
  have hinit : Calm o names contents (opened names contents n) :=
    ⟨rfl, rfl, nofun, fun k f hf => absurd hf (by simp [opened]),
      nofun⟩
  obtain ⟨hs, hcalm⟩ : s.Sound ∧ Calm o names contents s :=
    Runs.exec_invariant (I := fun s => s.Sound ∧ Calm o names contents s)
      (fun hi hok ht =>
      ⟨hi.1.step (grounded_of_fits hok.2 hok.1) ht, hi.2.step hi.1 hok.2 hok.1 ht⟩)
      ⟨sound_opened names contents n, hinit⟩ (hmeets.and_events hreads) hrun
  intro p hp
  have ha := hs.replies p hp
  obtain ⟨hlen, huntagged⟩ := hcalm.replies p hp
  refine ⟨hlen, ?_⟩
  cases htag : p.answer.tag with
  | none => exact .inl ⟨huntagged htag, ha.untagged htag⟩
  | some t =>
    obtain ⟨hread, hpath⟩ := ha.read t htag
    obtain ⟨hname, hcontent⟩ := hcalm.reads t hread
    refine .inr ⟨t.file, hpath ▸ hname, ?_, ?_⟩
    · rw [← hcontent]
      exact ha.bytes t htag
    · rw [← hcontent]
      exact ha.eof t htag

/-- One file. -/
def oneFile : String → Option ℕ := fun path => if path = "/f" then some 0 else none

/-- Registered memory, and a daemon that returns all it is asked for. -/
def plenty : Luck := ⟨some fun _ => 0, 8, [], true⟩

/-- Two plain reads, the larger one last, and then one out of a window. -/
theorem reads_within_request_growing :
    ∃ s, Runs.exec (step ⟨4, 8, 8⟩) (opened oneFile (fun _ => [1, 2, 3, 4, 5, 6, 7, 8]) 1)
        [.read "/f" 4 2, .serveRead 0 0 plenty, .sent 0, .read "/f" 0 6, .serveRead 1 0 plenty,
        .sent 1, .read "/f" 6 3, .serveFill 2 plenty, .install 2, .sent 2] = some s ∧
      (∀ p ∈ s.replies, Within ⟨4, 8, 8⟩ oneFile (fun _ => [1, 2, 3, 4, 5, 6, 7, 8]) p) ∧
      s.replies.map (fun p => (p.answer.bytes, p.answer.eof)) =
        [([5, 6], false), ([1, 2, 3, 4, 5, 6], false), ([7, 8], true)] :=
  Runs.exists_exec rfl fun hs => ⟨reads_within_request _ _ _ _ _ _ (by decide) (by decide) hs, rfl⟩

/-- **A plain read after a larger one replies with more than it was asked for.**  The scratch page
of the first read is offered to the second, whose reply is of the page's size. -/
theorem larger_scratch_exceeds_count :
    ¬ ∀ (o : ExportOptions) (names : String → Option ℕ) (contents : ℕ → List UInt8) (n : ℕ)
        (evs : List Event) (s : Gateway), (∀ ev ∈ evs, isRead ev = true) →
        Runs.exec (step o) (opened names contents n) evs = some s →
          ∀ p ∈ s.replies, Within o names contents p := by
  intro hall
  have h := hall ⟨4, 8, 8⟩ oneFile (fun _ => [1, 2, 3, 4, 5, 6, 7, 8]) 1
    [.read "/f" 0 8, .serveRead 0 0 plenty, .sent 0, .read "/f" 0 2, .serveRead 1 0 plenty,
    .sent 1] _ (by decide) rfl
  exact absurd (fun p hp => (h p hp).1) (by decide)

/-! ## Reads and changes -/

/-- The bytes of the reply are those of a read that the daemon made of the file, of a content no
older than any change to the file that had been answered when the call arrived. -/
def SeesChanges (s : Gateway) (p : Replied) : Prop :=
  p.answer.bytes = [] ∨ ∃ t ∈ s.reads, t.path = p.call.path ∧
    (s.hist t.file)[t.version]? = some t.content ∧
    p.answer.bytes = slice t.content p.call.off p.answer.bytes.length ∧
    ∀ c ∈ p.call.known, c.file = t.file → c.version ≤ t.version

instance (s : Gateway) (p : Replied) : Decidable (s.SeesChanges p) :=
  inferInstanceAs (Decidable (_ ∨ _))

/-- **Reads see the changes answered before them.**  In every run of the handlers of a session,
whatever happens to names meanwhile: as long as no fill falls back to the heap, and the answer to a
change never finds something older of the file in a window of another path or on its way into a
window. -/
theorem reads_see_changes (o : ExportOptions) (names : String → Option ℕ)
    (contents : ℕ → List UInt8) (n : ℕ) (evs : List Event) (s : Gateway)
    (hmeets : Runs.Meets (step o) (fun s ev => s.grounded o ev = true)
      (opened names contents n) evs)
      (hrun : Runs.exec (step o) (opened names contents n) evs = some s) :
    ∀ p ∈ s.replies, s.SeesChanges p := by
  intro p hp
  have hs : s.Sound := Runs.exec_invariant (fun hs hok ht => Sound.step hs hok ht)
    (sound_opened names contents n) hmeets hrun
  have ha := hs.replies p hp
  cases htag : p.answer.tag with
  | none => exact .inl (ha.untagged htag)
  | some t =>
    obtain ⟨hread, hpath⟩ := ha.read t htag
    exact .inr ⟨t, hread, hpath, hs.reads t hread, ha.bytes t htag, ha.known t htag⟩

/-- A window is filled, the file is written, and the next read fills the window again. -/
theorem reads_see_changes_refilled :
    ∃ s, Runs.exec (step ⟨8, 8, 8⟩) (opened oneFile (fun _ => [1, 1, 1, 1, 1, 1, 1, 1]) 1)
        [.read "/f" 0 2, .serveFill 0 plenty, .install 0, .sent 0,
          .change "/f" (.write 0 [2, 2]), .serveChange 1, .complete 1, .sent 1,
          .read "/f" 0 2, .serveFill 2 plenty, .install 2, .sent 2] = some s ∧
      (∀ p ∈ s.replies, s.SeesChanges p) ∧ s.replies.map (·.answer.bytes) = [[1, 1], [2, 2]] :=
  Runs.exists_exec rfl fun hs => ⟨reads_see_changes _ _ _ _ _ _ (by decide) hs, by decide⟩

/-- **A fill that straddles a write brings back what was there before it.**  The daemon serves a
fill and then a write; the answer to the write arrives first and is sent on; the fill is installed;
a read that arrives now is answered out of it. -/
theorem straddling_fill_hides_write :
    ¬ ∀ (o : ExportOptions) (names : String → Option ℕ) (contents : ℕ → List UInt8) (n : ℕ)
        (evs : List Event) (s : Gateway),
        Runs.exec (step o) (opened names contents n) evs = some s →
          ∀ p ∈ s.replies, s.SeesChanges p := by
  intro hall
  have h := hall ⟨8, 8, 8⟩ oneFile (fun _ => [1, 1, 1, 1, 1, 1, 1, 1]) 1
    [.read "/f" 0 2, .serveFill 0 plenty,
      .change "/f" (.write 0 [2, 2]), .serveChange 1, .complete 1, .sent 1,
      .install 0, .sent 0, .read "/f" 0 2, .sent 2] _ rfl
  exact absurd h (by decide)

end Gateway
end Rail.Nfs
