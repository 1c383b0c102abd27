import Rail.Transport.Offers

/-!
# Pages and their receives

What every step does to the invariant of `Transport/Offers.lean`, and what follows for whole runs.

A receive takes a free slot and puts it into a record; a page takes the slot of the record that it
follows; a receive that finds its page puts the slot back.  Without a failure nothing is lost, so
that each slot is in exactly one stage, the record in the ring is the one its completion tells of,
and the page of a receive holds what was sent under its key.

A receive that gives up puts its slot back while the record is still with the peer.  The peer may
follow it later, and writes into a page that belongs to someone else by then.  This does not happen
where no rail is up when it gives up.
-/

namespace Rail.Transport.Rdma

open List Option Function Wire

variable {j k page rail : ℕ} {c : Cts} {key : UInt64} {posted : Bool}

namespace State

/-- A receive is added. -/
def enrol (s : State) (free : List ℕ) (r : Receive) : State :=
  { s with free, receives := s.receives ++ [r] }

/-- A page is sent. -/
def log (s : State) (e : Sent) : State := { s with sends := s.sends ++ [e] }

/-! ## The end of a receive -/

section Finishing

variable {s : State} {k : ℕ} {r : Receive} {e : Ending}

theorem receives_finishWith_ne (hne : k ≠ j) : (s.finishWith k r e).receives[j]? = s.receives[j]? :=
  getElem?_modify_ne _ s.receives hne

theorem receives_finishWith_self (hr : s.receives[k]? = some r) :
    (s.finishWith k r e).receives[k]? = some { r with ending := some e } := by
  rw [finishWith, getElem?_modify_eq, hr]
  rfl

/-- One that still waits is another. -/
theorem waits_finishWith (hr : s.receives[k]? = some r) {q : Receive}
    (hq : (s.finishWith k r e).receives[j]? = some q) (hnone : q.ending = none) :
    k ≠ j ∧ s.receives[j]? = some q := by
  by_cases hj : k = j
  · subst hj
    rw [receives_finishWith_self hr] at hq
    cases hq
    cases hnone
  · exact ⟨hj, (receives_finishWith_ne hj).symm.trans hq⟩

/-- The slot goes from done to free. -/
theorem total_finishWith (hdone : s.done r.slot = true) (n : ℕ) :
    (s.finishWith k r e).total n = s.total n := by
  have heq := total_free_done s (r.slot :: s.free) (Function.update s.done r.slot false) n
  have hsame : (s.finishWith k r e).total n =
    State.total { s with free := r.slot :: s.free, done := Function.update s.done r.slot false }
    n := rfl
  rw [count_cons] at heq
  by_cases hn : n = r.slot
  · subst hn
    rw [update_self, hdone] at heq
    simp only [beq_self_eq_true, if_true, Bool.toNat_true, Bool.toNat_false] at heq
    omega
  · rw [update_of_ne hn] at heq
    simp only [beq_iff_eq, Ne.symm hn, if_false] at heq
    omega

end Finishing

/-! ## One step -/

variable {r : Receive}

/-- A receive whose slot has a place is not that of a record whose slot has none. -/
theorem Recorded.owner_ne {s : State} (hc : s.Recorded c) (hnone : s.total c.slot = 0)
    (hr : s.receives[j]? = some r) {a : Stage} (ha : 0 < s.count r.slot a) : c.owner ≠ j := by
  rintro rfl
  obtain ⟨q, hq, -, hslot, -⟩ := hc
  obtain rfl := mem_unique hr hq
  rw [hslot] at ha
  unfold total at hnone
  cases a <;> omega

namespace Sound

variable {slots : ℕ} {s t : State} {i : ℕ} {l : Line}

section

variable (h : Sound slots s)
include h

/-- The record that a completion tells of has its slot. -/
theorem count_ring (hk : k ∈ s.noted) : 0 < s.count (s.ring k).slot .noted := by
  rw [(h.noted k hk).1]
  exact count_pos_of_noted hk

theorem nodup_free : s.free.Nodup := by
  refine nodup_iff_count_le_one.mpr fun k => ?_
  have hone := h.one k
  have hfree : s.count k .free = s.free.count k := rfl
  unfold total at hone
  omega

/-- A receive is added that has no slot of its own yet. -/
theorem add {free : List ℕ} (hfree : free.Sublist s.free)
    (hr : r.ending = none → r.slot ∉ free ∧ s.lent r.page = false ∧ r.slot ∈ s.free)
    (hend : ∀ bytes, r.ending ≠ some (.landed bytes)) : Sound slots (s.enrol free r) := by
  have hnew : ∀ {j : ℕ} {q : Receive}, s.receives[j]? = some q → q.ending = none → r.ending = none →
      q.slot ≠ r.slot ∧ q.page ≠ r.page := by
    intro j q hq hqnone hnone
    have hmem := mem_of_getElem? hq
    obtain ⟨-, hlent, hin⟩ := hr hnone
    refine ⟨fun heq => h.taken q hmem hqnone (heq ▸ hin), fun heq => ?_⟩
    exact Bool.false_ne_true
      (hlent.symm.trans (List.any_eq_true.mpr ⟨q, hmem, by simp [hqnone, heq]⟩))
  have hrecorded : ∀ {c}, s.Recorded c → (s.enrol free r).Recorded c :=
    fun ⟨q, hq, hrest⟩ => ⟨q, Modify.getElem?_concat hq r, hrest⟩
  have harrived : ∀ {k}, s.Arrived k → (s.enrol free r).Arrived k :=
    fun ⟨j, q, hq, hrest⟩ => ⟨j, q, Modify.getElem?_concat hq r, hrest⟩
  have htotal : ∀ k, (s.enrol free r).total k ≤ s.total k := by
    intro k
    have hle : free.count k ≤ s.free.count k := hfree.count_le k
    have heq := total_free_done (s := s) free s.done k
    have hsame : (s.enrol free r).total k = State.total { s with free, done := s.done } k :=
      rfl
    omega
  exact {
    one := fun k => (h.le_total (htotal k)).1
    bound := fun k => (h.le_total (htotal k)).2
    offered := fun c hc => (h.offered c hc).imp_left hrecorded
    noted := fun k hk => (h.noted k hk).imp_right (.imp_left hrecorded)
    held := fun c hc => (h.held c hc).imp_left hrecorded
    sent := fun p hp => (h.sent p hp).imp_left hrecorded
    landed := fun k hk => harrived (h.landed k hk)
    done := fun k hk => harrived (h.done k hk)
    apart := by
      intro i j q q' hq hq' hnone hnone' hne
      rcases Modify.of_getElem?_concat hq with hqs | ⟨hi, hqr⟩
      · rcases Modify.of_getElem?_concat hq' with hqs' | ⟨-, hqr'⟩
        · exact h.apart i j q q' hqs hqs' hnone hnone' hne
        · subst hqr'
          exact hnew hqs hnone hnone'
      · rcases Modify.of_getElem?_concat hq' with hqs' | ⟨hj, -⟩
        · subst hqr
          exact (hnew hqs' hnone' hnone).imp .symm .symm
        · exact absurd (hi.trans hj.symm) hne
    taken := forall_mem_append.mpr ⟨fun q hq hnone hin => h.taken q hq hnone (hfree.subset hin),
      forall_mem_singleton.mpr fun hnone => (hr hnone).1⟩
    returned := by
      intro j q bytes hq hlanded
      rcases Modify.of_getElem?_concat hq with hq | ⟨-, rfl⟩
      · exact h.returned j q bytes hq hlanded
      · exact absurd hlanded (hend bytes)
    logged := fun e he => by
      rw [State.enrol, length_append]
      exact Nat.lt_add_right _ (h.logged e he) }

/-- A write goes out on a rail for a slot that is nowhere.  A rail that is down drops it. -/
theorem put (hl : s.lines[i]? = some l) {f : Line → Line} {slot : ℕ} (hnone : s.total slot = 0)
    (hlt : slot < slots) (hslots : ∀ k, (f l).slots k = l.slots k + if l.up = true ∧
      slot = k then 1 else 0) (hoffered : ∀ c ∈ (f l).offers, c ∈ l.offers ∨ s.Fresh c)
      (hnoted : (f l).noted = l.noted)
    (hsent : ∀ p ∈ (f l).pages, p ∈ l.pages ∨ s.Underway p) (hlanded : (f l).landed = l.landed) :
    Sound slots (s.onLine i f) ∧
      ∀ k, (s.onLine i f).total k = s.total k + if l.up = true ∧ slot = k then 1 else 0 := by
  have htotal : ∀ k, (s.onLine i f).total k = s.total k + if l.up = true ∧
      slot = k then 1 else 0 := by
    intro k
    have heq := total_onLine hl f k
    have hline := hslots k
    omega
  refine ⟨h.reline hl (fun k => ?_) hoffered (fun k hk => .inl (hnoted ▸ hk)) hsent fun k hk =>
    .inl (hlanded ▸ hk), htotal⟩
  rw [htotal k]
  split_ifs with hk
  · rw [← hk.2, hnone]
    exact ⟨le_rfl, fun _ => hlt⟩
  · exact ⟨h.one k, h.bound k⟩

/-- A record goes out for a slot that is nowhere. -/
theorem postThere (hc : s.Fresh c) (hnone : s.total c.slot = 0) (hlt : c.slot < slots)
    (hl : s.lines[i]? = some l) : Sound slots (s.onLine i (.postThere (some c))) ∧
      ∀ k, (s.onLine i (.postThere (some c))).total k = s.total k + if l.up = true ∧
      c.slot = k then 1 else 0 := by
  obtain ⟨hoffers, hnoted, hpages, hlanded⟩ := l.postThere_lists (some c)
  refine h.put hl hnone hlt (fun k => ?_) (fun c' hc' => ?_) hnoted (fun p hp =>
    .inl (hpages ▸ hp)) hlanded
  · rw [Line.slots, Line.offeredSlots, Line.sentSlots, hoffers, hnoted, hpages, hlanded]
    cases hup : l.up <;> simp [Line.slots, Line.offeredSlots, Line.sentSlots, count_singleton]
    omega
  · rw [hoffers, mem_append] at hc'
    refine hc'.imp_right fun hc' => ?_
    split_ifs at hc'
    · exact mem_singleton.mp hc' ▸ hc
    · cases hc'

/-- A page goes out for a slot that is nowhere. -/
theorem postBack {p : Cts × Bytes} (hp : s.Underway p) (hnone : s.total p.1.slot = 0)
    (hlt : p.1.slot < slots) (hl : s.lines[i]? = some l) :
    Sound slots (s.onLine i (.postBack (some p))) ∧ ∀ k, (s.onLine i (.postBack (some p))).total k =
    s.total k + if l.up = true ∧ p.1.slot = k then 1 else 0 := by
  obtain ⟨hoffers, hnoted, hpages, hlanded⟩ := l.postBack_lists (some p)
  refine h.put hl hnone hlt (fun k => ?_) (fun c hc => .inl (hoffers ▸ hc)) hnoted (fun q hq =>
    ?_) hlanded
  · rw [Line.slots, Line.offeredSlots, Line.sentSlots, hoffers, hnoted, hpages, hlanded]
    cases hup : l.up <;> simp [Line.slots, Line.offeredSlots, Line.sentSlots, count_singleton]
    omega
  · rw [hpages, mem_append] at hq
    refine hq.imp_right fun hq => ?_
    split_ifs at hq
    · exact mem_singleton.mp hq ▸ hp
    · cases hq

/-- A receive takes the slot that is first in line. -/
theorem enrol {slot : ℕ} {rest : List ℕ} (hfree : s.free = slot :: rest) (hslot : r.slot = slot)
    (hnone : r.ending = none) (hlent : s.lent r.page = false) :
    Sound slots (s.enrol rest r) ∧ ∀ k, (s.enrol rest r).total k + (if slot = k then 1 else 0) =
    s.total k := by
  have htotal : ∀ k, (s.enrol rest r).total k + (if slot = k then 1 else 0) = s.total k := by
    intro k
    have heq := total_free_done s rest s.done k
    have hsame : (s.enrol rest r).total k = State.total { s with free := rest, done := s.done } k :=
      rfl
    rw [hfree, count_cons] at heq
    simp only [beq_iff_eq] at heq
    omega
  have hin : slot ∈ s.free := hfree ▸ mem_cons_self
  have hout : slot ∉ rest := by
    have hcount := nodup_iff_count_le_one.mp h.nodup_free slot
    rw [hfree, count_cons_self] at hcount
    exact count_eq_zero.mp (by omega)
  subst hslot
  refine ⟨h.add (hfree ▸ sublist_cons_self _ rest) (fun _ => ⟨hout, hlent, hin⟩) fun bytes =>
    ?_, htotal⟩
  rw [hnone]
  exact (some_ne_none _).symm

theorem recv {length : ℕ} (hstep : s.recv key length page rail posted = some t) :
    Sound slots t ∧ (posted = true → (∀ l ∈ s.lines, l.up = true) →
      ∀ k, t.total k = s.total k) := by
  rw [State.recv] at hstep
  cases hfree : s.free with
  | nil => simp [hfree] at hstep
  | cons slot rest =>
    rw [hfree] at hstep
    obtain ⟨⟨hlent, hrail⟩, hstep⟩ := ite_none_right_eq_some.mp hstep
    have hin : slot ∈ s.free := hfree ▸ mem_cons_self
    cases posted with
    | false =>
      cases hstep
      have hkeep : (slot :: rest).Sublist s.free := hfree ▸ .refl (slot :: rest)
      exact ⟨h.add (r := ⟨key, length, page, slot, some .failed⟩) hkeep nofun nofun, nofun⟩
    | true =>
      cases hstep
      obtain ⟨henrol, htotal⟩ := h.enrol (r := ⟨key, length, page, slot, none⟩) hfree rfl rfl hlent
      have hzero : (s.enrol rest ⟨key, length, page, slot, none⟩).total slot = 0 := by
        have heq := htotal slot
        have hone := h.one slot
        rw [if_pos rfl] at heq
        omega
      have hfresh : (s.enrol rest ⟨key, length, page, slot, none⟩).Fresh ⟨key, page, length, slot,
          s.receives.length⟩ := by
        refine ⟨⟨⟨key, length, page, slot, none⟩, getElem?_concat_length, rfl, rfl, rfl, rfl, rfl⟩,
          ?_⟩
        refine filter_eq_nil_iff.mpr fun e he => ?_
        have hlt := h.logged e he
        simp only [decide_eq_true_eq]
        omega
      have hdone : s.done slot = false := by
        refine Bool.eq_false_iff.mpr fun hdone => ?_
        exact h.alone (a := .free) (b := .done) nofun (count_pos_of_free hin)
          (count_pos_of_done hdone)
      have hsame : Function.update s.done slot false = s.done := by rw [← hdone, update_eq_self]
      obtain ⟨l, hl⟩ : ∃ l, s.lines[rail]? = some l := ⟨_, getElem?_eq_getElem hrail⟩
      have hposted := henrol.postThere hfresh hzero (h.lt_slots (count_pos_of_free hin)) hl
      rw [hsame]
      refine ⟨hposted.1, fun _ hup k => (hposted.2 k).trans ?_⟩
      rw [hup l (mem_of_getElem? hl)]
      simp only [true_and]
      exact htotal k

/-- A record that the peer holds is taken out. -/
theorem drop {before after : List Cts} (hheld : s.held = before ++ c :: after) :
    Sound slots { s with held := before ++ after } ∧
      ∀ k, State.total { s with held := before ++ after } k + (if c.slot = k then 1 else 0) =
      s.total k := by
  have htotal : ∀ k, State.total { s with held := before ++ after } k +
      (if c.slot = k then 1 else 0) = s.total k := by
    intro k
    have heq := total_held s (before ++ after) k
    simp only [hheld, map_append, map_cons, count_append, count_cons, beq_iff_eq] at heq
    omega
  refine ⟨h.moved rfl rfl rfl rfl (fun k => h.le_total ?_) h.offered h.noted (fun c' hc' =>
    h.held c' ?_) h.sent h.landed h.done, htotal⟩
  · have heq := htotal k
    omega
  · rw [hheld]
    rcases mem_append.mp hc' with hc' | hc'
    · exact mem_append_left _ hc'
    · exact mem_append_right _ (mem_cons_of_mem _ hc')

/-- A page is sent for a record whose slot is nowhere. -/
theorem log (hc : s.Fresh c) (hnone : s.total c.slot = 0) (bytes : Bytes) :
    Sound slots (s.log ⟨c.owner, c.key, bytes⟩) ∧
      (s.log ⟨c.owner, c.key, bytes⟩).sendsTo c.owner = [⟨c.owner, c.key, bytes⟩] := by
  have hto : ∀ j, (s.log ⟨c.owner, c.key, bytes⟩).sendsTo j =
      s.sendsTo j ++ if c.owner = j then [⟨c.owner, c.key, bytes⟩] else [] := fun j => by
    simp only [sendsTo, State.log, filter_append, filter_cons, filter_nil, decide_eq_true_eq]
  have hother : ∀ {j}, c.owner ≠ j → (s.log ⟨c.owner, c.key, bytes⟩).sendsTo j =
      s.sendsTo j := fun {j} hne => by rw [hto, if_neg hne, append_nil]
  -- Whatever has a place has another slot, and so another receive.
  have howner : ∀ {c'}, s.Recorded c' → (∃ a, 0 < s.count c'.slot a) → c.owner ≠ c'.owner := by
    rintro c' ⟨r, hr, -, hslot, -⟩ ⟨a, ha⟩
    exact hc.1.owner_ne hnone hr (hslot ▸ ha)
  have hfresh : ∀ {c'}, s.Fresh c' → (∃ a, 0 < s.count c'.slot a) →
      (s.log ⟨c.owner, c.key, bytes⟩).Fresh c' :=
    fun hc' hpos => ⟨hc'.1, (hother (howner hc'.1 hpos)).trans hc'.2⟩
  have harrived : ∀ {k}, s.Arrived k → (∃ a, 0 < s.count k a) →
      (s.log ⟨c.owner, c.key, bytes⟩).Arrived k := by
    rintro k ⟨j, r, hr, hending, rfl, sent, hsent, hrest⟩ ⟨a, ha⟩
    exact ⟨j, r, hr, hending, rfl, sent, (hother (hc.1.owner_ne hnone hr ha)).trans hsent, hrest⟩
  refine ⟨?_, by rw [hto, if_pos rfl, hc.2, nil_append]⟩
  exact {
    one := h.one
    bound := h.bound
    offered := fun c' hc' => hfresh (h.offered c' hc') ⟨_, count_pos_of_offers hc'⟩
    noted := fun k hk => by
      obtain ⟨hslot, hring⟩ := h.noted k hk
      exact ⟨hslot, hfresh hring ⟨.noted, h.count_ring hk⟩⟩
    held := fun c' hc' => hfresh (h.held c' hc') ⟨_, count_pos_of_held hc'⟩
    sent := fun p hp => by
      obtain ⟨hrecorded, hfits, hsent⟩ := h.sent p hp
      exact ⟨hrecorded, hfits, (hother (howner hrecorded ⟨_, count_pos_of_pages hp⟩)).trans hsent⟩
    landed := fun k hk => harrived (h.landed k hk) ⟨_, count_pos_of_landed hk⟩
    done := fun k hk => harrived (h.done k hk) ⟨_, count_pos_of_done hk⟩
    apart := h.apart
    taken := h.taken
    returned := by
      intro j r content hr hend
      obtain ⟨⟨sent, hsent, hrest⟩, hlength⟩ := h.returned j r content hr hend
      refine ⟨⟨sent, (hother fun heq => ?_).trans hsent, hrest⟩, hlength⟩
      obtain ⟨q, hq, hqnone, -⟩ := hc.1
      rw [heq] at hq
      obtain rfl := some.inj (Eq.trans (Eq.symm hr) hq)
      exact some_ne_none _ (hend.symm.trans hqnone)
    logged := by
      obtain ⟨q, hq, -⟩ := hc.1
      exact forall_mem_append.mpr ⟨h.logged,
        forall_mem_singleton.mpr (List.getElem?_eq_some_iff.mp hq).1⟩ }

theorem send {bytes : Bytes} (hstep : s.send key bytes rail posted = some t) :
    Sound slots t ∧ (posted = true →
      (∀ c, s.held.find? (fun c => c.key = key) = some c → bytes.length ≤ c.length) →
      (∀ l ∈ s.lines, l.up = true) → ∀ k, t.total k = s.total k) := by
  obtain ⟨hrail, hstep⟩ := ite_none_right_eq_some.mp hstep
  obtain ⟨c, hfind, rfl⟩ := map_eq_some_iff.mp hstep
  obtain ⟨before, after, hheld, herase⟩ := Modify.split_of_find hfind
  obtain rfl : c.key = key := by simpa using find?_some hfind
  have hmem : c ∈ s.held := mem_of_find?_eq_some hfind
  have hdrop := h.drop hheld
  rw [herase]
  split_ifs with hfits
  · have hzero : State.total { s with held := before ++ after } c.slot = 0 := by
      have heq := hdrop.2 c.slot
      have hone := h.one c.slot
      rw [if_pos rfl] at heq
      omega
    obtain ⟨hlog, hto⟩ := hdrop.1.log (c := c) (h.held c hmem) hzero bytes
    obtain ⟨l, hl⟩ : ∃ l, s.lines[rail]? = some l := ⟨_, getElem?_eq_getElem hrail⟩
    have hposted := hlog.postBack (p := (c, bytes)) ⟨(h.held c hmem).1, hfits.1, hto⟩ hzero
      (h.lt_slots (count_pos_of_held hmem)) hl
    refine ⟨hposted.1, fun _ _ hup k => (hposted.2 k).trans ?_⟩
    rw [hup l (mem_of_getElem? hl)]
    simp only [true_and]
    exact hdrop.2 k
  · exact ⟨hdrop.1, fun hposted hall => absurd ⟨hall c hfind, hposted⟩ hfits⟩

/-- What has come for a slot is in the page of the receive that has it. -/
theorem filled (hr : s.receives[k]? = some r) (hnone : r.ending = none)
    (harrived : s.Arrived r.slot) : s.Filled k r (s.memory r.page) := by
  obtain ⟨j, q, hq, hqnone, hqslot, hfill⟩ := harrived
  have hjk : j = k := by
    by_contra hne
    exact (h.apart j k q r hq hr hqnone hnone hne).1 hqslot
  subst hjk
  obtain rfl := mem_unique hr hq
  exact hfill

/-- A receive whose slot is done returns. -/
theorem finishWith {e : Ending} (hr : s.receives[k]? = some r) (hnone : r.ending = none)
    (hdone : s.done r.slot = true) (he : ∀ content, e = .landed content → s.Filled k r content ∧
      content.length ≤ r.length) :
    Sound slots (s.finishWith k r e) := by
  have hpos := count_pos_of_done hdone
  have htotal := total_finishWith (k := k) (e := e) hdone
  -- The slot of the receive is done, so that nothing else that has a place is of this receive.
  have hrecorded : ∀ {c} {a}, s.Recorded c → a ≠ .done → 0 < s.count c.slot a →
      (s.finishWith k r e).Recorded c := by
    rintro c a ⟨q, hq, hqnone, hslot, hrest⟩ ha hcount
    refine ⟨q, (receives_finishWith_ne fun heq => ?_).trans hq, hqnone, hslot, hrest⟩
    rw [← heq] at hq
    obtain rfl := mem_unique hr hq
    rw [← hslot] at hcount
    exact h.alone ha hcount hpos
  have harrived : ∀ {n}, s.Arrived n → n ≠ r.slot → (s.finishWith k r e).Arrived n := by
    rintro n ⟨j, q, hq, hqnone, rfl, hfill⟩ hne
    refine ⟨j, q, (receives_finishWith_ne fun heq => ?_).trans hq, hqnone, rfl, hfill⟩
    rw [← heq] at hq
    obtain rfl := mem_unique hr hq
    exact hne rfl
  exact {
    one := fun n => (h.le_total (htotal n).le).1
    bound := fun n => (h.le_total (htotal n).le).2
    offered := fun c hc => (h.offered c hc).imp_left fun hc' =>
      hrecorded hc' (a := .offered) nofun (count_pos_of_offers hc)
    noted := fun n hn => by
      obtain ⟨hslot, hfresh⟩ := h.noted n hn
      exact ⟨hslot, hrecorded hfresh.1 (a := .noted) nofun (h.count_ring hn), hfresh.2⟩
    held := fun c hc => (h.held c hc).imp_left fun hc' =>
      hrecorded hc' (a := .held) nofun (count_pos_of_held hc)
    sent := fun p hp => (h.sent p hp).imp_left fun hp' =>
      hrecorded hp' (a := .sent) nofun (count_pos_of_pages hp)
    landed := fun n hn => harrived (h.landed n hn) fun heq =>
      h.alone (a := .landed) (b := .done) nofun (count_pos_of_landed hn) (heq ▸ hpos)
    done := fun n hn => by
      have hset : Function.update s.done r.slot false n = true := hn
      have hne : n ≠ r.slot := by
        rintro rfl
        rw [update_self] at hset
        exact Bool.false_ne_true hset
      rw [update_of_ne hne] at hset
      exact harrived (h.done n hset) hne
    apart := fun i j q q' hq hq' hqnone hqnone' hne =>
      h.apart i j q q' (waits_finishWith hr hq hqnone).2 (waits_finishWith hr hq' hqnone').2 hqnone
        hqnone' hne
    taken := by
      intro q hq hqnone hin
      obtain ⟨j, hj⟩ := mem_iff_getElem?.mp hq
      obtain ⟨hne, hqs⟩ := waits_finishWith hr hj hqnone
      rcases mem_cons.mp hin with hslot | hin
      · exact (h.apart j k q r hqs hr hqnone hnone hne.symm).1 hslot
      · exact h.taken q (mem_of_getElem? hqs) hqnone hin
    returned := by
      intro j q content hq hend
      by_cases hj : k = j
      · subst hj
        rw [receives_finishWith_self hr] at hq
        cases hq
        exact he content (some.inj hend)
      · exact h.returned j q content ((receives_finishWith_ne hj).symm.trans hq) hend
    logged := fun e' he' => by
      rw [State.finishWith, length_modify]
      exact h.logged e' he' }

theorem finish (hstep : s.finish k = some t) : Sound slots t ∧ ∀ n, t.total n = s.total n := by
  obtain ⟨r, hr, hstep⟩ := bind_eq_some_iff.mp hstep
  obtain ⟨⟨hnone, hdone⟩, hstep⟩ := ite_none_right_eq_some.mp hstep
  cases hstep
  refine ⟨h.finishWith hr hnone hdone fun content hcontent => ?_, total_finishWith hdone⟩
  obtain rfl := Ending.landed.inj hcontent
  obtain ⟨bytes, hto, hfits, htake⟩ := h.filled hr hnone (h.done r.slot hdone)
  refine ⟨⟨bytes, hto, hfits, ?_⟩, length_take_le _ _⟩
  rw [take_take, min_eq_left hfits, htake]

/-- Someone writes into a page of their own. -/
theorem fill (bytes : Bytes) (hlent : s.lent page = false) : Sound slots (s.stored page bytes) := by
  refine h.written page bytes fun j r hr hnone _ _ hpage => ?_
  refine Bool.false_ne_true (hlent.symm.trans (List.any_eq_true.mpr ⟨r, mem_of_getElem? hr, ?_⟩))
  simp [hnone, hpage]

end

end Sound

/-- A step that fails nothing: every write is posted, a page fits the room it is offered, no
completion has an error, and no receive gives up. -/
def calm (s : State) : Event → Bool
  | .recv _ _ _ _ posted => posted
  | .send key bytes _ posted =>
    posted && (s.held.find? fun c => c.key = key).all fun c => decide (bytes.length ≤ c.length)
  | .giveUp _ _ | .error _ => false
  | _ => true

variable {slots rails : ℕ} {s t : State} {e : Event}

/-- Every step but that of a receive that gives up keeps the invariant, and where nothing fails no
slot is lost. -/
theorem Sound.step (h : Sound slots s) (hstep : s.step slots e = some t)
    (hkeep : ∀ k armed, e ≠ .giveUp k armed) :
    Sound slots t ∧ (s.calm e = true → (∀ l ∈ s.lines, l.up = true) →
      ∀ k, t.total k = s.total k) := by
  cases e with
  | recv key length page rail posted => exact h.recv hstep
  | send key bytes rail posted =>
    obtain ⟨hsound, htotal⟩ := h.send hstep
    refine ⟨hsound, fun hcalm => ?_⟩
    obtain ⟨hposted, hall⟩ := Bool.and_eq_true_iff.mp hcalm
    refine htotal hposted fun c hc => ?_
    rw [hc] at hall
    exact of_decide_eq_true hall
  | toPeer i => exact (h.toPeer hstep).imp_right fun htotal _ _ => htotal
  | toHere i => exact (h.toHere hstep).imp_right fun htotal _ _ => htotal
  | pollPeer i => exact (h.pollPeer hstep).imp_right fun htotal _ _ => htotal
  | poll i => exact (h.poll hstep).imp_right fun htotal _ _ => htotal
  | finish k => exact (h.finish hstep).imp_right fun htotal _ _ => htotal
  | giveUp k armed => exact absurd rfl (hkeep k armed)
  | foreignThere i =>
    cases hstep
    exact (h.foreignThere i).imp_right fun htotal _ _ => htotal
  | foreignBack i =>
    cases hstep
    exact (h.foreignBack i).imp_right fun htotal _ _ => htotal
  | fill page bytes =>
    obtain ⟨hlent, hstep⟩ := ite_none_left_eq_some.mp hstep
    cases hstep
    exact ⟨h.fill bytes (Bool.eq_false_iff.mpr hlent), fun _ _ _ => rfl⟩
  | error i =>
    cases hstep
    exact ⟨h.error i, nofun⟩
  | close | vanish =>
    cases hstep
    exact ⟨{ h with }, fun _ _ _ => rfl⟩

end State

/-! ## The rails -/

namespace Line

/-- A rail that is down has nothing on its way. -/
def Quiet (l : Line) : Prop := l.up = false → l.there = [] ∧ l.back = []

/-- The rail stays up or down, and quiet. -/
structure Follows (l l' : Line) : Prop where
  up : l'.up = l.up
  quiet : l.Quiet → l'.Quiet

theorem Follows.refl (l : Line) : l.Follows l := ⟨rfl, id⟩

theorem follows_postThere (l : Line) (w : Option Cts) : l.Follows (l.postThere w) := by
  rw [postThere]
  split_ifs with hup
  · exact ⟨rfl, fun _ hdown => Bool.noConfusion (hup.symm.trans hdown)⟩
  · exact .refl l

theorem follows_postBack (l : Line) (w : Option (Cts × Bytes)) : l.Follows (l.postBack w) := by
  rw [postBack]
  split_ifs with hup
  · exact ⟨rfl, fun _ hdown => Bool.noConfusion (hup.symm.trans hdown)⟩
  · exact .refl l

end Line

namespace State

variable {slots rails : ℕ} {s t : State} {e : Event}

/-- Every rail follows from one that was there. -/
def Follows (s t : State) : Prop := ∀ l' ∈ t.lines, ∃ l ∈ s.lines, l.Follows l'

theorem Follows.of_eq (h : t.lines = s.lines) : s.Follows t := fun l hl => ⟨l, h ▸ hl, .refl l⟩

variable {i : ℕ}

theorem Follows.onLine {f : Line → Line} (ht : t.lines = s.lines.modify i f)
    (hf : ∀ l, s.lines[i]? = some l → l.Follows (f l)) : s.Follows t := by
  intro l' hl'
  have hmem : l' ∈ (s.onLine i f).lines := by rwa [ht] at hl'
  cases hl : s.lines[i]? with
  | none =>
    rw [onLine_of_none hl] at hmem
    exact ⟨l', hmem, .refl l'⟩
  | some l =>
    rcases Modify.mem_modify hl hmem with rfl | hmem
    · exact ⟨l, mem_of_getElem? hl, hf l hl⟩
    · exact ⟨l', hmem, .refl l'⟩

theorem follows_toPeer (hstep : s.toPeer i = some t) : s.Follows t := by
  obtain ⟨l, w, rest, hl, hthere, rfl⟩ := toPeer_eq_some hstep
  refine .onLine rfl fun l' hl' => ⟨rfl, fun hquiet hdown => ?_⟩
  obtain rfl := mem_unique hl hl'
  exact absurd (hthere.symm.trans (hquiet hdown).1) (cons_ne_nil w rest)

theorem follows_toHere (hstep : s.toHere i = some t) : s.Follows t := by
  obtain ⟨l, w, rest, hl, hback, rfl⟩ := toHere_eq_some hstep
  refine .onLine rfl fun l' hl' => ⟨rfl, fun hquiet hdown => ?_⟩
  obtain rfl := mem_unique hl hl'
  exact absurd (hback.symm.trans (hquiet hdown).2) (cons_ne_nil w rest)

theorem follows_recv {length : ℕ} (hstep : s.recv key length page rail posted = some t) :
    s.Follows t := by
  rw [State.recv] at hstep
  split at hstep
  · cases hstep
  · obtain ⟨-, hstep⟩ := ite_none_right_eq_some.mp hstep
    cases posted with
    | false => exact .of_eq (by rw [← some.inj hstep])
    | true =>
      cases hstep
      exact .onLine rfl fun l _ => l.follows_postThere _

theorem follows_send {bytes : Bytes} (hstep : s.send key bytes rail posted = some t) :
    s.Follows t := by
  obtain ⟨-, hstep⟩ := ite_none_right_eq_some.mp hstep
  obtain ⟨c, -, rfl⟩ := map_eq_some_iff.mp hstep
  split_ifs
  · exact .onLine rfl fun l _ => l.follows_postBack _
  · exact .of_eq rfl

section

variable (hstep : s.step slots e = some t)
include hstep

/-- Only an error takes a rail down, and nothing brings one up again. -/
theorem follows_step :
    ∀ l' ∈ t.lines, ∃ l ∈ s.lines, l.Follows l' ∨ s.calm e = false ∧ l' = l.fail := by
  have hleft : s.Follows t → ∀ l' ∈ t.lines, ∃ l ∈ s.lines, l.Follows l' ∨ s.calm e = false ∧
    l' = l.fail :=
    fun h l' hl' => (h l' hl').imp fun l => .imp_right .inl
  cases e with
  | recv key length page rail posted => exact hleft (follows_recv hstep)
  | send key bytes rail posted => exact hleft (follows_send hstep)
  | toPeer i => exact hleft (follows_toPeer hstep)
  | toHere i => exact hleft (follows_toHere hstep)
  | pollPeer i =>
    obtain ⟨l, note, rest, -, -, rfl⟩ := pollPeer_eq_some hstep
    exact hleft (.onLine rfl fun _ _ => ⟨rfl, id⟩)
  | poll i =>
    obtain ⟨l, note, rest, -, -, rfl⟩ := poll_eq_some hstep
    exact hleft (.onLine rfl fun _ _ => ⟨rfl, id⟩)
  | finish k | giveUp k armed =>
    obtain ⟨r, -, hstep⟩ := bind_eq_some_iff.mp hstep
    obtain ⟨-, hstep⟩ := ite_none_right_eq_some.mp hstep
    exact hleft (.of_eq (by rw [← some.inj hstep]; rfl))
  | foreignThere i =>
    cases hstep
    exact hleft (.onLine rfl fun l _ => l.follows_postThere none)
  | foreignBack i =>
    cases hstep
    exact hleft (.onLine rfl fun l _ => l.follows_postBack none)
  | fill page bytes =>
    obtain ⟨-, hstep⟩ := ite_none_left_eq_some.mp hstep
    exact hleft (.of_eq (by rw [← some.inj hstep]))
  | error i =>
    cases hstep
    intro l' hl'
    have hmem : l' ∈ (s.onLine i .fail).lines := hl'
    cases hl : s.lines[i]? with
    | none =>
      rw [onLine_of_none hl] at hmem
      exact ⟨l', hmem, .inl (.refl l')⟩
    | some l =>
      rcases Modify.mem_modify hl hmem with heq | hmem
      · exact ⟨l, mem_of_getElem? hl, .inr ⟨rfl, heq⟩⟩
      · exact ⟨l', hmem, .inl (.refl l')⟩
  | close | vanish => exact hleft (.of_eq (by rw [← some.inj hstep]))

theorem quiet_step (h : ∀ l ∈ s.lines, l.Quiet) : ∀ l ∈ t.lines, l.Quiet := by
  intro l' hl'
  obtain ⟨l, hl, hfollows | ⟨-, rfl⟩⟩ := follows_step hstep l' hl'
  · exact hfollows.quiet (h l hl)
  · exact fun _ => ⟨rfl, rfl⟩

theorem down_step (h : ∀ l ∈ s.lines, l.up = false) : ∀ l ∈ t.lines, l.up = false := by
  intro l' hl'
  obtain ⟨l, hl, hfollows | ⟨-, rfl⟩⟩ := follows_step hstep l' hl'
  · exact hfollows.up.trans (h l hl)
  · rfl

theorem up_step (hcalm : s.calm e = true) (h : ∀ l ∈ s.lines, l.up = true) :
    ∀ l ∈ t.lines, l.up = true := by
  intro l' hl'
  obtain ⟨l, hl, hfollows | ⟨hfail, -⟩⟩ := follows_step hstep l' hl'
  · exact hfollows.up.trans (h l hl)
  · exact Bool.noConfusion (hcalm.symm.trans hfail)

end

/-! ## Runs without a failure -/

/-- No slot is lost. -/
structure Full (slots : ℕ) (s : State) : Prop where
  sound : Sound slots s
  up : ∀ l ∈ s.lines, l.up = true
  all : ∀ k < slots, s.total k = 1

theorem Full.start (slots rails : ℕ) : Full slots (start slots rails) where
  sound := .start slots rails
  up := fun l hl => by rw [eq_of_mem_replicate hl]
  all := fun k hk => by
    have hle := (Sound.start slots rails).one k
    have hpos : 0 < (State.start slots rails).count k .free := count_pos_of_free (mem_range.mpr hk)
    unfold total at hle ⊢
    omega

theorem Full.step (h : Full slots s) (hcalm : s.calm e = true) (hstep : s.step slots e = some t) :
    Full slots t := by
  have hkeep : ∀ k armed, e ≠ .giveUp k armed := by
    rintro k armed rfl
    exact Bool.noConfusion hcalm
  obtain ⟨hsound, htotal⟩ := h.sound.step hstep hkeep
  exact ⟨hsound, up_step hstep hcalm h.up, fun k hk => (htotal hcalm h.up k).trans (h.all k hk)⟩

/-- A slot is in one stage and in no other. -/
theorem Full.stage (h : Full slots s) (hk : k < slots) :
    ∃ a, s.count k a = 1 ∧ ∀ b, b ≠ a → s.count k b = 0 := by
  have hall := h.all k hk
  obtain ⟨a, ha⟩ : ∃ a, 0 < s.count k a := by
    by_contra hnone
    have hzero : ∀ a, s.count k a = 0 := fun a => Nat.eq_zero_of_not_pos fun hpos => hnone ⟨a, hpos⟩
    unfold total at hall
    simp [hzero] at hall
  refine ⟨a, ?_, fun b hb => Nat.eq_zero_of_not_pos fun hpos => h.sound.alone hb hpos ha⟩
  unfold total at hall
  cases a <;> omega

/-- A record that arrives is not written over one that is still to be copied. -/
theorem Sound.ring_toPeer (h : Sound slots s) (hstep : s.toPeer i = some t) (hk : k ∈ s.noted) :
    t.ring k = s.ring k := by
  obtain ⟨l, w, rest, hl, hthere, rfl⟩ := toPeer_eq_some hstep
  cases w with
  | none => rfl
  | some c =>
    have hoffer : c ∈ s.offers := mem_rail (g := Line.offers) hl (by simp [Line.offers, hthere])
    refine update_of_ne ?_ c s.ring
    rintro rfl
    exact h.alone (a := .offered) (b := .noted) Stage.noConfusion (count_pos_of_offers hoffer)
      (count_pos_of_noted hk)

/-- **Each slot is in one stage, each record is copied out as it was written, and each page is that
of its receive.** -/
theorem slots_pair_pages (slots rails : ℕ) (es : List Event) (s : State)
    (hcalm : Runs.Meets (step slots) (fun s e => s.calm e = true) (start slots rails) es)
    (hrun : Runs.exec (step slots) (start slots rails) es = some s) :
    (∀ k < slots, ∃ a, s.count k a = 1 ∧ ∀ b, b ≠ a → s.count k b = 0) ∧
      (∀ k ∈ s.noted, (s.ring k).slot = k ∧ s.Recorded (s.ring k) ∧
        ∀ i t, s.toPeer i = some t → t.ring k = s.ring k) ∧
      ∀ (j : ℕ) (r : Receive) (bytes : Bytes), s.receives[j]? = some r →
      r.ending = some (.landed bytes) → ∃ sent, s.sendsTo j = [⟨j, r.key, sent⟩] ∧
      (sent.length = r.length → bytes = sent) := by
  have hfull : Full slots s :=
    Runs.exec_invariant (I := Full slots) (fun h hok hstep => h.step hok hstep) (.start slots rails)
      hcalm hrun
  refine ⟨fun k hk => hfull.stage hk, fun k hk => ?_, fun j r bytes hr hend => ?_⟩
  · obtain ⟨hslot, hfresh⟩ := hfull.sound.noted k hk
    exact ⟨hslot, hfresh.1, fun i t hstep => hfull.sound.ring_toPeer hstep hk⟩
  · obtain ⟨⟨sent, hto, -, htake⟩, hlength⟩ := hfull.sound.returned j r bytes hr hend
    refine ⟨sent, hto, fun heq => ?_⟩
    rw [heq, take_of_length_le hlength] at htake
    exact htake

/-- Two rails: the second record overtakes the first, the slot of the first page is used again while
the second is on its way. -/
theorem slots_pair_pages_crossing :
    ∃ s, Runs.exec (step 2) (start 2 2)
      [.recv 7 2 0 0 true, .recv 8 1 1 1 true, .toPeer 1, .pollPeer 1, .send 8 [5] 0 true,
      .toPeer 0, .pollPeer 0, .send 7 [3, 4] 1 true, .toHere 1, .poll 1, .finish 0,
      .recv 9 1 0 0 true, .toPeer 0, .toHere 0, .poll 0, .finish 1] = some s ∧
      (∀ k < 2, ∃ a, s.count k a = 1 ∧ ∀ b, b ≠ a → s.count k b = 0) ∧
      ∃ r, s.receives[0]? = some r ∧ r.ending = some (.landed [3, 4]) ∧
      s.sendsTo 0 = [⟨0, 7, [3, 4]⟩] :=
  Runs.exists_exec rfl fun hs => ⟨(slots_pair_pages _ _ _ _ (by decide) hs).1, _, rfl, rfl, rfl⟩

/-! ## Runs with failures -/

/-- A write can still follow the record of the receive: it is on its way, told of, or with the peer,
or its page is on its way, and a rail is up. -/
def Honourable (s : State) (j : ℕ) : Prop :=
  (∃ l ∈ s.lines, l.up = true) ∧ ∃ c : Cts, c.owner = j ∧
    (c ∈ s.offers ∨ (∃ k ∈ s.noted, s.ring k = c) ∨ c ∈ s.held ∨ ∃ bytes, (c, bytes) ∈ s.pages)

/-- No record of a receive that has returned can be followed, and no write goes into a page that is
not lent. -/
structure Released (s : State) : Prop where
  records : ∀ (j : ℕ) (r : Receive), s.receives[j]? = some r → r.ending ≠ none → ¬ s.Honourable j
  pages : ∀ (i : ℕ) (t : State), s.toHere i = some t → ∀ page, t.memory page ≠ s.memory page →
    s.lent page = true

/-- A receive gives up only where no rail is up. -/
def patient (s : State) : Event → Bool
  | .giveUp _ _ => s.lines.all fun l => !l.up
  | _ => true

theorem Recorded.lent (h : s.Recorded c) : s.lent c.page = true := by
  obtain ⟨r, hr, hnone, -, -, -, hpage⟩ := h
  exact List.any_eq_true.mpr ⟨r, mem_of_getElem? hr, by simp [hnone, hpage]⟩

theorem Sound.recorded_of_honourable (h : Sound slots s) (hj : s.Honourable j) :
    ∃ c : Cts, c.owner = j ∧ s.Recorded c := by
  obtain ⟨-, c, hc, hplace⟩ := hj
  refine ⟨c, hc, ?_⟩
  rcases hplace with hoffer | ⟨k, hk, rfl⟩ | hheld | ⟨bytes, hpage⟩
  · exact (h.offered c hoffer).1
  · exact (h.noted k hk).2.1
  · exact (h.held c hheld).1
  · exact (h.sent _ hpage).1

theorem Sound.released (h : Sound slots s) : Released s where
  records := fun j r hr hend hj => by
    obtain ⟨c, rfl, q, hq, hnone, -⟩ := h.recorded_of_honourable hj
    obtain rfl := some.inj (Eq.trans (Eq.symm hr) hq)
    exact hend hnone
  pages := fun i t hstep page hchange => by
    obtain ⟨l, w, rest, hl, hback, rfl⟩ := toHere_eq_some hstep
    cases w with
    | none => exact absurd rfl hchange
    | some p =>
      have hlent := (h.sent p (mem_rail (g := Line.pages) hl (by simp [Line.pages, hback]))).1.lent
      by_cases hpage : page = p.1.page
      · exact hpage ▸ hlent
      · exact absurd (update_of_ne hpage _ s.memory) hchange

theorem released_of_down (hdown : ∀ l ∈ s.lines, l.up = false) (hquiet : ∀ l ∈ s.lines, l.Quiet) :
    Released s where
  records := fun j r _ _ ⟨⟨l, hl, hup⟩, _⟩ => Bool.noConfusion (hup.symm.trans (hdown l hl))
  pages := fun i t hstep => by
    obtain ⟨l, w, rest, hl, hback, -⟩ := toHere_eq_some hstep
    have hmem := mem_of_getElem? hl
    simp [(hquiet l hmem (hdown l hmem)).2] at hback

/-- Everything is in its place, or nothing can be written any more. -/
structure Calmed (slots : ℕ) (s : State) : Prop where
  quiet : ∀ l ∈ s.lines, l.Quiet
  sound : Sound slots s ∨ ∀ l ∈ s.lines, l.up = false

theorem Calmed.start (slots rails : ℕ) : Calmed slots (start slots rails) where
  quiet := fun l hl _ => by
    rw [eq_of_mem_replicate hl]
    exact ⟨rfl, rfl⟩
  sound := .inl (.start slots rails)

theorem Calmed.step (h : Calmed slots s) (hpatient : s.patient e = true)
    (hstep : s.step slots e = some t) : Calmed slots t := by
  refine ⟨quiet_step hstep h.quiet, ?_⟩
  rcases h.sound with hsound | hdown
  · by_cases hgive : ∃ k armed, e = .giveUp k armed
    · obtain ⟨k, armed, rfl⟩ := hgive
      refine .inr (down_step hstep fun l hl => ?_)
      simpa using List.all_eq_true.mp hpatient l hl
    · exact .inl (hsound.step hstep fun k armed heq => hgive ⟨k, armed, heq⟩).1
  · exact .inr (down_step hstep hdown)

theorem Calmed.released (h : Calmed slots s) : Released s :=
  h.sound.elim Sound.released fun hdown => released_of_down hdown h.quiet

/-- **Where a receive gives up only once no rail is up, a page that has been handed back is not
written.** -/
theorem returned_pages_are_released (slots rails : ℕ) (es : List Event) (s : State)
    (hpatient : Runs.Meets (step slots) (fun s e => s.patient e = true) (start slots rails) es)
    (hrun : Runs.exec (step slots) (start slots rails) es = some s) : Released s := by
  have hcalmed : Calmed slots s :=
    Runs.exec_invariant (I := Calmed slots) (fun h hok hstep => h.step hok hstep)
      (.start slots rails) hpatient hrun
  exact hcalmed.released

/-- The one rail fails while a record is with the peer, and the receive gives up. -/
theorem returned_pages_are_released_error :
    ∃ s, Runs.exec (step 1) (start 1 1)
      [.recv 7 1 0 0 true, .toPeer 0, .pollPeer 0, .error 0, .giveUp 0 true, .send 7 [3] 0 true] =
      some s ∧ (∃ r, s.receives[0]? = some r ∧ r.ending = some .failed) ∧ Released s :=
  Runs.exists_exec rfl fun hs => ⟨⟨_, rfl, rfl⟩, returned_pages_are_released _ _ _ _ (by decide) hs⟩

/-- After `close` the receive gives up and its page is someone else's; then the peer follows the
record. -/
theorem close_leaves_page_writable :
    ¬ ∀ (slots rails : ℕ) (es : List Event) (s : State),
    Runs.exec (step slots) (start slots rails) es = some s → Released s := by
  intro h
  have hreleased := h 1 1
    [.recv 7 1 0 0 true, .toPeer 0, .pollPeer 0, .close, .giveUp 0 true, .fill 0 [9],
    .send 7 [3] 0 true] _ rfl
  have hlent := hreleased.pages 0 _ rfl 0 (by decide)
  exact Bool.noConfusion hlent

end State
end Rail.Transport.Rdma
