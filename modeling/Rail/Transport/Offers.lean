import Rail.Transport.RdmaChannel
import Rail.Foundation.Modify
import Mathlib.Data.List.Nodup
import Mathlib.Data.List.ReduceOption
import Mathlib.Tactic.SplitIfs

/-!
# Offers and pages

The invariant of the RDMA channel: where a slot is, and whose page a record names.

A slot is in one stage at a time (`Stage`): free, in a record on its way, in a completion the peer
has not polled, in a record the peer holds, in a page on its way, in a completion this side has not
polled, or done.  Every step moves one slot from one stage to the next, so the stages of a slot add
up to one (`State.total`), and to less where a failing rail has lost a write.  As long as a slot is
in one of the middle stages its receive has not returned, and the record names the page of that
receive; what has arrived in the page was sent under its key.

All of this rests on a receive not returning before its slot has come round.  `giveUp` frees the
slot while the peer still has the record, unless no rail can carry a write any more.
-/

namespace Rail.Transport.Rdma

open List Option Function Wire

/-- Where a slot is. -/
inductive Stage where
  | free
  | offered
  | noted
  | held
  | sent
  | landed
  | done
  deriving DecidableEq

namespace Line

variable (l : Line)

def offers : List Cts := l.there.reduceOption

def noted : List ℕ := l.peerQueue.reduceOption

def pages : List (Cts × Bytes) := l.back.reduceOption

def landed : List ℕ := l.queue.reduceOption

/-- The slots of the records on their way, and of the pages. -/
def offeredSlots : List ℕ := l.offers.map Cts.slot

def sentSlots : List ℕ := l.pages.map fun p => p.1.slot

/-- How often a slot is on the rail. -/
def slots (k : ℕ) : ℕ :=
  l.offeredSlots.count k + l.noted.count k + l.sentSlots.count k + l.landed.count k

section Slots

variable {l : Line} (k : ℕ)

/-- What a write adds to the rail, where it is up. -/
theorem postThere_lists (l : Line) (w : Option Cts) :
    (l.postThere w).offers = l.offers ++ (if l.up then w.toList else []) ∧
    (l.postThere w).noted = l.noted ∧ (l.postThere w).pages = l.pages ∧
    (l.postThere w).landed = l.landed := by
  rw [postThere]
  split_ifs <;> simp [offers, noted, pages, landed, reduceOption_append, reduceOption_singleton]

theorem postBack_lists (l : Line) (w : Option (Cts × Bytes)) :
    (l.postBack w).offers = l.offers ∧ (l.postBack w).noted = l.noted ∧
      (l.postBack w).pages = l.pages ++ (if l.up then w.toList else []) ∧
      (l.postBack w).landed = l.landed := by
  rw [postBack]
  split_ifs <;> simp [offers, noted, pages, landed, reduceOption_append, reduceOption_singleton]

theorem slots_toPeer {w : Option Cts} {rest : List (Option Cts)} (h : l.there = w :: rest) :
    Line.slots { l with there := rest, peerQueue := l.peerQueue ++ [w.map Cts.slot] } k =
    l.slots k := by
  cases w <;> simp [slots, offeredSlots, offers, noted, sentSlots, pages, landed, h,
    reduceOption_append, count_cons]
  omega

theorem slots_toHere {w : Option (Cts × Bytes)} {rest : List (Option (Cts × Bytes))}
    (h : l.back = w :: rest) :
    Line.slots { l with back := rest, queue := l.queue ++ [w.map fun p => p.1.slot] } k =
    l.slots k := by
  cases w <;> simp [slots, offeredSlots, offers, noted, sentSlots, pages, landed, h,
    reduceOption_append, count_cons]
  omega

variable {rest : List (Option ℕ)}

theorem slots_pollPeer {note : Option ℕ} (h : l.peerQueue = note :: rest) :
    Line.slots { l with peerQueue := rest } k + note.toList.count k = l.slots k := by
  cases note <;> simp [slots, offeredSlots, offers, noted, sentSlots, pages, landed, h, count_cons]
  omega

theorem slots_poll {note : Option ℕ} (h : l.queue = note :: rest) :
    Line.slots { l with queue := rest } k + note.toList.count k = l.slots k := by
  cases note <;> simp [slots, offeredSlots, offers, noted, sentSlots, pages, landed, h, count_cons]
  omega

end Slots

end Line

namespace State

def offers (s : State) : List Cts := s.lines.flatMap Line.offers

def noted (s : State) : List ℕ := s.lines.flatMap Line.noted

def pages (s : State) : List (Cts × Bytes) := s.lines.flatMap Line.pages

def landed (s : State) : List ℕ := s.lines.flatMap Line.landed

/-- How often a slot is in a stage. -/
def count (s : State) (k : ℕ) : Stage → ℕ
  | .free => s.free.count k
  | .offered => (s.lines.flatMap Line.offeredSlots).count k
  | .noted => s.noted.count k
  | .held => (s.held.map Cts.slot).count k
  | .sent => (s.lines.flatMap Line.sentSlots).count k
  | .landed => s.landed.count k
  | .done => (s.done k).toNat

variable (s : State)

def total (k : ℕ) : ℕ :=
  s.count k .free + s.count k .offered + s.count k .noted + s.count k .held + s.count k .sent +
    s.count k .landed + s.count k .done

/-- The record is that of a receive that has not returned. -/
def Recorded (c : Cts) : Prop :=
  ∃ r, s.receives[c.owner]? = some r ∧ r.ending = none ∧ r.slot = c.slot ∧ r.key = c.key ∧
    r.length = c.length ∧
    r.page = c.page

def sendsTo (j : ℕ) : List Sent := s.sends.filter fun e => e.owner = j

/-- Nothing has been sent for it yet. -/
def Fresh (c : Cts) : Prop := s.Recorded c ∧ s.sendsTo c.owner = []

/-- One page was sent for the record, and it fits. -/
def Underway (p : Cts × Bytes) : Prop :=
  s.Recorded p.1 ∧ p.2.length ≤ p.1.length ∧ s.sendsTo p.1.owner = [⟨p.1.owner, p.1.key, p.2⟩]

/-- One page was sent to the receive, under its key, and what it holds begins with it. -/
def Filled (j : ℕ) (r : Receive) (content : Bytes) : Prop :=
  ∃ bytes, s.sendsTo j = [⟨j, r.key, bytes⟩] ∧ bytes.length ≤ r.length ∧
    content.take bytes.length = bytes

/-- The page of the receive that has the slot has come. -/
def Arrived (k : ℕ) : Prop :=
  ∃ j r, s.receives[j]? = some r ∧ r.ending = none ∧ r.slot = k ∧ s.Filled j r (s.memory r.page)

structure Sound (slots : ℕ) (s : State) : Prop where
  one : ∀ k, s.total k ≤ 1
  bound : ∀ k, 0 < s.total k → k < slots
  offered : ∀ c ∈ s.offers, s.Fresh c
  noted : ∀ k ∈ s.noted, (s.ring k).slot = k ∧ s.Fresh (s.ring k)
  held : ∀ c ∈ s.held, s.Fresh c
  sent : ∀ p ∈ s.pages, s.Underway p
  landed : ∀ k ∈ s.landed, s.Arrived k
  done : ∀ k, s.done k = true → s.Arrived k
  apart : ∀ (i j : ℕ) (r q : Receive), s.receives[i]? = some r → s.receives[j]? = some q →
    r.ending = none → q.ending = none → i ≠ j → r.slot ≠ q.slot ∧ r.page ≠ q.page
  taken : ∀ r ∈ s.receives, r.ending = none → r.slot ∉ s.free
  returned : ∀ (j : ℕ) (r : Receive) (bytes : Bytes), s.receives[j]? = some r →
    r.ending = some (.landed bytes) → s.Filled j r bytes ∧ bytes.length ≤ r.length
  logged : ∀ e ∈ s.sends, e.owner < s.receives.length

/-- A page has another content. -/
def stored (page : ℕ) (content : Bytes) : State :=
  { s with memory := Function.update s.memory page content }

/-! ## Counting slots -/

variable {c : Cts}

section Counting

variable {s t : State} {i k : ℕ} {l : Line} {f : Line → Line}

/-- What a step does to one rail it does to the sum. -/
theorem total_onLine (hl : s.lines[i]? = some l) (f : Line → Line) (k : ℕ) :
    (s.onLine i f).total k + l.slots k = s.total k + (f l).slots k := by
  have hoffered := Modify.count_flatMap_modify (f := f) (g := Line.offeredSlots) hl k
  have hnoted := Modify.count_flatMap_modify (f := f) (g := Line.noted) hl k
  have hsent := Modify.count_flatMap_modify (f := f) (g := Line.sentSlots) hl k
  have hlanded := Modify.count_flatMap_modify (f := f) (g := Line.landed) hl k
  simp only [total, count, State.noted, State.landed, State.onLine, Line.slots]
  omega

theorem total_onLine_eq (hl : s.lines[i]? = some l) (hslots : (f l).slots k = l.slots k) :
    (s.onLine i f).total k = s.total k :=
  Nat.add_right_cancel ((total_onLine hl f k).trans (congrArg (s.total k + ·) hslots))

theorem total_held (s : State) (held : List Cts) (k : ℕ) :
    ({ s with held } : State).total k + (s.held.map Cts.slot).count k = s.total k +
    (held.map Cts.slot).count k := by
  simp only [total, count, State.noted, State.landed]
  omega

theorem total_free_done (s : State) (free : List ℕ) (done : ℕ → Bool) (k : ℕ) :
    ({ s with free, done } : State).total k + (s.free.count k + (s.done k).toNat) =
      s.total k + (free.count k + (done k).toNat) := by
  simp only [total, count, State.noted, State.landed]
  omega

theorem count_pos_of_offers (hc : c ∈ s.offers) : 0 < s.count c.slot .offered := by
  obtain ⟨l, hl, hmem⟩ := mem_flatMap.mp hc
  exact count_pos_iff.mpr (mem_flatMap.mpr ⟨l, hl, List.mem_map_of_mem hmem⟩)

theorem count_pos_of_noted (hk : k ∈ s.noted) : 0 < s.count k .noted := count_pos_iff.mpr hk

theorem count_pos_of_held (hc : c ∈ s.held) : 0 < s.count c.slot .held :=
  count_pos_iff.mpr (List.mem_map_of_mem hc)

theorem count_pos_of_pages {p : Cts × Bytes} (hp : p ∈ s.pages) : 0 < s.count p.1.slot .sent := by
  obtain ⟨l, hl, hmem⟩ := mem_flatMap.mp hp
  exact count_pos_iff.mpr (mem_flatMap.mpr ⟨l, hl, List.mem_map.mpr ⟨p, hmem, rfl⟩⟩)

theorem count_pos_of_landed (hk : k ∈ s.landed) : 0 < s.count k .landed := count_pos_iff.mpr hk

theorem count_pos_of_done (hk : s.done k = true) : 0 < s.count k .done := by
  simp [count, hk]

theorem count_pos_of_free (hk : k ∈ s.free) : 0 < s.count k .free := count_pos_iff.mpr hk

/-- A slot is not in two stages. -/
theorem Sound.alone {slots : ℕ} (h : Sound slots s) {a b : Stage} (hab : a ≠ b)
    (ha : 0 < s.count k a) (hb : 0 < s.count k b) :
    False := by
  have hone := h.one k
  unfold total at hone
  cases a <;> cases b <;> first | exact hab rfl | omega

theorem Sound.lt_slots {slots : ℕ} (h : Sound slots s) {a : Stage} (ha : 0 < s.count k a) :
    k < slots := by
  refine h.bound k ?_
  unfold total
  cases a <;> omega

end Counting

section Membership

variable {s : State} {i : ℕ} {l : Line} {f : Line → Line}

/-- What is on a rail is in the sum. -/
theorem mem_rail {α : Type*} {g : Line → List α} (hl : s.lines[i]? = some l) {x : α} (h : x ∈ g l) :
    x ∈ s.lines.flatMap g :=
  mem_flatMap.mpr ⟨l, mem_of_getElem? hl, h⟩

/-- A rail that is not there does not change. -/
theorem onLine_of_none (h : s.lines[i]? = none) (f : Line → Line) : s.onLine i f = s := by
  have hsame : s.lines.modify i f = s.lines := by
    refine ext_getElem? fun j => ?_
    by_cases hij : i = j
    · subst hij
      rw [getElem?_modify_eq, h]
      rfl
    · rw [getElem?_modify_ne f s.lines hij]
  rw [onLine, hsame]

/-! ### The steps of a rail -/

variable {t : State} {slots : ℕ}

theorem toPeer_eq_some (h : s.toPeer i = some t) :
    ∃ l w rest, s.lines[i]? = some l ∧ l.there = w :: rest ∧
    t = ({ s with ring := w.elim s.ring fun c => Function.update s.ring c.slot c }.onLine i fun l =>
      { l with there := rest, peerQueue := l.peerQueue ++ [w.map Cts.slot] }) := by
  obtain ⟨l, hl, h⟩ := bind_eq_some_iff.mp h
  split at h
  · cases h
  · next rest hthere => exact ⟨l, none, rest, hl, hthere, (some.inj h).symm⟩
  · next c rest hthere => exact ⟨l, some c, rest, hl, hthere, (some.inj h).symm⟩

theorem toHere_eq_some (h : s.toHere i = some t) :
    ∃ l w rest, s.lines[i]? = some l ∧ l.back = w :: rest ∧
    t = ({ s with memory := w.elim s.memory fun p =>
      Function.update s.memory p.1.page (overwrite (s.memory p.1.page) p.2) }.onLine i fun l =>
      { l with back := rest, queue := l.queue ++ [w.map fun p : Cts × Bytes => p.1.slot] }) := by
  obtain ⟨l, hl, h⟩ := bind_eq_some_iff.mp h
  split at h
  · cases h
  · next rest hback => exact ⟨l, none, rest, hl, hback, (some.inj h).symm⟩
  · next c bytes rest hback => exact ⟨l, some (c, bytes), rest, hl, hback, (some.inj h).symm⟩

theorem pollPeer_eq_some (h : s.pollPeer slots i = some t) : ∃ l note rest, s.lines[i]? = some l ∧
    l.peerQueue = note :: rest ∧ t = { s.onLine i fun l => { l with peerQueue := rest } with
      held := s.held ++ (note.filter (· < slots)).toList.map s.ring } := by
  obtain ⟨l, hl, h⟩ := bind_eq_some_iff.mp h
  split at h
  · cases h
  · next note rest hqueue =>
    refine ⟨l, note, rest, hl, hqueue, ?_⟩
    cases note with
    | none => simp [← some.inj h, onLine]
    | some slot =>
      by_cases hlt : slot < slots <;> simp [← some.inj h, hlt, onLine, Option.filter]

theorem poll_eq_some (h : s.poll slots i = some t) : ∃ l note rest, s.lines[i]? = some l ∧
    l.queue = note :: rest ∧ t = { s.onLine i fun l => { l with queue := rest } with
      done := (note.filter (· < slots)).elim s.done fun slot =>
  Function.update s.done slot true } := by
  obtain ⟨l, hl, h⟩ := bind_eq_some_iff.mp h
  split at h
  · cases h
  · next note rest hqueue =>
    refine ⟨l, note, rest, hl, hqueue, ?_⟩
    cases note with
    | none => simp [← some.inj h, onLine]
    | some slot =>
      by_cases hlt : slot < slots <;> simp [← some.inj h, hlt, onLine, Option.filter]

end Membership

namespace Sound

variable {slots : ℕ} {s t : State} {i : ℕ} {l : Line}

theorem start (slots rails : ℕ) : Sound slots (start slots rails) := by
  have hnil : ∀ {β : Type} (g : Line → List β), g {} = [] →
      (List.replicate rails ({} : Line)).flatMap g = [] := by
    intro β g hg
    refine eq_nil_iff_forall_not_mem.mpr fun x hx => ?_
    obtain ⟨l, hl, hmem⟩ := mem_flatMap.mp hx
    rw [eq_of_mem_replicate hl, hg] at hmem
    exact not_mem_nil hmem
  have htotal : ∀ k, (State.start slots rails).total k = (List.range slots).count k := by
    intro k
    simp [total, count, State.start, State.noted, State.landed, hnil Line.offeredSlots rfl,
      hnil Line.noted rfl, hnil Line.sentSlots rfl, hnil Line.landed rfl]
  have hlines : (State.start slots rails).lines = List.replicate rails {} := rfl
  constructor
  · intro k
    rw [htotal]
    exact nodup_iff_count_le_one.mp nodup_range k
  · intro k hk
    rw [htotal, count_pos_iff, mem_range] at hk
    exact hk
  · simp [State.offers, hlines, hnil Line.offers rfl]
  · simp [State.noted, hlines, hnil Line.noted rfl]
  · simp [State.start]
  · simp [State.pages, hlines, hnil Line.pages rfl]
  · simp [State.landed, hlines, hnil Line.landed rfl]
  all_goals simp [State.start]

/-- A step that only moves slots on. -/
theorem moved (h : Sound slots s) (hreceives : t.receives = s.receives) (hsends : t.sends = s.sends)
    (hmemory : t.memory = s.memory) (hfree : t.free = s.free)
    (htotal : ∀ k, t.total k ≤ 1 ∧ (0 < t.total k → k < slots))
    (hoffered : ∀ c ∈ t.offers, s.Fresh c) (hnoted : ∀ k ∈ t.noted, (t.ring k).slot = k ∧
      s.Fresh (t.ring k)) (hheld : ∀ c ∈ t.held, s.Fresh c) (hsent : ∀ p ∈ t.pages, s.Underway p)
      (hlanded : ∀ k ∈ t.landed, s.Arrived k)
    (hdone : ∀ k, t.done k = true → s.Arrived k) : Sound slots t := by
  have hrecorded : ∀ c, t.Recorded c ↔ s.Recorded c := fun c => by rw [Recorded, hreceives]; rfl
  have hsendsTo : ∀ j, t.sendsTo j = s.sendsTo j := fun j => by rw [sendsTo, hsends]; rfl
  have hfresh : ∀ c, s.Fresh c → t.Fresh c :=
    fun c hc => ⟨(hrecorded c).mpr hc.1, (hsendsTo _).trans hc.2⟩
  have hfilled : ∀ j r content, s.Filled j r content → t.Filled j r content := by
    rintro j r content ⟨bytes, hto, hrest⟩
    exact ⟨bytes, (hsendsTo j).trans hto, hrest⟩
  have harrived : ∀ k, s.Arrived k → t.Arrived k := by
    rintro k ⟨j, r, hr, hnone, hslot, hfill⟩
    exact ⟨j, r, by rw [hreceives]; exact hr, hnone, hslot,
      by rw [hmemory]; exact hfilled _ _ _ hfill⟩
  exact {
    one := fun k => (htotal k).1
    bound := fun k => (htotal k).2
    offered := fun c hc => hfresh c (hoffered c hc)
    noted := fun k hk => ⟨(hnoted k hk).1, hfresh _ (hnoted k hk).2⟩
    held := fun c hc => hfresh c (hheld c hc)
    sent := fun p hp => ⟨(hrecorded _).mpr (hsent p hp).1, (hsent p hp).2.1,
      (hsendsTo _).trans (hsent p hp).2.2⟩
    landed := fun k hk => harrived k (hlanded k hk)
    done := fun k hk => harrived k (hdone k hk)
    apart := by rw [hreceives]; exact h.apart
    taken := by rw [hreceives, hfree]; exact h.taken
    returned := fun j r bytes hr hend =>
      (h.returned j r bytes (by rw [← hreceives]; exact hr) hend).imp_left (hfilled j r bytes)
    logged := by rw [hreceives, hsends]; exact h.logged }

theorem le_total (h : Sound slots s) {n k : ℕ} (hle : n ≤ s.total k) :
    n ≤ 1 ∧ (0 < n → k < slots) :=
  ⟨hle.trans (h.one k), fun hpos => h.bound k (hpos.trans_le hle)⟩

variable {f : Line → Line}

section

variable (h : Sound slots s)
include h

omit h in
/-- A property of what is on the rails, when one of them changes. -/
theorem relined {α : Type*} {g : Line → List α} {P : α → Prop} (hl : s.lines[i]? = some l)
    (hnew : ∀ x ∈ g (f l), x ∈ g l ∨ P x) (hold : ∀ x ∈ s.lines.flatMap g, P x) :
    ∀ x ∈ (s.onLine i f).lines.flatMap g, P x := by
  intro x hx
  rcases Modify.mem_flatMap_modify hl hx with hx | hx
  · exact (hnew x hx).elim (fun hx => hold x (mem_rail hl hx)) id
  · exact hold x hx

/-- One rail changes, and what comes to it is as it should be. -/
theorem reline (hl : s.lines[i]? = some l)
    (htotal : ∀ k, (s.onLine i f).total k ≤ 1 ∧ (0 < (s.onLine i f).total k → k < slots))
    (hoffered : ∀ c ∈ (f l).offers, c ∈ l.offers ∨ s.Fresh c)
    (hnoted : ∀ k ∈ (f l).noted, k ∈ l.noted ∨ (s.ring k).slot = k ∧ s.Fresh (s.ring k))
    (hsent : ∀ p ∈ (f l).pages, p ∈ l.pages ∨ s.Underway p)
    (hlanded : ∀ k ∈ (f l).landed, k ∈ l.landed ∨ s.Arrived k) : Sound slots (s.onLine i f) :=
  h.moved rfl rfl rfl rfl htotal (relined hl hoffered h.offered) (relined hl hnoted h.noted) h.held
    (relined hl hsent h.sent) (relined hl hlanded h.landed) h.done

/-- A step of one rail that only moves slots on. -/
theorem moved_onLine (hl : s.lines[i]? = some l) (hslots : ∀ k, (f l).slots k ≤ l.slots k)
    (hoffered : ∀ c ∈ (f l).offers, c ∈ l.offers) (hnoted : ∀ k ∈ (f l).noted, k ∈ l.noted)
    (hsent : ∀ p ∈ (f l).pages, p ∈ l.pages) (hlanded : ∀ k ∈ (f l).landed, k ∈ l.landed) :
    Sound slots (s.onLine i f) := by
  refine h.reline hl (fun k => ?_) (fun c hc => .inl (hoffered c hc)) (fun k hk =>
    .inl (hnoted k hk)) (fun p hp => .inl (hsent p hp)) fun k hk => .inl (hlanded k hk)
  have heq := total_onLine hl f k
  have hle := hslots k
  exact h.le_total (by omega)

/-- A rail of which nothing changes that is of this direction. -/
theorem unmoved (hl : s.lines[i]? = some l) (hoffers : (f l).offers = l.offers)
    (hnoted : (f l).noted = l.noted) (hpages : (f l).pages = l.pages)
    (hlanded : (f l).landed = l.landed) :
    Sound slots (s.onLine i f) ∧ ∀ k, (s.onLine i f).total k = s.total k := by
  have hslots : ∀ k, (f l).slots k = l.slots k := fun k => by
    rw [Line.slots, Line.offeredSlots, Line.sentSlots, hoffers, hnoted, hpages, hlanded]
    rfl
  exact ⟨h.moved_onLine hl (fun k => (hslots k).le) (fun c hc => hoffers ▸ hc) (fun k hk =>
    hnoted ▸ hk)
    (fun p hp => hpages ▸ hp) fun k hk => hlanded ▸ hk, fun k => total_onLine_eq hl (hslots k)⟩

/-- A record is written over one that nobody is told of any more. -/
theorem ring (hc : c ∈ s.offers) :
    Sound slots { s with ring := Function.update s.ring c.slot c } := by
  refine h.moved rfl rfl rfl rfl (fun k => ⟨h.one k, h.bound k⟩) h.offered (fun k hk => ?_) h.held
    h.sent h.landed h.done
  have hne : k ≠ c.slot := by
    rintro rfl
    exact h.alone (a := .offered) (b := .noted) nofun (count_pos_of_offers hc)
      (count_pos_of_noted hk)
  show (Function.update s.ring c.slot c k).slot = k ∧ s.Fresh (Function.update s.ring c.slot c k)
  rw [update_of_ne hne]
  exact h.noted k hk

/-- A record reaches the ring. -/
theorem toPeer (hstep : s.toPeer i = some t) : Sound slots t ∧ ∀ k, t.total k = s.total k := by
  obtain ⟨l, w, rest, hl, hthere, rfl⟩ := toPeer_eq_some hstep
  cases w with
  | none =>
    refine h.unmoved hl ?_ ?_ rfl rfl
    · simp [Line.offers, hthere]
    · simp [Line.noted, reduceOption_append]
  | some c =>
    have hoffers : l.offers = c :: rest.reduceOption := by
      rw [Line.offers, hthere, reduceOption_cons_of_some]
    have hc : c ∈ s.offers := mem_rail hl (hoffers ▸ mem_cons_self)
    have htotal : ∀ k, ({ s with ring := Function.update s.ring c.slot c }.onLine i fun l =>
        { l with there := rest, peerQueue := l.peerQueue ++ [some c.slot] }).total k = s.total k :=
      fun k => total_onLine_eq (s := { s with ring := _ }) hl (Line.slots_toPeer k hthere)
    refine ⟨(h.ring hc).reline hl (fun k => h.le_total (htotal k).le)
      (fun c' hc' => .inl (hoffers ▸ mem_cons_of_mem _ hc')) (fun k hk => ?_) (fun p hp => .inl hp)
      fun k hk => .inl hk, htotal⟩
    rw [Line.noted, reduceOption_append, mem_append] at hk
    refine hk.imp_right fun hk => ?_
    obtain rfl : k = c.slot := by simpa using hk
    rw [show ({ s with ring := Function.update s.ring c.slot c } : State).ring c.slot =
      c from update_self ..]
    exact ⟨rfl, h.offered c hc⟩

/-- The peer polls a completion.  If it is of this direction, the ring still has the record it is
of. -/
theorem pollPeer (hstep : s.pollPeer slots i = some t) :
    Sound slots t ∧ ∀ k, t.total k = s.total k := by
  obtain ⟨l, note, rest, hl, hqueue, rfl⟩ := pollPeer_eq_some hstep
  have hline := total_onLine hl (fun l => { l with peerQueue := rest })
  have hslots := fun k => Line.slots_pollPeer k hqueue
  have hsub : ∀ k ∈ rest.reduceOption, k ∈ l.noted := by
    intro k hk
    cases note <;> simp [Line.noted, hqueue, hk]
  have hmoved : Sound slots (s.onLine i fun l => { l with peerQueue := rest }) :=
    h.moved_onLine hl (fun k => Nat.le.intro (hslots k)) (fun c hc => hc) hsub (fun p hp =>
      hp) fun k hk => hk
  cases note with
  | none =>
    rw [filter_none, toList_none, map_nil, append_nil]
    refine ⟨hmoved, fun k => ?_⟩
    have heq := total_onLine_eq hl (f := fun l => { l with peerQueue := rest }) (hslots k)
    exact heq
  | some slot =>
    have hmem : slot ∈ s.noted := mem_rail (g := Line.noted) hl (by simp [Line.noted, hqueue])
    obtain ⟨hslot, hfresh⟩ := h.noted slot hmem
    have hlt := h.lt_slots (count_pos_of_noted hmem)
    rw [show (some slot).filter (· < slots) = some slot by simp [Option.filter, hlt]]
    have hsum : ∀ k, ({ s.onLine i fun l => { l with peerQueue := rest } with
        held := s.held ++ [s.ring slot] } : State).total k = s.total k := by
      intro k
      have heq := total_held (s.onLine i fun l => { l with peerQueue := rest })
        (s.held ++ [s.ring slot]) k
      have hpoll := hline k
      have hk := hslots k
      rw [map_append, count_append, map_singleton, hslot] at heq
      simp only [toList_some, State.onLine] at heq hpoll hk ⊢
      omega
    refine ⟨h.moved rfl rfl rfl rfl (fun k => h.le_total (hsum k).le) hmoved.offered hmoved.noted
      (forall_mem_append.mpr ⟨h.held, forall_mem_singleton.mpr hfresh⟩) hmoved.sent hmoved.landed
      hmoved.done, hsum⟩

/-- This side polls a completion. -/
theorem poll (hstep : s.poll slots i = some t) : Sound slots t ∧ ∀ k, t.total k = s.total k := by
  obtain ⟨l, note, rest, hl, hqueue, rfl⟩ := poll_eq_some hstep
  have hline := total_onLine hl (fun l => { l with queue := rest })
  have hslots := fun k => Line.slots_poll k hqueue
  have hsub : ∀ k ∈ rest.reduceOption, k ∈ l.landed := by
    intro k hk
    cases note <;> simp [Line.landed, hqueue, hk]
  have hmoved : Sound slots (s.onLine i fun l => { l with queue := rest }) :=
    h.moved_onLine hl (fun k => Nat.le.intro (hslots k)) (fun c hc => hc) (fun k hk => hk)
      (fun p hp => hp) hsub
  cases note with
  | none =>
    refine ⟨hmoved, fun k => ?_⟩
    have heq := total_onLine_eq hl (f := fun l => { l with queue := rest }) (hslots k)
    exact heq
  | some slot =>
    have hmem : slot ∈ s.landed := mem_rail (g := Line.landed) hl (by simp [Line.landed, hqueue])
    have hundone : s.done slot = false := by
      refine Bool.eq_false_iff.mpr fun hdone => ?_
      exact h.alone (a := .landed) (b := .done) nofun (count_pos_of_landed hmem)
        (count_pos_of_done hdone)
    have hlt := h.lt_slots (count_pos_of_landed hmem)
    rw [show (some slot).filter (· < slots) = some slot by simp [Option.filter, hlt]]
    have hsum : ∀ k, ({ s.onLine i fun l => { l with queue := rest } with
        done := Function.update s.done slot true } : State).total k = s.total k := by
      intro k
      have heq := total_free_done (s.onLine i fun l => { l with queue := rest }) s.free
        (Function.update s.done slot true) k
      have hpoll := hline k
      have hk := hslots k
      by_cases hks : k = slot
      · subst hks
        simp only [State.onLine, update_self, hundone, toList_some, count_singleton_self,
          Bool.toNat_false, Bool.toNat_true] at heq hpoll hk ⊢
        omega
      · simp only [State.onLine, update_of_ne hks, toList_some,
          count_singleton, beq_iff_eq, Ne.symm hks, if_false] at heq hpoll hk ⊢
        omega
    refine ⟨h.moved rfl rfl rfl rfl (fun k => h.le_total (hsum k).le) hmoved.offered hmoved.noted
      hmoved.held hmoved.sent hmoved.landed (fun k hk => ?_), hsum⟩
    by_cases hks : k = slot
    · exact hks ▸ h.landed slot hmem
    · have hwas : Function.update s.done slot true k = true := hk
      rw [update_of_ne hks] at hwas
      exact h.done k hwas

/-- A queue pair goes down with what is on its way. -/
theorem error (i : ℕ) : Sound slots { s.onLine i .fail with failed := true } := by
  have hfail : Sound slots (s.onLine i .fail) := by
    cases hl : s.lines[i]? with
    | none =>
      rw [onLine_of_none hl]
      exact h
    | some l =>
      refine h.moved_onLine hl (fun k => ?_) (fun c hc => ?_) (fun k hk => hk) (fun p hp =>
        ?_) fun k hk => hk
      · simp only [Line.slots, Line.fail, Line.offeredSlots, Line.offers, Line.noted,
          Line.sentSlots, Line.pages, Line.landed, reduceOption_nil, map_nil, count_nil]
        omega
      · exact absurd hc not_mem_nil
      · exact absurd hp not_mem_nil
  exact { hfail with }

/-- A write of the other direction. -/
theorem foreign (i : ℕ) (hf : ∀ l, (f l).offers = l.offers ∧ (f l).noted = l.noted ∧
      (f l).pages = l.pages ∧ (f l).landed = l.landed) :
      Sound slots (s.onLine i f) ∧ ∀ k, (s.onLine i f).total k = s.total k := by
  cases hl : s.lines[i]? with
  | none =>
    rw [onLine_of_none hl]
    exact ⟨h, fun _ => rfl⟩
  | some l =>
    obtain ⟨hoffers, hnoted, hpages, hlanded⟩ := hf l
    exact h.unmoved hl hoffers hnoted hpages hlanded

theorem foreignThere (i : ℕ) :
    Sound slots (s.onLine i (.postThere none)) ∧ ∀ k, (s.onLine i (.postThere none)).total k =
    s.total k :=
  h.foreign i fun l => by simpa using l.postThere_lists none

theorem foreignBack (i : ℕ) :
    Sound slots (s.onLine i (.postBack none)) ∧ ∀ k,
    (s.onLine i (.postBack none)).total k = s.total k :=
  h.foreign i fun l => by simpa using l.postBack_lists none

/-- A page is written that no receive has whose data has come. -/
theorem written (page : ℕ) (content : Bytes)
    (hsafe : ∀ j r, s.receives[j]? = some r → r.ending = none → s.Filled j r (s.memory r.page) →
      0 < s.count r.slot .landed ∨ 0 < s.count r.slot .done → r.page ≠ page) :
      Sound slots (s.stored page content) := by
  have harrived : ∀ k, s.Arrived k → 0 < s.count k .landed ∨ 0 < s.count k .done →
      (s.stored page content).Arrived k := by
    rintro k ⟨j, r, hr, hnone, rfl, hfill⟩ hcount
    refine ⟨j, r, hr, hnone, rfl, ?_⟩
    show s.Filled j r (Function.update s.memory page content r.page)
    rw [update_of_ne (hsafe j r hr hnone hfill hcount)]
    exact hfill
  exact { h with
    landed := fun k hk => harrived k (h.landed k hk) (.inl (count_pos_of_landed hk))
    done := fun k hk => harrived k (h.done k hk) (.inr (count_pos_of_done hk)) }

/-- A page reaches the pool. -/
theorem toHere (hstep : s.toHere i = some t) : Sound slots t ∧ ∀ k, t.total k = s.total k := by
  obtain ⟨l, w, rest, hl, hback, rfl⟩ := toHere_eq_some hstep
  cases w with
  | none =>
    refine h.unmoved hl rfl rfl ?_ ?_
    · simp [Line.pages, hback]
    · simp [Line.landed, reduceOption_append]
  | some p =>
    obtain ⟨c, bytes⟩ := p
    have hpages : l.pages = (c, bytes) :: rest.reduceOption := by
      rw [Line.pages, hback, reduceOption_cons_of_some]
    have hmem : (c, bytes) ∈ s.pages := mem_rail hl (hpages ▸ mem_cons_self)
    obtain ⟨⟨q, hq, hqnone, hqslot, hqkey, hqlength, hqpage⟩, hfits, hto⟩ := h.sent _ hmem
    -- No other receive has the page, and this one's data had not come.
    have hwritten :=
      h.written c.page (overwrite (s.memory c.page) bytes) fun j r hr hnone hfill hcount hpage => by
      by_cases hj : j = c.owner
      · subst hj
        obtain rfl := mem_unique hr hq
        have hsent := count_pos_of_pages hmem
        rw [← hqslot] at hsent
        rcases hcount with hcount | hcount
        · exact h.alone (a := .sent) (b := .landed) nofun hsent hcount
        · exact h.alone (a := .sent) (b := .done) nofun hsent hcount
      · exact (h.apart j c.owner r q hr hq hnone hqnone hj).2 (hpage.trans hqpage.symm)
    have harrived : (s.stored c.page (overwrite (s.memory c.page) bytes)).Arrived c.slot := by
      refine ⟨c.owner, q, hq, hqnone, hqslot, bytes, hqkey ▸ hto, hqlength ▸ hfits, ?_⟩
      show (Function.update s.memory c.page _ q.page).take bytes.length = bytes
      rw [hqpage, update_self, overwrite, take_left]
    have htotal : ∀ k, ((s.stored c.page (overwrite (s.memory c.page) bytes)).onLine i fun l =>
        { l with back := rest, queue := l.queue ++ [some c.slot] }).total k = s.total k :=
      fun k => total_onLine_eq (s := s.stored _ _) hl (Line.slots_toHere k hback)
    refine ⟨hwritten.reline hl (fun k => h.le_total (htotal k).le) (fun c' hc => .inl hc)
      (fun k hk => .inl hk)
      (fun p hp => .inl (hpages ▸ mem_cons_of_mem _ hp)) (fun k hk => ?_), htotal⟩
    rw [Line.landed, reduceOption_append, mem_append] at hk
    refine hk.imp_right fun hk => ?_
    obtain rfl : k = c.slot := by simpa using hk
    exact harrived

end

end Sound

end State
end Rail.Transport.Rdma
