import Rail.Transport.Delivery

/-!
# Where the receives stand

What a step of the data channel does to the places of the receives, with nothing assumed of the
keys: a key may be posted again once its receive has returned, and any frame may come.  A place is
cut down to what the loop can tell of it (`Stand`), and each function of the channel to a `Change`:
who acts, whether everyone is woken, and where the one that acts ends up.
-/

namespace Rail.Transport

open List Option Wire

/-- What the loop can tell of a place. -/
inductive Stand where
  | idle
  | scheduled
  /-- In `readExact`. -/
  | reading
  | seek (key : UInt64) (woken : Bool)
  | returned
  deriving DecidableEq

namespace Stand

def woken : Stand → Stand
  | idle => scheduled
  | seek key _ => seek key true
  | a => a

/-- In `Idlers`. -/
def parked : Stand → Bool
  | idle => true
  | seek _ woken => !woken
  | _ => false

def isScheduled : Stand → Bool
  | scheduled => true
  | seek _ woken => woken
  | _ => false

def drives : Stand → Bool
  | reading => true
  | seek _ _ => true
  | _ => false

variable (a : Stand)

@[simp] theorem woken_woken : a.woken.woken = a.woken := by
  cases a <;> rfl

@[simp] theorem parked_woken : a.woken.parked = false := by
  cases a <;> rfl

@[simp] theorem drives_woken : a.woken.drives = a.drives := by
  cases a <;> rfl

@[simp] theorem isScheduled_woken : a.woken.isScheduled = (a.isScheduled || a.parked) := by
  cases a <;> simp [woken, isScheduled, parked]

@[simp] theorem woken_eq_reading {a : Stand} : a.woken = reading ↔ a = reading := by
  cases a <;> simp [woken]

end Stand

def Place.stand : Place → Stand
  | .idle => .idle
  | .scheduled => .scheduled
  | .header _ => .reading
  | .payload _ => .reading
  | .seek key _ woken => .seek key woken
  | .returned _ => .returned

@[simp] theorem Place.stand_woken (a : Place) : a.woken.stand = a.stand.woken := by
  cases a <;> rfl

variable {a : Place}

theorem Place.stand_eq_returned : a.stand = .returned ↔ a.isReturned = true := by
  cases a <;> simp [stand, isReturned]

namespace Channel

def stand (c : Channel) (j : ℕ) : Option Stand := (c.posts[j]?).map fun p => p.place.stand

def key (c : Channel) (j : ℕ) : Option UInt64 := (c.posts[j]?).map Posted.key

def parked (c : Channel) (j : ℕ) : Bool := (c.stand j).any Stand.parked

variable (c : Channel)

def isReading (j : ℕ) : Bool := c.stand j = some .reading

/-- The loop has the receive in its queue: it was woken, or its descriptor is gone. -/
def due (j : ℕ) : Bool := (c.stand j).any Stand.isScheduled || c.isReading j && !c.up

/-- Somebody holds a frame for a key that nobody has posted. -/
def heldUp : Bool :=
  c.posts.any fun p =>
    match p.place with
    | .seek key _ _ => (c.waiting key).isNone
    | _ => false

/-- Whoever waits for the descriptor when it is closed. -/
def stirred (c c' : Channel) : List ℕ :=
  if c.up = true ∧ c'.up = false then c'.reader.toList.filter c'.isReading else []

/-! ## Stands after the functions of the channel -/

@[simp] theorem stand_wake (j : ℕ) : c.wake.stand j = (c.stand j).map Stand.woken := by
  cases h : c.posts[j]? <;> simp [stand, wake, getElem?_mapIdx, h]

@[simp] theorem key_wake (j : ℕ) : c.wake.key j = c.key j := by
  cases h : c.posts[j]? <;> simp [key, wake, getElem?_mapIdx, h]

theorem stand_alter (t j : ℕ) {f : Posted → Posted} (hf : ∀ p, (f p).place = p.place) :
    (c.alter t f).stand j = c.stand j := by
  cases hp : c.posts[j]? with
  | none => simp [stand, alter, getElem?_mapIdx, hp]
  | some p =>
    rw [stand, stand, alter, getElem?_mapIdx, hp]
    by_cases h : j = t <;> simp [h, hf]

theorem key_alter (t j : ℕ) {f : Posted → Posted} (hf : ∀ p, (f p).key = p.key) :
    (c.alter t f).key j = c.key j := by
  cases hp : c.posts[j]? with
  | none => simp [key, alter, getElem?_mapIdx, hp]
  | some p =>
    rw [Channel.key, Channel.key, alter, getElem?_mapIdx, hp]
    by_cases h : j = t <;> simp [h, hf]

@[simp] theorem key_moveTo (k j : ℕ) (a : Place) : (c.moveTo k a).key j = c.key j :=
  key_alter c k j fun _ => rfl

variable {c c' d : Channel} {j k : ℕ} {key : UInt64} {w : Stand → Stand}

theorem stand_moveTo_self {x : Stand} (h : c.stand k = some x) (a : Place) :
    (c.moveTo k a).stand k = some a.stand := by
  obtain ⟨p, hp, -⟩ := map_eq_some_iff.mp h
  simp [stand, moveTo, alter, getElem?_mapIdx, hp]

theorem stand_moveTo_of_ne (c : Channel) (h : j ≠ k) (a : Place) :
    (c.moveTo k a).stand j = c.stand j := by
  simp [stand, moveTo, alter, getElem?_mapIdx, h]

theorem waiting_eq_none_iff_stand :
    c.waiting key = none ↔ ∀ j, c.key j = some key → c.stand j = some .returned := by
  rw [waiting_eq_none]
  constructor
  · intro h j hj
    obtain ⟨p, hp, hkey⟩ := map_eq_some_iff.mp hj
    rw [stand, hp, map_some, Place.stand_eq_returned.mpr (h p (mem_of_getElem? hp) hkey)]
  · intro h p hp hkey
    obtain ⟨j, hj⟩ := mem_iff_getElem?.mp hp
    have hret := h j (by rw [Channel.key, hj, map_some, hkey])
    rw [stand, hj, map_some, Option.some.injEq] at hret
    exact Place.stand_eq_returned.mp hret

theorem heldUp_iff :
    c.heldUp = true ↔ ∃ j key w, c.stand j = some (.seek key w) ∧ c.waiting key = none := by
  rw [heldUp, List.any_eq_true]
  constructor
  · rintro ⟨p, hp, hheld⟩
    obtain ⟨j, hj⟩ := mem_iff_getElem?.mp hp
    cases hplace : p.place with
    | seek key length w =>
      rw [hplace] at hheld
      exact ⟨j, key, w, by rw [stand, hj, map_some, hplace]; rfl, isNone_iff_eq_none.mp hheld⟩
    | _ => simp [hplace] at hheld
  · rintro ⟨j, key, w, hstand, hwaiting⟩
    obtain ⟨p, hp, hplace⟩ := map_eq_some_iff.mp hstand
    refine ⟨p, mem_of_getElem? hp, ?_⟩
    cases h : p.place with
    | seek key' length w' =>
      rw [h] at hplace
      obtain ⟨rfl, -⟩ := Stand.seek.inj hplace
      exact isNone_iff_eq_none.mpr hwaiting
    | _ => simp [h, Place.stand] at hplace

theorem parked_eq_true : c.parked j = true ↔ ∃ a, c.stand j = some a ∧ a.parked = true := by
  rw [parked, Option.any_eq_true]

theorem due_eq_true : c.due j = true ↔
    (∃ a, c.stand j = some a ∧ a.isScheduled = true) ∨ c.stand j = some .reading ∧
    c.up = false := by
  rw [due, Bool.or_eq_true, Option.any_eq_true, Bool.and_eq_true, isReading, decide_eq_true_eq,
    Bool.not_eq_true']

/-- Whoever is parked is not owed anything by the loop. -/
theorem not_due_of_parked (h : c.parked j = true) : c.due j ≠ true := by
  rw [Ne, due_eq_true]
  obtain ⟨a, ha, hparked⟩ := parked_eq_true.mp h
  rintro (⟨b, hb, hsched⟩ | ⟨hb, -⟩)
  · obtain rfl := mem_unique ha hb
    cases a <;> simp_all [Stand.parked, Stand.isScheduled]
  · obtain rfl := mem_unique ha hb
    simp [Stand.parked] at hparked

theorem not_returned_of_parked (h : c.parked j = true) : c.stand j ≠ some .returned := by
  intro hret
  simp [parked, hret, Stand.parked] at h

theorem not_returned_of_due (h : c.due j = true) : c.stand j ≠ some .returned := by
  intro hret
  simp [due, isReading, hret, Stand.isScheduled] at h

theorem mem_stirred :
    j ∈ c.stirred c' ↔ (c.up = true ∧ c'.up = false) ∧ c'.reader = some j ∧
    c'.stand j = some .reading := by
  rw [stirred]
  split_ifs with h
  · rw [mem_filter, mem_toList, isReading, decide_eq_true_eq]
    exact (and_iff_right h).symm
  · exact ⟨nofun, fun hj => absurd hj.1 h⟩

theorem nodup_stirred (c c' : Channel) : (c.stirred c').Nodup := by
  rw [stirred]
  split_ifs with h
  · cases c'.reader <;> simp [List.Nodup.filter]
  · exact nodup_nil

/-! ## What a step of the channel does to the stands -/

/-- What becomes of the connection: a failure lasts, and nobody is left unaware of a new one. -/
structure Fares (c c' : Channel) (w : Stand → Stand) : Prop where
  fails : c.failure ≠ none → c'.failure ≠ none
  failed : c'.failure ≠ none → c.failure ≠ none ∨ w = Stand.woken
  driven : c'.failure ≠ none → c'.reader ≠ none → c'.up = false ∨ c.failure ≠ none ∧ c.reader ≠ none
  down : c'.up = false → c.up = false ∨ c'.failure ≠ none
  up : c'.up = true → c.up = true

/-- Everyone but `k` stays or is woken, and `k` ends where nothing is owed to it. -/
structure Change (c c' : Channel) (k : Option ℕ) (w : Stand → Stand) :
    Prop extends Fares c c' w where
  wakes : w = (fun a => a) ∨ w = Stand.woken
  key : ∀ j, k ≠ some j → c'.key j = c.key j
  other : ∀ j, k ≠ some j → c'.stand j = (c.stand j).map w
  self : ∀ i, k = some i → ∃ x, c'.stand i = some x ∧ x.isScheduled = false ∧
    (x.drives = true ↔ c'.reader = some i) ∧ (x = .idle → c'.failure = none) ∧
    (c'.reader = some i → c'.up = c.up ∧ (c.reader = some i ∨ c.failure = none)) ∧
    ∀ key, x = .seek key false → w = (fun a => a) ∧ c.waiting key = none
  actor : ∀ i, k = some i → c.parked i = false ∧ c.stand i ≠ some .returned
  known : ∀ i, k = some i → w = (fun a => a) → c'.key i = c.key i
  reader : ∀ j, k ≠ some j → (c'.reader = some j ↔ c.reader = some j)

theorem Fares.same (hfailure : c'.failure = c.failure) (hup : c'.up = c.up)
    (hreader : c'.reader ≠ none → c.failure ≠ none → c.reader ≠ none) : Fares c c' w where
  fails h := hfailure ▸ h
  failed h := .inl (hfailure ▸ h)
  driven h hr := .inr ⟨hfailure ▸ h, hreader hr (hfailure ▸ h)⟩
  down h := .inl (hup ▸ h)
  up h := hup ▸ h

theorem Fares.fail (hfailure : c'.failure ≠ none) (hreader : c'.reader = none ∨ c'.up = false)
    (hup : c'.up = true → c.up = true) : Fares c c' Stand.woken where
  fails _ := hfailure
  failed _ := .inr rfl
  driven _ hr := .inl (hreader.resolve_left hr)
  down _ := .inr hfailure
  up := hup

/-- A step that changes no place. -/
theorem Change.quiet (hkey : ∀ j, c'.key j = c.key j) (hstand : ∀ j, c'.stand j = c.stand j)
    (hreader : c'.reader = c.reader) (hfailure : c'.failure = c.failure) (hup : c'.up = c.up) :
    Change c c' none fun a => a where
  toFares := .same hfailure hup fun hr _ => hreader ▸ hr
  wakes := .inl rfl
  key j _ := hkey j
  other j _ := by rw [hstand j, Option.map_id']
  self i hi := absurd hi (some_ne_none i).symm
  actor i hi := absurd hi (some_ne_none i).symm
  known i hi := absurd hi (some_ne_none i).symm
  reader j _ := by rw [hreader]

/-- A step that ends with `k` at a place. -/
theorem Change.of_moveTo {y : Stand} (hfares : Fares c (d.moveTo k a) w)
    (hw : w = (fun a => a) ∨ w = Stand.woken) (hkey : ∀ j, j ≠ k ∨ w = (fun a => a) →
      d.key j = c.key j) (hstand : ∀ j, j ≠ k → d.stand j = (c.stand j).map w)
      (hk : d.stand k = some y) (hactor : c.parked k = false ∧ c.stand k ≠ some .returned)
    (hsched : a.stand.isScheduled = false) (hself : a.stand.drives = true ↔ d.reader = some k)
    (hothers : ∀ j, j ≠ k → (d.reader = some j ↔ c.reader = some j))
    (hidle : a.stand = .idle → d.failure = none) (hcalm : d.reader = some k → d.up = c.up ∧
      (c.reader = some k ∨ c.failure = none)) (hseek : ∀ key, a.stand = .seek key false →
      w = (fun a => a) ∧ c.waiting key = none) :
    Change c (d.moveTo k a) (some k) w where
  toFares := hfares
  wakes := hw
  key j hj := by
    rw [key_moveTo]
    exact hkey j (.inl fun h => hj (congrArg some h.symm))
  other j hj := by
    have hne : j ≠ k := fun h => hj (congrArg some h.symm)
    rw [stand_moveTo_of_ne d hne a]
    exact hstand j hne
  self i hi := by
    cases hi
    exact ⟨a.stand, stand_moveTo_self hk a, hsched, hself, hidle, hcalm, hseek⟩
  actor i hi := by
    cases hi
    exact hactor
  known i hi hid := by
    rw [key_moveTo]
    exact hkey i (.inr hid)
  reader j hj := hothers j fun h => hj (congrArg some h.symm)

theorem Change.close (c : Channel) : Change c c.close none Stand.woken where
  toFares := .fail (some_ne_none _) (.inr rfl) nofun
  wakes := .inr rfl
  key j _ := key_wake _ j
  other j _ := stand_wake _ j
  self i hi := absurd hi (some_ne_none i).symm
  actor i hi := absurd hi (some_ne_none i).symm
  known i hi := absurd hi (some_ne_none i).symm
  reader _ _ := Iff.rfl

/-- Someone that the loop may let go on. -/
def Active (c : Channel) (k : ℕ) : Prop :=
  c.stand k = some .reading ∨ ∃ key, c.stand k = some (.seek key true)

theorem Active.actor (h : c.Active k) : c.parked k = false ∧ c.stand k ≠ some .returned := by
  rcases h with h | ⟨key, h⟩ <;> simp [parked, h, Stand.parked]

theorem Active.exists_stand (h : c.Active k) : ∃ y, c.stand k = some y := by
  rcases h with h | ⟨key, h⟩
  all_goals exact ⟨_, h⟩

theorem ne_some_of_eq_some {r : Option ℕ} (h : r = some k) (hj : j ≠ k) : r ≠ some j := by
  intro hr
  exact hj (mem_unique hr h)

/-- The reader stops, with everyone woken. -/
theorem Change.stop {r : Outcome} (hfares : Fares c (d.stop k r) Stand.woken) (hactive : c.Active k)
    (hreader : c.reader = some k) (hkey : ∀ j, d.key j = c.key j)
    (hstand : ∀ j, (d.stand j).map Stand.woken = (c.stand j).map Stand.woken) :
    Change c (d.stop k r) (some k) Stand.woken := by
  obtain ⟨y, hy⟩ := hactive.exists_stand
  have hk : ({ d with reader := none }.wake).stand k = some y.woken := by
    rw [stand_wake]
    exact (hstand k).trans (by rw [hy, map_some])
  refine .of_moveTo hfares (.inr rfl) (fun j _ => (key_wake _ j).trans (hkey j))
    (fun j _ => (stand_wake _ j).trans (hstand j)) hk hactive.actor rfl ?_ ?_ nofun nofun nofun
  · exact ⟨nofun, nofun⟩
  · intro j hj
    exact ⟨nofun, fun h => absurd h (ne_some_of_eq_some hreader hj)⟩

theorem Change.fail (why : String) (hactive : c.Active k) (hreader : c.reader = some k)
    (hkey : ∀ j, d.key j = c.key j) (hstand : ∀ j, d.stand j = c.stand j)
    (hup : d.up = true → c.up = true) : Change c (d.fail k why) (some k) Stand.woken := by
  refine .stop (.fail (some_ne_none _) (.inl rfl) hup) hactive hreader
    (fun j => (key_wake _ j).trans (hkey j)) fun j => ?_
  rw [stand_wake]
  have hd : ({ d with failure := some why } : Channel).stand j = c.stand j := hstand j
  rw [hd, Option.map_map]
  congr 1
  funext a
  exact Stand.woken_woken a

theorem Change.land {t : ℕ} (hactive : c.Active k) (hreader : c.reader = some k)
    (hkey : ∀ j, d.key j = c.key j) (hstand : ∀ j, d.stand j = c.stand j)
    (hdr : d.reader = c.reader) (hfailure : d.failure = c.failure) (hup : d.up = c.up) :
    Change c (d.land k t) (some k) Stand.woken := by
  have hkey' : ∀ j, (d.alter t fun p => { p with done := true }).key j = c.key j :=
    fun j => by rw [← hkey j]; exact key_alter d t j fun _ => rfl
  have hstand' : ∀ j, (d.alter t fun p => { p with done := true }).stand j = c.stand j :=
    fun j => by rw [← hstand j]; exact stand_alter d t j fun _ => rfl
  rw [Channel.land]
  split_ifs with ht
  · exact .stop (.same hfailure hup fun h => absurd rfl h) hactive hreader hkey' fun j => by
      rw [hstand' j]
  · obtain ⟨y, hy⟩ := hactive.exists_stand
    refine .of_moveTo (.same hfailure hup fun _ _ => by simp [hreader]) (.inr rfl)
      (fun j _ => (key_wake _ j).trans (hkey' j)) (fun j _ => by rw [stand_wake, hstand' j])
      (y := y.woken) (by rw [stand_wake, hstand' k, hy, map_some]) hactive.actor rfl ?_ ?_
      (fun h => Stand.noConfusion h) (fun _ => ⟨hup, .inl hreader⟩) fun _ h => Stand.noConfusion h
    · exact ⟨fun _ => hdr.trans hreader, fun _ => rfl⟩
    · intro j _
      exact iff_of_eq (congrArg (· = some j) hdr)

/-- The reader goes on reading, or to look for a post, and nobody is woken. -/
theorem Change.drive (hactive : c.Active k) (hreader : c.reader = some k)
    (hkey : ∀ j, d.key j = c.key j) (hstand : ∀ j, d.stand j = c.stand j)
    (hdr : d.reader = c.reader) (hfailure : d.failure = c.failure) (hup : d.up = c.up)
    (hdrives : a.stand.drives = true) (hsched : a.stand.isScheduled = false)
    (hseek : ∀ key, a.stand = .seek key false → c.waiting key = none) :
    Change c (d.moveTo k a) (some k) fun a => a := by
  obtain ⟨y, hy⟩ := hactive.exists_stand
  refine .of_moveTo (.same hfailure hup fun _ _ => by simp [hreader]) (.inl rfl) (fun j _ => hkey j)
    (fun j _ => by rw [hstand j, Option.map_id']) ((hstand k).trans hy) hactive.actor hsched
    ?_ ?_ ?_ (fun _ => ⟨hup, .inl hreader⟩) fun key h => ⟨rfl, hseek key h⟩
  · exact ⟨fun _ => hdr.trans hreader, fun _ => hdrives⟩
  · intro j _
    exact iff_of_eq (congrArg (· = some j) hdr)
  · intro hidle
    rw [hidle] at hdrives
    cases hdrives

theorem look_of_not_waiting (h : c.waiting key = none) (k length : ℕ) :
    c.look k key length = c.moveTo k (.seek key length false) := by
  rw [Channel.look, h]

/-- The key of the frame is not posted: the reader parks with it. -/
theorem Change.look_of_not_waiting (hactive : c.Active k) (hreader : c.reader = some k)
    (h : c.waiting key = none) (length : ℕ) :
    Change c (c.look k key length) (some k) fun a => a := by
  rw [Channel.look_of_not_waiting h]
  refine .drive hactive hreader (fun _ => rfl) (fun _ => rfl) rfl rfl rfl rfl rfl fun key' hseek =>
    ?_
  obtain ⟨rfl, -⟩ := Stand.seek.inj hseek
  exact h

/-- The key of the frame is posted: the reader reads on, or returns. -/
theorem Change.look_of_waiting (hactive : c.Active k) (hreader : c.reader = some k)
    {p : Posted} {t : ℕ} (h : c.waiting key = some (p, t)) (length : ℕ) :
    ∃ w, Change c (c.look k key length) (some k) w ∧ (c.look k key length).up = c.up ∧
      ((c.look k key length).stand k = some .reading ∨ (c.look k key length).reader = none) := by
  obtain ⟨y, hy⟩ := hactive.exists_stand
  have hkey : ∀ j, (c.alter t fun p => { p with into := [] }).key j = c.key j :=
    fun j => key_alter c t j fun _ => rfl
  have hstand : ∀ j, (c.alter t fun p => { p with into := [] }).stand j = c.stand j :=
    fun j => stand_alter c t j fun _ => rfl
  rw [Channel.look, h]
  dsimp only
  split_ifs
  · exact ⟨_, .fail _ hactive hreader (fun _ => rfl) (fun _ => rfl) fun h => h, rfl, .inr rfl⟩
  · refine ⟨_, .land hactive hreader hkey hstand rfl rfl rfl, ?_⟩
    rw [Channel.land]
    split_ifs with ht
    · exact ⟨rfl, .inr rfl⟩
    · refine ⟨rfl, .inl (stand_moveTo_self (x := y.woken) ?_ _)⟩
      rw [stand_wake, stand_alter, hstand k, hy, map_some]
      exact fun _ => rfl
  · refine ⟨_, Change.drive hactive hreader hkey hstand rfl rfl rfl rfl rfl fun _ h =>
      Stand.noConfusion h, rfl, .inl ?_⟩
    exact stand_moveTo_self ((hstand k).trans hy) _

/-- **What the reader does with a header.** -/
theorem Change.look (hactive : c.Active k) (hreader : c.reader = some k) (key : UInt64)
    (length : ℕ) : ∃ w, Change c (c.look k key length) (some k) w := by
  cases h : c.waiting key with
  | none => exact ⟨_, .look_of_not_waiting hactive hreader h length⟩
  | some found =>
    obtain ⟨w, hc, -⟩ := Change.look_of_waiting hactive hreader h length
    exact ⟨w, hc⟩

/-- **What a receive does that goes round the loop of `recv`.** -/
theorem Change.pass {y : Stand} (done : Bool) (hw : w = (fun a => a) ∨ w = Stand.woken)
    (hactor : c.parked k = false ∧ c.stand k ≠ some .returned)
    (hkey : ∀ j, j ≠ k ∨ w = (fun a => a) → d.key j = c.key j)
    (hstand : ∀ j, j ≠ k → d.stand j = (c.stand j).map w) (hk : d.stand k = some y)
    (hreader : d.reader = c.reader) (hfailure : d.failure = c.failure) (hup : d.up = c.up)
    (hnot : c.reader ≠ some k) : Change c (d.pass k done) (some k) w := by
  -- Unless it takes the socket, the reader stays whoever it was.
  have haside : ∀ a : Place, a.stand.isScheduled = false → a.stand.drives = false →
      (a.stand = .idle → d.failure = none) → Change c (d.moveTo k a) (some k) w := by
    intro a hsched hdrives hidle
    refine .of_moveTo (.same hfailure hup fun h _ => ?_) hw hkey hstand hk hactor hsched ?_ ?_
      hidle ?_ ?_
    · exact fun hnone => h (hreader.trans hnone)
    · rw [hdrives, hreader]
      exact ⟨fun h => absurd h Bool.false_ne_true, fun h => absurd h hnot⟩
    · intro j _
      exact iff_of_eq (congrArg (· = some j) hreader)
    · exact fun h => absurd (hreader.symm.trans h) hnot
    · intro key h
      rw [h] at hdrives
      exact absurd hdrives.symm Bool.false_ne_true
  rw [Channel.pass]
  cases done with
  | true => exact haside _ rfl rfl fun h => Stand.noConfusion h
  | false =>
    cases hf : d.failure with
    | some why => exact haside _ rfl rfl fun h => Stand.noConfusion h
    | none =>
      cases hr : d.reader with
      | some r => exact haside _ rfl rfl fun _ => hf
      | none =>
        have hnone : c.reader = none := hreader.symm.trans hr
        refine .of_moveTo (.same (hf.symm.trans hfailure) hup fun _ h =>
          absurd (hfailure.symm.trans hf) h) hw hkey hstand
          hk hactor rfl ?_ ?_ (fun h => Stand.noConfusion h) (fun _ =>
            ⟨hup, .inr (hfailure.symm.trans hf)⟩)
          fun _ h => Stand.noConfusion h
        · exact ⟨fun _ => rfl, fun _ => rfl⟩
        · intro j hj
          rw [hnone]
          exact ⟨fun h => absurd (some.inj h).symm hj, fun h => absurd h (some_ne_none j).symm⟩

theorem stand_eq_none_iff : c.stand j = none ↔ c.posts.length ≤ j := by
  rw [stand, map_eq_none_iff, List.getElem?_eq_none_iff]

theorem stand_post_of_ne (c : Channel) (key : UInt64) (length : ℕ) (hj : j ≠ c.posts.length) :
    (c.post key length).stand j = c.stand j ∧ (c.post key length).key j = c.key j := by
  have hsame : (c.post key length).posts[j]? = c.posts[j]? := by
    rw [post, getElem?_append]
    by_cases hlt : j < c.posts.length
    · rw [if_pos hlt]
    · rw [if_neg hlt, List.getElem?_eq_none_iff.mpr (by simp; omega),
        List.getElem?_eq_none_iff.mpr (by omega)]
  rw [stand, Channel.key, hsame]
  exact ⟨rfl, rfl⟩

/-- **A receive is posted**, or refused. -/
theorem Change.recv (key : UInt64) (length capacity : ℕ)
    (hpresent : c.reader ≠ some c.posts.length) :
    Change c (c.recv key length capacity) none (fun a => a) ∨
      Change c (c.recv key length capacity) (some c.posts.length) Stand.woken := by
  have hquiet : Change c c none fun a => a := .quiet (fun _ => rfl) (fun _ => rfl) rfl rfl rfl
  rw [Channel.recv]
  split_ifs
  · exact .inl hquiet
  · exact .inl hquiet
  · have hnone : c.stand c.posts.length = none := stand_eq_none_iff.mpr le_rfl
    have hne : Stand.woken ≠ fun a => a := fun h => Stand.noConfusion (congrFun h .idle)
    refine .inr (.pass (y := .scheduled) false (.inr rfl) ?_ ?_ ?_ ?_ rfl rfl rfl hpresent)
    · simp [parked, hnone]
    · rintro j (hj | hid)
      · rw [key_wake, (stand_post_of_ne c key length hj).2]
      · exact absurd hid hne
    · intro j hj
      rw [stand_wake, (stand_post_of_ne c key length hj).1]
    · rw [stand_wake]
      simp [stand, post, Place.stand, Stand.woken]

theorem lose_of_reading (hreader : c.reader = some k) (hread : c.stand k = some .reading)
    (why : String) : c.lose why = some ({ c with up := false }.fail k why) := by
  obtain ⟨p, hp, hplace⟩ := map_eq_some_iff.mp hread
  rw [Channel.lose, hreader, bind_some, hp, bind_some]
  cases h : p.place with
  | header got => rfl
  | payload t => rfl
  | _ => simp [h, Place.stand] at hplace

theorem Change.lose {why : String} (h : c.lose why = some c') :
    ∃ k, c.reader = some k ∧ c.stand k = some .reading ∧ c' = { c with up := false }.fail k why ∧
      Change c c' (some k) Stand.woken := by
  obtain ⟨k, hreader, h⟩ := bind_eq_some_iff.mp h
  obtain ⟨p, hp, h⟩ := bind_eq_some_iff.mp h
  have hread : c.stand k = some .reading ∧ some ({ c with up := false }.fail k why) = some c' := by
    rw [stand, hp, map_some]
    cases hplace : p.place with
    | header got | payload t => exact ⟨rfl, by rw [hplace] at h; exact h⟩
    | _ => simp [hplace] at h
  obtain ⟨hstand, hfail⟩ := hread
  cases hfail
  exact ⟨k, hreader, hstand, rfl, .fail why (.inl hstand) hreader (fun _ => rfl) (fun _ =>
    rfl) nofun⟩

/-- The bytes on the wire are nothing to the stands. -/
theorem Change.of_pipe {pipe : Bytes} {k : Option ℕ} (h : Change { c with pipe } c' k w) :
    Change c c' k w :=
  ⟨{ h with }, h.wakes, h.key, h.other, h.self, h.actor, h.known, h.reader⟩

theorem Change.read {n : ℕ} (h : c.read n = some c') : c.up = true ∧
    (Change c c' none (fun a => a) ∨ ∃ k w, c.reader = some k ∧ c.stand k = some .reading ∧
      Change c c' (some k) w) := by
  rw [Channel.read, ite_none_right_eq_some] at h
  obtain ⟨⟨hup, -⟩, h⟩ := h
  obtain ⟨k, hreader, h⟩ := bind_eq_some_iff.mp h
  obtain ⟨r, hr, h⟩ := bind_eq_some_iff.mp h
  have hstand : c.stand k = some r.place.stand := by rw [stand, hr, map_some]
  refine ⟨hup, ?_⟩
  cases hplace : r.place with
  | header got =>
    rw [hplace] at h hstand
    dsimp only at h
    split_ifs at h
    · cases h
      refine .inl (.quiet (fun j => key_moveTo _ k j _) (fun j => ?_) rfl rfl rfl)
      by_cases hj : j = k
      · subst hj
        exact (stand_moveTo_self (c := { c with pipe := c.pipe.drop n }) hstand _).trans hstand.symm
      · exact stand_moveTo_of_ne _ hj _
    · cases h
      obtain ⟨w, hlook⟩ := Change.look (c := { c with pipe := c.pipe.drop n }) (.inl hstand) hreader
        (UInt64.ofNat (ofLE ((got ++ c.pipe.take n).take 8)))
        (ofLE (((got ++ c.pipe.take n).drop 8).take 4))
      exact .inr ⟨k, w, hreader, hstand, hlook.of_pipe⟩
  | payload t =>
    rw [hplace] at h hstand
    obtain ⟨p, -, h⟩ := bind_eq_some_iff.mp h
    dsimp only at h
    split_ifs at h
    · cases h
      exact .inl (.quiet (fun j => key_alter _ t j fun _ => rfl) (fun j =>
        stand_alter _ t j fun _ => rfl) rfl rfl rfl)
    · cases h
      exact .inr ⟨k, _, hreader, hstand,
        .land (.inl hstand) hreader (fun j => key_alter _ t j fun _ => rfl)
        (fun j => stand_alter _ t j fun _ => rfl) rfl rfl rfl⟩
  | _ => simp [hplace] at h

theorem Change.resume (hdrives : ∀ x, c.stand k = some x → (x.drives = true ↔ c.reader = some k))
    (h : c.resume k = some c') : ∃ w, Change c c' (some k) w := by
  obtain ⟨p, hp, h⟩ := bind_eq_some_iff.mp h
  have hstand : c.stand k = some p.place.stand := by rw [stand, hp, map_some]
  cases hplace : p.place with
  | scheduled =>
    rw [hplace] at h hstand
    cases h
    have hnot : c.reader ≠ some k := fun hr => Bool.false_ne_true ((hdrives _ hstand).mpr hr)
    refine ⟨_, .pass p.done (.inl rfl) ?_ (fun _ _ => rfl) (fun _ _ => (Option.map_id' ..).symm)
      hstand rfl rfl rfl hnot⟩
    simp [parked, hstand, Place.stand, Stand.parked]
  | seek key length woken =>
    rw [hplace] at h hstand
    cases woken with
    | false => simp at h
    | true =>
      cases h
      exact Change.look (.inr ⟨key, hstand⟩) ((hdrives _ hstand).mp rfl) key length
  | _ => simp [hplace] at h

namespace Change

variable {c c' : Channel} {k : Option ℕ} {w : Stand → Stand}

section

variable (h : Change c c' k w)
include h

/-- Where somebody that does not act was before. -/
theorem stand_eq_some (hj : k ≠ some j) {x : Stand} (hx : c'.stand j = some x) :
    ∃ a, c.stand j = some a ∧ w a = x := by
  rw [h.other j hj] at hx
  exact map_eq_some_iff.mp hx

theorem reading_iff (hj : k ≠ some j) : c'.stand j = some .reading ↔ c.stand j = some .reading := by
  rw [h.other j hj]
  rcases h.wakes with rfl | rfl
  · simp
  · simp

theorem due_of_due (hj : k ≠ some j) (hdue : c.due j = true) : c'.due j = true := by
  rw [due_eq_true] at hdue ⊢
  rcases hdue with ⟨a, ha, hsched⟩ | ⟨hread, hup⟩
  · refine .inl ⟨w a, by rw [h.other j hj, ha, map_some], ?_⟩
    rcases h.wakes with rfl | rfl
    · exact hsched
    · rw [Stand.isScheduled_woken, hsched, Bool.true_or]
  · refine .inr ⟨(h.reading_iff hj).mpr hread, Bool.eq_false_iff.mpr fun hup' => ?_⟩
    exact Bool.false_ne_true (hup.symm.trans (h.up hup'))

/-- Nobody comes into the queue of the loop but from where it was owed something. -/
theorem due_or_parked (hj : k ≠ some j) (hdue : c'.due j = true) :
    c.due j = true ∨ c.parked j = true ∨ c.up = true ∧ c'.up = false ∧
    c'.stand j = some .reading := by
  rcases due_eq_true.mp hdue with ⟨x, hx, hsched⟩ | ⟨hread, hup⟩
  · obtain ⟨a, ha, rfl⟩ := h.stand_eq_some hj hx
    rcases h.wakes with rfl | rfl
    · exact .inl (due_eq_true.mpr (.inl ⟨a, ha, hsched⟩))
    · rw [Stand.isScheduled_woken, Bool.or_eq_true] at hsched
      rcases hsched with hsched | hparked
      · exact .inl (due_eq_true.mpr (.inl ⟨a, ha, hsched⟩))
      · exact .inr (.inl (parked_eq_true.mpr ⟨a, ha, hparked⟩))
  · cases hup' : c.up with
    | false => exact .inl (due_eq_true.mpr (.inr ⟨(h.reading_iff hj).mp hread, hup'⟩))
    | true => exact .inr (.inr ⟨rfl, hup, hread⟩)

/-- If nobody is woken, a key that nobody had posted is still not posted. -/
theorem waiting_eq_none_of_same (hw : w = fun a => a) (hnone : c.waiting key = none) :
    c'.waiting key = none := by
  rw [waiting_eq_none_iff_stand] at hnone ⊢
  intro j hkey
  by_cases hj : k = some j
  · rw [h.known j hj hw] at hkey
    exact absurd (hnone j hkey) (h.actor j hj).2
  · rw [h.key j hj] at hkey
    rw [h.other j hj, hnone j hkey, hw, map_some]

end

end Change
end Channel
end Rail.Transport
