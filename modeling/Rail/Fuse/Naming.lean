import Rail.Foundation.Names
import Rail.Foundation.Runs
import Mathlib.Logic.Function.Basic

/-!
# Which file a handle reaches

`src/fuse/mount.cc`: `heldFor`, `currentSize`, `doOpen`, `doCreate`, `doRename`, `doRemove`
and `doRelease`, over the sessions of `Remotes` and the files that the daemon keeps open for each
session (`Pinned` in `src/file-service.cc`).

A `File` records the path it was opened by, and for every session slot the daemon's handle
on it together with the generation of the session that gave the handle out.  A read, a write
or a flush is lent a slot by the pool.  When the handle recorded for the slot is of the
session that is up, the daemon's open descriptor is used, and that is the file opened,
whatever its name is by now.  Otherwise `heldFor` opens the recorded path again.  A read that
streams and comes to the end it knows of asks for the size of the recorded path
(`currentSize`), and no handle at all takes part in that.

A rename does not change the path a `File` has recorded, so that the last two may reach
another file (`reopened_after_rename`).  It is the right file as long as the path, and the
directories above it, have been left alone since the file was opened
(`accesses_reach_opened_file`).

The tree has no symbolic links on the way to a file: the kernel follows links itself, and
names the file by directories.  Everything an operation on the tree refuses leaves the state
as it was.
-/

namespace Rail.Fuse

open Option Function Names

/-- `File::Pinned`: the daemon's handle, and the session it is of; zero is no handle. -/
structure Pinned where
  handle : ℕ := 0
  generation : ℕ := 0
  deriving DecidableEq

/-- The fields of `File` that say which file it is, the file it was opened on, and whether the
path has been left alone since. -/
structure Opened where
  path : Path
  onSlot : ℕ → Pinned := fun _ => {}
  id : ℕ
  kept : Bool := true

/-- `F.OnSlot[Slot] = ...`. -/
def Opened.pin (f : Opened) (slot : ℕ) (p : Pinned) : Opened :=
  { f with onSlot := Function.update f.onSlot slot p }

theorem Opened.pin_self (f : Opened) (slot : ℕ) (p : Pinned) : (f.pin slot p).onSlot slot = p := by
  unfold Opened.pin
  exact update_self ..

variable {s : ℕ}

theorem Opened.pin_of_ne (f : Opened) {slot : ℕ} (p : Pinned) (hs : s ≠ slot) :
    (f.pin slot p).onSlot s = f.onSlot s := by
  unfold Opened.pin
  exact update_of_ne hs ..

/-- The daemon's side of a session: the files it keeps open, and its next handle. -/
structure Session where
  pinned : ℕ → Option ℕ := fun _ => none
  next : ℕ := 1

/-- A slot of the pool, with the session that is up in it. -/
structure Slot where
  generation : ℕ := 0
  client : Option Session := none

/-- An access that reached a file: the one its handle was opened on, and the one reached. -/
structure Access where
  opened : ℕ
  reached : ℕ
  deriving DecidableEq

/-- The mount, the tree of the peer and the sessions between them. -/
structure Naming where
  tree : Tree
  /-- Files are numbered as they are made. -/
  made : ℕ
  slots : ℕ → Slot := fun _ => {}
  files : ℕ → Option Opened := fun _ => none
  next : ℕ := 1
  accesses : List Access := []

/-- What happens next.  `fits` says whether the daemon's limits leave room for one more open
file. -/
inductive NameAction where
  | openFile (path : Path) (slot : ℕ) (fits : Bool)
  | create (path : Path) (slot : ℕ) (fits : Bool)
  /-- A read, a write or a flush on a handle. -/
  | access (n slot : ℕ) (fits : Bool)
  /-- A streamed read asks for the size of the file. -/
  | size (n slot : ℕ)
  | rename (src dst : Path)
  | remove (path : Path)
  | removeDirectory (path : Path)
  | makeDirectory (path : Path)
  /-- A session is given up, by any request that failed on it. -/
  | discard (slot : ℕ)
  | release (n : ℕ)
  deriving DecidableEq

/-- The daemon's `onOpen`: the session, the new handle, and the file. -/
def Session.openFile (s : Session) (t : Tree) (path : Path) (fits : Bool) :
    Option (Session × ℕ × ℕ) :=
  match get t path with
  | some (.file id) =>
    if fits then
      some ({ pinned := Function.update s.pinned s.next (some id), next := s.next + 1 }, s.next, id)
    else none
  | _ => none

/-- `Remotes::claim`: a slot without a session gets a new one. -/
def Slot.claim (s : Slot) : Slot :=
  match s.client with
  | some _ => s
  | none => ⟨s.generation + 1, some {}⟩

/-- The session of a slot that was claimed. -/
def Slot.session (s : Slot) : Session := s.client.getD {}

namespace Naming

variable (m : Naming)

/-- `Remotes::take` with the slot it hands out. -/
def take (slot : ℕ) : Naming :=
  { m with slots := Function.update m.slots slot (m.slots slot).claim }

/-- The session of a slot goes on. -/
def setSession (slot : ℕ) (s : Session) : Naming :=
  { m with slots := Function.update m.slots slot { m.slots slot with client := some s } }

/-- `Files::open`. -/
def addFile (f : Opened) : Naming :=
  { m with files := Function.update m.files m.next (some f), next := m.next + 1 }

def setFile (n : ℕ) (f : Opened) : Naming :=
  { m with files := Function.update m.files n (some f) }

def record (a : Access) : Naming := { m with accesses := m.accesses ++ [a] }

/-- The test of `heldFor`: the handle recorded for the slot is of the session that is up. -/
def live (f : Opened) (slot : ℕ) : Bool :=
  decide ((f.onSlot slot).handle ≠ 0) &&
    decide ((f.onSlot slot).generation = (m.slots slot).generation)

/-- `heldFor` on a claimed slot, and the access with the handle it leaves. -/
def reach (n : ℕ) (f : Opened) (slot : ℕ) (fits : Bool) : Naming :=
  if m.live f slot then
    match (m.slots slot).session.pinned (f.onSlot slot).handle with
    | some id => m.record ⟨f.id, id⟩
    | none => m
  else
    match (m.slots slot).session.openFile m.tree f.path fits with
    | some (s, handle, id) =>
      ((m.setSession slot s).setFile n (f.pin slot ⟨handle, (m.slots slot).generation⟩)).record
        ⟨f.id, id⟩
    | none => m

/-- `currentSize` of the recorded path; a directory has a size as well, but is no file. -/
def currentSize (f : Opened) : Naming :=
  match get m.tree f.path with
  | some (.file id) => m.record ⟨f.id, id⟩
  | _ => m

/-- `doOpen` on a claimed slot. -/
def openAt (path : Path) (slot : ℕ) (fits : Bool) : Naming :=
  match (m.slots slot).session.openFile m.tree path fits with
  | some (s, handle, id) =>
    (m.setSession slot s).addFile
      (Opened.pin { path, id } slot ⟨handle, (m.slots slot).generation⟩)
  | none => m

/-- `doCreate` on a claimed slot: the file is made, or found, and then opened by its path.  It
is handed out also when the daemon does not open it. -/
def createAt (path : Path) (slot : ℕ) (fits : Bool) : Naming :=
  match Names.create m.tree m.made path with
  | none => m
  | some t =>
    let m := { m with tree := t, made := m.made + 1 }
    match (m.slots slot).session.openFile m.tree path fits, get t path with
    | some _, _ => m.openAt path slot fits
    | none, some (.file id) => m.addFile { path, id }
    | none, _ => m

/-- The tree changes; files whose path an operation was given, or one above it, are no longer
left alone. -/
def changeTree (t : Tree) (touched : Path → Bool) : Naming :=
  { m with
    tree := t
    files := fun n => (m.files n).map fun f => { f with kept := f.kept && !touched f.path } }

/-- `doRelease`: the handles that are of sessions still up are closed. -/
def close (n : ℕ) (f : Opened) : Naming :=
  { m with
    files := Function.update m.files n none
    slots := fun slot =>
      if m.live f slot then
        { m.slots slot with client := (m.slots slot).client.map fun s =>
            { s with pinned := Function.update s.pinned (f.onSlot slot).handle none } }
      else m.slots slot }

/-- One step; what is refused changes nothing. -/
def step : NameAction → Option Naming
  | .openFile path slot fits => some ((m.take slot).openAt path slot fits)
  | .create path slot fits => some ((m.take slot).createAt path slot fits)
  | .access n slot fits =>
    (m.files n).map fun f => (m.take slot).reach n f slot fits
  | .size n slot => (m.files n).map fun f => (m.take slot).currentSize f
  | .rename src dst =>
    match Names.rename m.tree src dst with
    | some t => some (m.changeTree t fun p => decide (src <+: p) || decide (dst <+: p))
    | none => some m
  | .remove path =>
    match Names.unlink m.tree path with
    | some t => some (m.changeTree t fun p => decide (p = path))
    | none => some m
  | .removeDirectory path =>
    match Names.removeDirectory m.tree path with
    | some t => some (m.changeTree t fun p => decide (p = path))
    | none => some m
  | .makeDirectory path =>
    match Names.makeDirectory m.tree path with
    | some t => some { m with tree := t }
    | none => some m
  | .discard slot =>
    some { m with slots := Function.update m.slots slot { m.slots slot with client := none } }
  | .release n => (m.files n).map fun f => m.close n f

/-- A mount with nothing open. -/
def mounted (tree : Tree) (made : ℕ) : Naming := { tree, made }

/-! ## Handles and paths stand for the file that was opened -/

/-- What a file has recorded for a slot is true of the session that is up there. -/
structure Pins (f : Opened) (slot : ℕ) (s : Slot) : Prop where
  past : (f.onSlot slot).generation ≤ s.generation
  stands : (f.onSlot slot).generation = s.generation → ∀ c, s.client = some c →
    (f.onSlot slot).handle < c.next ∧
      ∀ id, c.pinned (f.onSlot slot).handle = some id → id = f.id

/-- The invariant: handles that are live stand for the file that was opened, and so do paths
that were left alone. -/
structure Named (m : Naming) : Prop where
  fresh : ∀ slot c, (m.slots slot).client = some c → 0 < c.next ∧
    ∀ handle, c.next ≤ handle → c.pinned handle = none
  paths : ∀ n f, m.files n = some f → f.kept = true → get m.tree f.path = some (.file f.id)
  pins : ∀ n f slot, m.files n = some f → (f.onSlot slot).handle ≠ 0 → Pins f slot (m.slots slot)
  accesses : ∀ a ∈ m.accesses, a.reached = a.opened

variable {m m' : Naming} {n slot handle id : ℕ} {f : Opened} {c c' : Session} {path : Path}
  {fits : Bool} {a : NameAction}

theorem take_slots_self (m : Naming) (slot : ℕ) :
    (m.take slot).slots slot = (m.slots slot).claim := by
  unfold take
  exact update_self ..

theorem take_slots_of_ne (m : Naming) (hs : s ≠ slot) : (m.take slot).slots s = m.slots s := by
  unfold take
  exact update_of_ne hs ..

theorem claim_client (s : Slot) : ∃ c, s.claim.client = some c := by
  unfold Slot.claim
  split
  · next c hc => exact ⟨c, hc⟩
  · exact ⟨_, rfl⟩

/-- **A new session has none of the handles recorded before**: its generation is new. -/
theorem Named.take (hm : Named m) (slot : ℕ) : Named (m.take slot) := by
  have hclaim : ∀ s, (m.take slot).slots s = m.slots s ∨
      ((m.slots s).client = none ∧
      (m.take slot).slots s = ⟨(m.slots s).generation + 1, some {}⟩) := by
    intro s
    by_cases hs : s = slot
    · subst hs
      rw [take_slots_self]
      unfold Slot.claim
      split
      · exact .inl rfl
      · next hc => exact .inr ⟨hc, rfl⟩
    · exact .inl (take_slots_of_ne m hs)
  refine ⟨fun s c hc => ?_, hm.paths, fun n f s hn hh => ?_, hm.accesses⟩
  · rcases hclaim s with heq | ⟨-, heq⟩
    · rw [heq] at hc
      exact hm.fresh s c hc
    · rw [heq] at hc
      obtain rfl : _ = c := some.inj hc
      exact ⟨Nat.one_pos, fun _ _ => rfl⟩
  · have hp := hm.pins n f s hn hh
    rcases hclaim s with heq | ⟨-, heq⟩
    · rw [heq]
      exact hp
    · rw [heq]
      have := hp.past
      exact ⟨Nat.le_succ_of_le this, fun hg => by simp only at hg; omega⟩

variable {t : Tree}

/-- The daemon opens a file: the session, with the new handle. -/
theorem openFile_eq_some (ho : c.openFile t path fits = some (c', handle, id)) :
    get t path = some (.file id) ∧ handle = c.next ∧
      c' = { pinned := Function.update c.pinned c.next (some id), next := c.next + 1 } := by
  unfold Session.openFile at ho
  split at ho
  · next i hi =>
    split_ifs at ho
    obtain ⟨rfl, rfl, rfl⟩ := by simpa using ho
    exact ⟨hi, rfl, rfl⟩
  · cases ho

theorem setSession_slots_self (m : Naming) (slot : ℕ) (c : Session) :
    (m.setSession slot c).slots slot = ⟨(m.slots slot).generation, some c⟩ := by
  unfold setSession
  exact update_self ..

theorem setSession_slots_of_ne (m : Naming) (c : Session) (hs : s ≠ slot) :
    (m.setSession slot c).slots s = m.slots s := by
  unfold setSession
  exact update_of_ne hs ..

/-- A new handle is none of those recorded. -/
theorem Named.setSession (hm : Named m) (hc : (m.slots slot).client = some c)
    (ho : c.openFile m.tree path fits = some (c', handle, id)) : Named (m.setSession slot c') := by
  obtain ⟨-, -, rfl⟩ := openFile_eq_some ho
  obtain ⟨hpos, hfresh⟩ := hm.fresh slot c hc
  refine ⟨fun s d hd => ?_, hm.paths, fun n f s hn hh => ?_, hm.accesses⟩
  · by_cases hs : s = slot
    · subst hs
      rw [setSession_slots_self] at hd
      obtain rfl : _ = d := some.inj hd
      refine ⟨Nat.succ_pos _, fun handle hle => ?_⟩
      have hne : handle ≠ c.next := by
        rintro rfl
        exact absurd hle (Nat.not_succ_le_self _)
      exact (update_of_ne hne ..).trans (hfresh handle (Nat.le_of_succ_le hle))
    · rw [setSession_slots_of_ne m _ hs] at hd
      exact hm.fresh s d hd
  · have hp := hm.pins n f s hn hh
    by_cases hs : s = slot
    · subst hs
      rw [setSession_slots_self]
      refine ⟨hp.past, fun hg d hd => ?_⟩
      obtain rfl : _ = d := some.inj hd
      obtain ⟨hlt, hid⟩ := hp.stands hg c hc
      refine ⟨Nat.lt_succ_of_lt hlt, fun i hi => hid i ?_⟩
      rw [← hi]
      exact (update_of_ne (Nat.ne_of_lt hlt) ..).symm
    · rw [setSession_slots_of_ne m _ hs]
      exact hp

/-- The handle the daemon has just given out. -/
theorem Pins.of_openFile {g : Opened} (ho : c.openFile m.tree path fits = some (c', handle, id))
    (hid : g.id = id) (hg : g.onSlot slot = ⟨handle, (m.slots slot).generation⟩) :
    Pins g slot ((m.setSession slot c').slots slot) := by
  obtain ⟨-, rfl, rfl⟩ := openFile_eq_some ho
  rw [setSession_slots_self]
  refine ⟨by rw [hg], fun _ d hd => ?_⟩
  obtain rfl : _ = d := some.inj hd
  rw [hg]
  refine ⟨Nat.lt_succ_self _, fun i hi => ?_⟩
  have hi' : Function.update c.pinned c.next (some id) c.next = some i := hi
  rw [update_self] at hi'
  rw [hid, some.inj hi']

section

variable (hm : Named m)
include hm

theorem Named.addFile (hpath : f.kept = true → get m.tree f.path = some (.file f.id))
    (hpins : ∀ s, (f.onSlot s).handle ≠ 0 → Pins f s (m.slots s)) : Named (m.addFile f) := by
  have hcases : ∀ {k g}, (m.addFile f).files k = some g → g = f ∨ m.files k = some g := by
    intro k g hk
    by_cases hkn : k = m.next
    · rw [hkn, show (m.addFile f).files m.next = _ from update_self ..] at hk
      exact .inl (some.inj hk).symm
    · rw [show (m.addFile f).files k = m.files k from update_of_ne hkn ..] at hk
      exact .inr hk
  refine ⟨hm.fresh, fun k g hk => ?_, fun k g s hk => ?_, hm.accesses⟩
  · rcases hcases hk with rfl | hk'
    · exact hpath
    · exact hm.paths k g hk'
  · rcases hcases hk with rfl | hk'
    · exact hpins s
    · exact hm.pins k g s hk'

/-- **`doOpen`** records a handle on the file it has opened. -/
theorem Named.openAt (hc : ∃ c, (m.slots slot).client = some c) :
    Named (m.openAt path slot fits) := by
  obtain ⟨c, hc⟩ := hc
  unfold Naming.openAt
  rw [Slot.session, hc, getD_some]
  split
  · next c' handle id ho =>
    refine (hm.setSession hc ho).addFile (fun _ => (openFile_eq_some ho).1) fun s hs => ?_
    by_cases hslot : s = slot
    · subst hslot
      exact .of_openFile ho rfl (Opened.pin_self _ _ _)
    · rw [Opened.pin_of_ne _ _ hslot] at hs
      exact absurd rfl hs
  · exact hm

theorem Named.setTree (k : ℕ) (ht : ∀ p e, get m.tree p = some e → get t p = some e) :
    Named { m with tree := t, made := k } :=
  { hm with paths := fun n f hn hk => ht _ _ (hm.paths n f hn hk) }

theorem Named.createAt (hc : ∃ c, (m.slots slot).client = some c) :
    Named (m.createAt path slot fits) := by
  unfold Naming.createAt
  split
  · exact hm
  · next t ht =>
    have hm' : Named { m with tree := t, made := m.made + 1 } :=
      hm.setTree _ fun p e hp => get_create ht hp
    simp only
    split
    · exact hm'.openAt hc
    · next id _ hid => exact hm'.addFile (fun _ => hid) fun s hs => absurd rfl hs
    · exact hm'

/-! ## Accesses -/

theorem Named.record (hid : id = f.id) : Named (m.record ⟨f.id, id⟩) := by
  exact { hm with accesses :=
    List.forall_mem_append.mpr ⟨hm.accesses, List.forall_mem_singleton.mpr hid⟩ }

theorem Named.id_eq (hn : m.files n = some f) (hkept : f.kept = true)
    (hid : get m.tree f.path = some (.file id)) : id = f.id := by
  rw [hm.paths n f hn hkept] at hid
  exact (Entry.file.inj (some.inj hid)).symm

theorem Named.currentSize (hn : m.files n = some f) (hkept : f.kept = true) :
    Named (m.currentSize f) := by
  unfold Naming.currentSize
  split
  · next id hid => exact hm.record (hm.id_eq hn hkept hid)
  · exact hm

/-- **An access** through a live handle, or by a path that was left alone. -/
theorem Named.reach (hc : ∃ c, (m.slots slot).client = some c)
    (hn : m.files n = some f) (hok : m.live f slot = true ∨ f.kept = true) :
    Named (m.reach n f slot fits) := by
  obtain ⟨c, hc⟩ := hc
  unfold Naming.reach
  rw [Slot.session, hc, getD_some]
  split_ifs with hlive
  · rw [live, Bool.and_eq_true, decide_eq_true_eq, decide_eq_true_eq] at hlive
    split
    · next id hid =>
      exact hm.record (((hm.pins n f slot hn hlive.1).stands hlive.2 c hc).2 id hid)
    · exact hm
  · split
    · next c' handle id ho =>
      -- the path is opened again, and it still names the file
      have hkept := hok.resolve_left hlive
      have hid := hm.id_eq hn hkept (openFile_eq_some ho).1
      refine Named.record ?_ hid
      have hm' := hm.setSession hc ho
      have hcases : ∀ {k g}, ((m.setSession slot c').setFile n
          (f.pin slot ⟨handle, (m.slots slot).generation⟩)).files k = some g →
          g = f.pin slot ⟨handle, (m.slots slot).generation⟩ ∨ m.files k = some g := by
        intro k g hk
        by_cases hkn : k = n
        · rw [hkn, show ((m.setSession slot c').setFile n _).files n = _ from update_self ..] at hk
          exact .inl (some.inj hk).symm
        · rw [show ((m.setSession slot c').setFile n _).files k =
            m.files k from update_of_ne hkn ..] at hk
          exact .inr hk
      refine ⟨hm'.fresh, fun k g hk hkg => ?_, fun k g s hk hs => ?_, hm'.accesses⟩
      · rcases hcases hk with rfl | hk'
        · exact hm.paths n f hn hkept
        · exact hm.paths k g hk' hkg
      · rcases hcases hk with rfl | hk'
        · by_cases hslot : s = slot
          · subst hslot
            exact .of_openFile ho hid.symm (Opened.pin_self _ _ _)
          · have hsame := f.pin_of_ne ⟨handle, (m.slots slot).generation⟩ hslot
            rw [hsame] at hs
            have hp := hm'.pins n f s hn hs
            exact ⟨by rw [hsame]; exact hp.past, by rw [hsame]; exact hp.stands⟩
        · exact hm'.pins k g s hk' hs
    · exact hm

/-! ## Changes of the tree -/

/-- **An operation on the tree** touches the files whose paths it may change. -/
theorem Named.changeTree {touched : Path → Bool}
    (ht : ∀ p, touched p = false → get t p = get m.tree p) : Named (m.changeTree t touched) := by
  refine ⟨hm.fresh, fun n g hn hk => ?_, fun n g s hn hs => ?_, hm.accesses⟩
  · obtain ⟨f, hf, rfl⟩ := map_eq_some_iff.mp
      (show (m.files n).map _ = some g from hn)
    rw [Bool.and_eq_true, Bool.not_eq_true'] at hk
    rw [show (m.changeTree t touched).tree = t from rfl, ht _ hk.2]
    exact hm.paths n f hf hk.1
  · obtain ⟨f, hf, rfl⟩ := map_eq_some_iff.mp
      (show (m.files n).map _ = some g from hn)
    have hp := hm.pins n f s hf hs
    exact ⟨hp.past, hp.stands⟩

theorem Named.discard (slot : ℕ) :
    Named { m with
      slots := Function.update m.slots slot { m.slots slot with client := none } } := by
  have hcases : ∀ s,
      Function.update m.slots slot { m.slots slot with client := none } s = m.slots s ∨
      Function.update m.slots slot { m.slots slot with client := none } s =
        ⟨(m.slots s).generation, none⟩ := by
    intro s
    by_cases hs : s = slot
    · subst hs
      exact .inr (update_self ..)
    · exact .inl (update_of_ne hs ..)
  refine ⟨fun s c hc => ?_, hm.paths, fun n f s hn hh => ?_, hm.accesses⟩
  · rcases hcases s with heq | heq
    · exact hm.fresh s c ((congrArg Slot.client heq).symm.trans hc)
    · exact absurd ((congrArg Slot.client heq).symm.trans hc) (by simp)
  · have hp := hm.pins n f s hn hh
    show Pins f s (Function.update m.slots slot _ s)
    rcases hcases s with heq | heq
    · rw [heq]
      exact hp
    · rw [heq]
      exact ⟨hp.past, nofun⟩

/-- A handle that is closed stands for nothing. -/
theorem Named.close (n : ℕ) (f : Opened) : Named (m.close n f) := by
  have hcases : ∀ s, (m.close n f).slots s = m.slots s ∨ (m.close n f).slots s =
      { m.slots s with client := (m.slots s).client.map fun c =>
        { c with pinned := Function.update c.pinned (f.onSlot s).handle none } } := by
    intro s
    by_cases hl : m.live f s = true
    · exact .inr (if_pos hl)
    · exact .inl (if_neg hl)
  have hfiles : ∀ {k g}, (m.close n f).files k = some g → m.files k = some g := by
    intro k g hk
    by_cases hkn : k = n
    · rw [hkn, show (m.close n f).files n = none from update_self ..] at hk
      cases hk
    · rwa [show (m.close n f).files k = m.files k from update_of_ne hkn ..] at hk
  have hpinned : ∀ {c : Session} {h i k : ℕ}, Function.update c.pinned h none k = some i →
      c.pinned k = some i := by
    intro c h i k hk
    by_cases hkh : k = h
    · rw [hkh, update_self] at hk
      cases hk
    · rwa [update_of_ne hkh] at hk
  refine ⟨fun s d hd => ?_, fun k g hk => hm.paths k g (hfiles hk), fun k g s hk hs => ?_,
    hm.accesses⟩
  · rcases hcases s with heq | heq
    · rw [heq] at hd
      exact hm.fresh s d hd
    · rw [heq] at hd
      obtain ⟨c, hc, rfl⟩ := map_eq_some_iff.mp hd
      obtain ⟨hpos, hfresh⟩ := hm.fresh s c hc
      refine ⟨hpos, fun h hle => eq_none_iff_forall_ne_some.mpr fun i hi => ?_⟩
      have := hpinned hi
      rw [hfresh h hle] at this
      cases this
  · have hp := hm.pins k g s (hfiles hk) hs
    rcases hcases s with heq | heq
    · rw [heq]
      exact hp
    · rw [heq]
      refine ⟨hp.past, fun hg d hd => ?_⟩
      obtain ⟨c, hc, rfl⟩ := map_eq_some_iff.mp hd
      obtain ⟨hlt, hid⟩ := hp.stands hg c hc
      exact ⟨hlt, fun i hi => hid i (hpinned hi)⟩

end

/-! ## Runs -/

/-- An access whose slot has no live handle is on a file whose path was left alone, and so is a
question for the size. -/
def Followed (m : Naming) : NameAction → Prop
  | .access n slot _ => ∀ f ∈ m.files n, (m.take slot).live f slot = true ∨ f.kept = true
  | .size n _ => ∀ f ∈ m.files n, f.kept = true
  | _ => True

instance (m : Naming) (a : NameAction) : Decidable (m.Followed a) := by
  unfold Followed
  split <;> infer_instance

theorem Named.step (hm : Named m) (ha : m.Followed a) (hs : m.step a = some m') : Named m' := by
  have hclaimed : ∀ slot, ∃ c, ((m.take slot).slots slot).client = some c := fun slot => by
    rw [take_slots_self]
    exact claim_client _
  cases a with
  | openFile path slot fits =>
    rw [← some.inj hs]
    exact (hm.take slot).openAt (hclaimed slot)
  | create path slot fits =>
    rw [← some.inj hs]
    exact (hm.take slot).createAt (hclaimed slot)
  | access n slot fits =>
    obtain ⟨f, hf, rfl⟩ := map_eq_some_iff.mp hs
    exact (hm.take slot).reach (hclaimed slot) hf (ha f hf)
  | size n slot =>
    obtain ⟨f, hf, rfl⟩ := map_eq_some_iff.mp hs
    exact (hm.take slot).currentSize hf (ha f hf)
  | rename src dst =>
    simp only [Naming.step] at hs
    split at hs
    · next t ht =>
      rw [← some.inj hs]
      refine hm.changeTree fun p hp => ?_
      rw [Bool.or_eq_false_iff, decide_eq_false_iff_not, decide_eq_false_iff_not] at hp
      exact get_rename ht hp.1 hp.2
    · rw [← some.inj hs]
      exact hm
  | remove path =>
    simp only [Naming.step] at hs
    split at hs
    · next t ht =>
      rw [← some.inj hs]
      exact hm.changeTree fun p hp => get_unlink ht (of_decide_eq_false hp)
    · rw [← some.inj hs]
      exact hm
  | removeDirectory path =>
    simp only [Naming.step] at hs
    split at hs
    · next t ht =>
      rw [← some.inj hs]
      exact hm.changeTree fun p hp => get_removeDirectory ht (of_decide_eq_false hp)
    · rw [← some.inj hs]
      exact hm
  | makeDirectory path =>
    simp only [Naming.step] at hs
    split at hs
    · next t ht =>
      rw [← some.inj hs]
      exact hm.setTree m.made fun p e hp => get_makeDirectory ht hp
    · rw [← some.inj hs]
      exact hm
  | discard slot =>
    rw [← some.inj hs]
    exact hm.discard slot
  | release n =>
    obtain ⟨f, -, rfl⟩ := map_eq_some_iff.mp hs
    exact hm.close n f

theorem Named.mounted (tree : Tree) (made : ℕ) : Named (Naming.mounted tree made) :=
  ⟨fun _ _ hc => absurd hc (by simp [Naming.mounted]), fun _ _ hn =>
    absurd hn (by simp [Naming.mounted]), fun _ _ _ hn => absurd hn (by simp [Naming.mounted]),
      fun _ ha => absurd ha (by simp [Naming.mounted])⟩

/-- **A handle keeps naming one file.**  Files of any tree are opened, created, renamed and
removed, and sessions are given up, in any order; the pool lends any slot to any access.  Every
read, write and flush that reaches a file reaches the one its handle was opened on: in every run
in which an access whose slot has no live handle, and every question for the size, is on a file
whose path, and the directories above it, no rename or removal has been given since it was
opened. -/
theorem accesses_reach_opened_file {tree : Tree} {made : ℕ} {as : List NameAction}
    (hf : Runs.Meets step Followed (mounted tree made) as)
    (hrun : Runs.exec step (mounted tree made) as = some m) :
    ∀ x ∈ m.accesses, x.reached = x.opened :=
  (Runs.exec_invariant (I := Named) Named.step (.mounted tree made) hf hrun).accesses

/-- A file is read by two slots, asked for its size, and read by both again after it was renamed. -/
def renamedAndRead : List NameAction :=
  [.openFile ["a"] 0 true, .access 1 1 true, .size 1 2, .rename ["a"] ["b"], .create ["a"] 0 true,
    .access 1 0 true, .access 1 1 true, .access 2 1 true]

theorem accesses_reach_opened_file_renamed_and_read :
    ∃ m, Runs.exec step (mounted [([], .dir), (["a"], .file 0)] 1) renamedAndRead = some m ∧
      m.accesses = [⟨0, 0⟩, ⟨0, 0⟩, ⟨0, 0⟩, ⟨0, 0⟩, ⟨1, 1⟩] ∧
      ∀ x ∈ m.accesses, x.reached = x.opened := by
  have hf : Runs.Meets step Followed (mounted [([], .dir), (["a"], .file 0)] 1) renamedAndRead := by
    decide
  exact ⟨_, rfl, rfl, accesses_reach_opened_file hf rfl⟩

/-- **A path is opened again after a rename.**  The file opened as `a` has become `b`, and
there is another `a`; an access that is lent the second slot reaches that one. -/
theorem reopened_after_rename :
    ∃ m, Runs.exec step (mounted [([], .dir), (["a"], .file 0)] 1)
        [.openFile ["a"] 0 true, .rename ["a"] ["b"], .create ["a"] 0 true, .access 1 1 true] =
          some m ∧
      m.accesses = [⟨0, 1⟩] ∧ ¬ ∀ x ∈ m.accesses, x.reached = x.opened :=
  ⟨_, rfl, rfl, by decide⟩

end Naming

end Rail.Fuse
