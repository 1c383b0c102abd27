import Rail.Foundation.Names
import Rail.Foundation.Runs
import Mathlib.Data.List.Nodup
import Mathlib.Order.Lattice

/-!
# The names of the kernel mount and the inodes behind them

`src/linux/railfs-inode.c` (`railfs_inode_for`, `railfs_rehash_inode`), with `railfs_lookup`,
`railfs_create`, `railfs_mkdir_op`, `railfs_remove` and `railfs_rename`.

An inode is hashed by the path it had at the peer when it was made, and `railfs_inode_for` takes the
one that is hashed under a path before it makes another; only a new inode is filled from the
attributes at hand.  An inode leaves the hash when nothing refers to it any more: `drop_inode` is
`generic_delete_inode`, so the last name in the dentry cache or the last open file takes it along.
Nothing else unhashes it.  A file that is removed while it is open keeps its inode hashed under the
path, and the next file made there is given that inode; a file that is renamed over leaves two.  And
the inodes below a renamed directory keep the path they had: the dentries among them that are not in
use are pruned, and those in use stay.

The dentry cache is kept with the inodes: `names` are the paths, as the VFS walks them, of the
dentries an inode is attached to.  The path sent to the peer for a name is that of the directory's
inode with the name appended (`childPath`).  The peer is a tree of names whose files are numbered,
and the number is what the attributes of a file tell it by.
-/

namespace Rail.Kernel

open List Option
open Names (Path Entry Tree)

/-- A hashed inode.  `entry` is what it was filled from, `opens` the open files and other holds that
are not dentries, and `address` tells it from every other inode. -/
structure Hashed where
  address : ℕ
  path : Path
  entry : Entry
  opens : ℕ := 0
  names : List Path := []
  deriving DecidableEq

namespace Hashed

def alive (i : Hashed) : Bool := decide (0 < i.opens) || !i.names.isEmpty

/-- The dentries at and below a path leave the cache. -/
def forget (p : Path) (i : Hashed) : Hashed :=
  { i with names := i.names.filter fun n => !decide (p <+: n) }

/-- `d_move`: a dentry takes the place of another, and what is below it goes along. -/
def retarget (p q : Path) (i : Hashed) : Hashed :=
  { i with names := i.names.map fun n => if p <+: n then q ++ n.drop p.length else n }

/-- Whether a name is kept by an open file, which holds the dentries above it too. -/
def pins (n : Path) (i : Hashed) : Bool :=
  decide (0 < i.opens) && i.names.any fun o => decide (n <+: o)

/-- Whether an open file has a name strictly below a path. -/
def opensBelow (p : Path) (i : Hashed) : Bool :=
  decide (0 < i.opens) && i.names.any fun n => decide (p <+: n) && decide (p ≠ n)

end Hashed

/-- A mount and its peer.  `attached` has, for each file made, what the inode given to its name was
filled from and the file itself. -/
structure Mount where
  tree : Tree
  made : ℕ
  inodes : List Hashed := []
  allocated : ℕ := 0
  attached : List (Entry × Entry) := []
  deriving DecidableEq

namespace Mount

variable (m : Mount)

/-- Every inode is changed by `f`, and those nothing refers to any more go. -/
def update (f : Hashed → Hashed) : Mount :=
  { m with inodes := (m.inodes.map f).filter Hashed.alive }

variable (p : Path)

/-- The inode a cached name is attached to. -/
def holder : Option Hashed := m.inodes.find? fun i => decide (p ∈ i.names)

/-- The path that the inode of a directory carries. -/
def dirPath (d : Path) : Option Path :=
  if d = [] then some []
  else (m.inodes.find? fun i => decide (d ∈ i.names) && decide (i.entry = .dir)).map Hashed.path

/-- `railfs_child_path`. -/
def childPath : Option Path :=
  if p = [] then none else (m.dirPath p.dropLast).map (· ++ p.drop (p.length - 1))

/-- `iget5_locked`: the inode hashed under a path. -/
def hashed (path : Path) : Option Hashed := m.inodes.find? fun i => decide (i.path = path)

/-- A new inode, filled from attributes, for a name. -/
def instantiate (p path : Path) (e : Entry) : Mount :=
  { m with
    inodes := { address := m.allocated, path, entry := e, names := [p] } :: m.inodes
    allocated := m.allocated + 1 }

/-- `railfs_inode_for` and `d_instantiate`: an inode that is hashed already is not filled again. -/
def attach (p path : Path) (e : Entry) : Mount :=
  match m.hashed path with
  | none => m.instantiate p path e
  | some i =>
      m.update fun j => if j.address = i.address then { j with names := p :: j.names } else j

/-- `railfs_inode_for` and `d_splice_alias`: a directory has one dentry, which moves. -/
def splice (p path : Path) (e : Entry) : Mount :=
  match m.hashed path with
  | some { entry := .dir, names := old :: _, .. } => m.update (Hashed.retarget old p)
  | _ => m.attach p path e

/-- `railfs_lookup` and `railfs_prime`, of a name that is not cached. -/
def lookup : Option Mount :=
  if (m.holder p).isNone then
    (m.childPath p).map fun path =>
      match Names.get m.tree path with
      | none => m
      | some e => m.splice p path e
  else none

/-- What the inode under a path was filled from. -/
def filled (path : Path) (e : Entry) : Entry := ((m.hashed path).map Hashed.entry).getD e

/-- `railfs_create`. -/
def create (m : Mount) (p : Path) : Option Mount :=
  if (m.holder p).isNone then
    (m.childPath p).bind fun path =>
    (Names.create m.tree m.made path).bind fun t =>
    (Names.get t path).map fun e =>
      { m.attach p path e with
        tree := t
        made := m.made + 1
        attached := (m.filled path e, e) :: m.attached }
  else none

/-- `railfs_mkdir_op`. -/
def makeDirectory (m : Mount) (p : Path) : Option Mount :=
  if (m.holder p).isNone then
    (m.childPath p).bind fun path =>
    (Names.makeDirectory m.tree path).map fun t => { m.attach p path .dir with tree := t }
  else none

/-- `railfs_remove` and `d_delete`, with the operation of the peer. -/
def remove (op : Tree → Path → Option Tree) (p : Path) : Option Mount :=
  (m.holder p).bind fun _ =>
  (m.childPath p).bind fun path =>
  (op m.tree path).map fun t => { m.update (Hashed.forget p) with tree := t }

def unlink (m : Mount) (p : Path) : Option Mount := m.remove Names.unlink p

def removeDirectory (m : Mount) (p : Path) : Option Mount := m.remove Names.removeDirectory p

/-- `railfs_rehash_inode`. -/
def rehash (p path : Path) (i : Hashed) : Hashed := if p ∈ i.names then { i with path } else i

/-- `shrink_dcache_parent`: the dentries below a path that nothing holds go. -/
def prune (i : Hashed) : Hashed :=
  { i with names := i.names.filter fun n =>
      !(decide (p <+: n) && decide (p ≠ n)) || m.inodes.any (Hashed.pins n) }

/-- What a rename does to an inode: the one renamed is hashed anew, the dentries below it are pruned
where it is a directory, and it takes the place of the target in the cache. -/
def renamed (dir : Bool) (p q path : Path) (i : Hashed) : Hashed :=
  Hashed.retarget p q
    (Hashed.forget q (if dir then m.prune p (rehash p path i) else rehash p path i))

/-- `railfs_rename` and `d_move`.  The VFS has both names looked up and refuses a directory above or
below itself; two names of one inode it leaves as they are. -/
def rename (m : Mount) (p q : Path) : Option Mount :=
  (m.holder p).bind fun i =>
  (m.childPath p).bind fun src =>
  (m.childPath q).bind fun dst =>
    if ¬ p <+: q ∧ ¬ q <+: p ∧ m.holder q ≠ some i ∧
      (Names.get m.tree dst = none ∨ (m.holder q).isSome) then
      (Names.rename m.tree src dst).map fun t =>
        { m.update (m.renamed (decide (i.entry = .dir)) p q dst) with tree := t }
    else none

/-- An open file, or anything else that holds the inode. -/
def opened : Option Mount :=
  (m.holder p).map fun _ => m.update fun i =>
    if p ∈ i.names then { i with opens := i.opens + 1 } else i

def close (a : ℕ) : Mount :=
  m.update fun i => if i.address = a then { i with opens := i.opens - 1 } else i

/-- Memory pressure takes a dentry that nothing holds and nothing is below. -/
def shrink : Option Mount :=
  if (m.inodes.all fun i => i.names.all fun n => !decide (p <+: n) ||
    (decide (n = p) && decide (i.opens = 0)))
  then some (m.update (Hashed.forget p)) else none

/-- `railfs_revalidate`: a name is dropped when the peer does not have the path of its inode. -/
def revalidate : Option Mount :=
  (m.holder p).map fun i =>
    if Names.get m.tree i.path = none then m.update (Hashed.forget p) else m

inductive Event where
  | lookup (p : Path)
  | create (p : Path)
  | makeDirectory (p : Path)
  | unlink (p : Path)
  | removeDirectory (p : Path)
  | rename (p q : Path)
  | opened (p : Path)
  | close (a : ℕ)
  | shrink (p : Path)
  | revalidate (p : Path)
  deriving DecidableEq

end Mount

open Mount (Event)

def Mount.step (m : Mount) : Event → Option Mount
  | .lookup p => m.lookup p
  | .create p => m.create p
  | .makeDirectory p => m.makeDirectory p
  | .unlink p => m.unlink p
  | .removeDirectory p => m.removeDirectory p
  | .rename p q => m.rename p q
  | .opened p => m.opened p
  | .close a => some (m.close a)
  | .shrink p => m.shrink p
  | .revalidate p => m.revalidate p

/-- A mount that nothing has been looked up on. -/
def mounted (tree : Tree) (made : ℕ) : Mount := { tree, made }

namespace Mount

/-- No open file has the name. -/
def shut (m : Mount) (p : Path) : Bool :=
  m.inodes.all fun i => !decide (p ∈ i.names) || decide (i.opens = 0)

/-- **The condition.**  What is removed or renamed over is not open, and nothing is open below a
directory that is renamed. -/
def released (m : Mount) : Event → Bool
  | .unlink p => m.shut p
  | .removeDirectory p => m.shut p
  | .rename p q => m.shut q && m.inodes.all fun i => !i.opensBelow p
  | _ => true

/-! ## The invariant -/

variable {m m' : Mount} {p q : Path} {i j : Hashed}

/-- An inode has the one dentry its path is that of, the peer has there what it was filled from, and
the directories above it are cached. -/
structure Placed (m : Mount) (i : Hashed) : Prop where
  names : i.names = [i.path]
  entry : Names.get m.tree i.path = some i.entry
  above : ∀ d, d ≠ [] → d <+: i.path → d ≠ i.path → ∃ k ∈ m.inodes, k.path = d ∧ k.entry = .dir

structure Sound (m : Mount) : Prop where
  placed : ∀ i ∈ m.inodes, Placed m i
  distinct : (m.inodes.map Hashed.path).Nodup
  attached : ∀ a ∈ m.attached, a.1 = a.2

theorem Sound.mounted (tree : Tree) (made : ℕ) : (Kernel.mounted tree made).Sound :=
  ⟨fun i hi => absurd hi (by simp [Kernel.mounted]), nodup_nil, fun a ha =>
    absurd ha (by simp [Kernel.mounted])⟩

theorem Sound.mem_names (hs : m.Sound) (hi : i ∈ m.inodes) : p ∈ i.names ↔ i.path = p := by
  rw [(hs.placed i hi).names, mem_singleton, eq_comm]

theorem Sound.eq_of_path (hs : m.Sound) (hi : i ∈ m.inodes) (hj : j ∈ m.inodes)
    (h : i.path = j.path) : i = j :=
  inj_on_of_nodup_map hs.distinct hi hj h

/-- The path sent to the peer is the one that was walked. -/
theorem Sound.dirPath (hs : m.Sound) {d d' : Path} (h : m.dirPath d = some d') :
    d' = d ∧ (d ≠ [] → ∃ k ∈ m.inodes, k.path = d ∧ k.entry = .dir) := by
  rw [Mount.dirPath] at h
  split_ifs at h with hd
  · exact ⟨by rw [hd]; exact (some.inj h).symm, fun hne => absurd hd hne⟩
  · obtain ⟨k, hk, rfl⟩ := map_eq_some_iff.mp h
    have hmem := mem_of_find?_eq_some hk
    have hprop := find?_some hk
    rw [Bool.and_eq_true, decide_eq_true_iff, decide_eq_true_iff, hs.mem_names hmem] at hprop
    exact ⟨hprop.1, fun _ => ⟨k, hmem, hprop⟩⟩

variable {f : Hashed → Hashed} {t : Tree} {path : Path}

section

variable (hs : m.Sound)
include hs

/-- The directories above a path whose parent is found are cached. -/
theorem Sound.childPath (h : m.childPath p = some path) :
    path = p ∧ ∀ d, d ≠ [] → d <+: p → d ≠ p → ∃ k ∈ m.inodes, k.path = d ∧ k.entry = .dir := by
  rw [Mount.childPath] at h
  obtain ⟨hp, h⟩ := ite_none_left_eq_some.mp h
  obtain ⟨d', hd', rfl⟩ := map_eq_some_iff.mp h
  obtain ⟨rfl, hdir⟩ := hs.dirPath hd'
  refine ⟨by rw [dropLast_eq_take, take_append_drop], fun d hd hpre hne => ?_⟩
  have hup := Names.prefix_dropLast hpre hne
  obtain ⟨k, hk, hpath, hentry⟩ := hdir (fun hnil => hd (prefix_nil.mp (hnil ▸ hup)))
  by_cases heq : d = p.dropLast
  · exact ⟨k, hk, hpath.trans heq.symm, hentry⟩
  · exact (hs.placed k hk).above d hd (hpath ▸ hup) (hpath ▸ heq)

theorem Sound.not_holder (h : (m.holder p).isNone = true) (hi : i ∈ m.inodes) : i.path ≠ p := by
  intro hp
  have hnone := find?_eq_none.mp (isNone_iff_eq_none.mp h) i hi
  rw [decide_eq_true_iff, hs.mem_names hi] at hnone
  exact hnone hp

theorem Sound.hashed_eq_none (h : (m.holder p).isNone = true) : m.hashed p = none := by
  refine find?_eq_none.mpr fun i hi => ?_
  rw [decide_eq_true_iff]
  exact hs.not_holder h hi

theorem Sound.holder (h : m.holder p = some i) : i ∈ m.inodes ∧ i.path = p := by
  have hmem := mem_of_find?_eq_some h
  have hprop := find?_some h
  rw [decide_eq_true_iff, hs.mem_names hmem] at hprop
  exact ⟨hmem, hprop⟩

/-! ## Names that are made -/

theorem Sound.attach (h : (m.holder p).isNone = true) (e : Entry) :
    m.splice p p e = m.instantiate p p e ∧ m.attach p p e = m.instantiate p p e := by
  have hnone := hs.hashed_eq_none h
  constructor
  · simp only [Mount.splice, Mount.attach, hnone]
  · simp only [Mount.attach, hnone]

/-- **A new inode, and a tree that has what it was filled from and all there was.** -/
theorem Sound.instantiate (hfree : (m.holder p).isNone = true) (hchild : m.childPath p = some path)
    {e : Entry} {made : ℕ} {attached : List (Entry × Entry)} (hnew : Names.get t p = some e)
    (hold : ∀ q e, Names.get m.tree q = some e → Names.get t q = some e)
    (hatt : ∀ a ∈ attached, a.1 = a.2) :
    Sound { m.instantiate p p e with tree := t, made, attached } := by
  have habove := (hs.childPath hchild).2
  refine ⟨fun i hi => ?_, ?_, hatt⟩
  · rcases mem_cons.mp hi with rfl | hi
    · refine ⟨rfl, hnew, fun d hd hpre hne => ?_⟩
      obtain ⟨k, hk, hpath⟩ := habove d hd hpre hne
      exact ⟨k, mem_cons_of_mem _ hk, hpath⟩
    · have hplaced := hs.placed i hi
      refine ⟨hplaced.names, hold _ _ hplaced.entry, fun d hd hpre hne => ?_⟩
      obtain ⟨k, hk, hpath⟩ := hplaced.above d hd hpre hne
      exact ⟨k, mem_cons_of_mem _ hk, hpath⟩
  · refine nodup_cons.mpr ⟨fun hp => ?_, hs.distinct⟩
    obtain ⟨j, hj, hpath⟩ := List.mem_map.mp hp
    exact hs.not_holder hfree hj hpath

theorem Sound.lookup (h : m.lookup p = some m') : m'.Sound := by
  obtain ⟨hfree, h⟩ := ite_none_right_eq_some.mp h
  obtain ⟨path, hchild, h⟩ := map_eq_some_iff.mp h
  obtain ⟨rfl, -⟩ := hs.childPath hchild
  cases hget : Names.get m.tree path with
  | none =>
    rw [hget] at h
    exact h ▸ hs
  | some e =>
    rw [hget] at h
    rw [← h]
    simp only [(hs.attach hfree e).1]
    exact hs.instantiate hfree hchild hget (fun _ _ hq => hq) hs.attached

theorem Sound.create (h : m.create p = some m') : m'.Sound := by
  obtain ⟨hfree, h⟩ := ite_none_right_eq_some.mp h
  obtain ⟨path, hchild, h⟩ := bind_eq_some_iff.mp h
  obtain ⟨rfl, -⟩ := hs.childPath hchild
  obtain ⟨t, ht, h⟩ := bind_eq_some_iff.mp h
  obtain ⟨e, he, rfl⟩ := map_eq_some_iff.mp h
  simp only [(hs.attach hfree e).2]
  refine hs.instantiate hfree hchild he (fun _ _ hq => Names.get_create ht hq)
    (forall_mem_cons.mpr ⟨?_, hs.attached⟩)
  rw [filled, hs.hashed_eq_none hfree]
  rfl

theorem Sound.makeDirectory (h : m.makeDirectory p = some m') : m'.Sound := by
  obtain ⟨hfree, h⟩ := ite_none_right_eq_some.mp h
  obtain ⟨path, hchild, h⟩ := bind_eq_some_iff.mp h
  obtain ⟨rfl, -⟩ := hs.childPath hchild
  obtain ⟨t, ht, rfl⟩ := map_eq_some_iff.mp h
  simp only [(hs.attach hfree .dir).2]
  exact hs.instantiate hfree hchild (Names.get_makeDirectory_self ht)
    (fun _ _ hq => Names.get_makeDirectory ht hq) hs.attached

end

/-! ## Names that go -/

theorem nodup_update (h : (m.inodes.map Hashed.path).Nodup)
    (hf : ∀ i ∈ m.inodes, ∀ j ∈ m.inodes, i.path ≠ j.path → (f i).alive = true →
      (f j).alive = true → (f i).path ≠ (f j).path) :
      ((m.update f).inodes.map Hashed.path).Nodup := by
  rw [List.Nodup, pairwise_map] at h ⊢
  rw [update, pairwise_filter, pairwise_map]
  exact h.imp_of_mem fun hi hj hne hai haj => hf _ hi _ hj hne hai haj

theorem mem_update : i ∈ (m.update f).inodes ↔ ∃ j ∈ m.inodes, f j = i ∧ i.alive = true := by
  rw [update, mem_filter, List.mem_map]
  constructor
  · rintro ⟨⟨j, hj, hi⟩, ha⟩
    exact ⟨j, hj, hi, ha⟩
  · rintro ⟨j, hj, hi, ha⟩
    exact ⟨⟨j, hj, hi⟩, ha⟩

/-- **Inodes go, and the rest stay as they are.**  None that goes is above one that stays. -/
theorem Sound.update (hs : m.Sound) (hsame : ∀ i ∈ m.inodes, (f i).path = i.path ∧
      (f i).entry = i.entry) (hstay : ∀ i ∈ m.inodes, (f i).alive = true →
      (f i).names = i.names ∧ Names.get t i.path = Names.get m.tree i.path)
    (hgo : ∀ i ∈ m.inodes, (f i).alive = false → ∀ j ∈ m.inodes, i.path <+: j.path →
      i.path = j.path) :
    Sound { m.update f with tree := t } := by
  refine ⟨fun i hi => ?_, ?_, hs.attached⟩
  · obtain ⟨j, hj, rfl, ha⟩ := mem_update.mp hi
    have hplaced := hs.placed j hj
    obtain ⟨hpath, hentry⟩ := hsame j hj
    obtain ⟨hnames, hget⟩ := hstay j hj ha
    refine ⟨by rw [hnames, hpath, hplaced.names],
      by rw [hpath, hentry]; exact hget.trans hplaced.entry, fun d hd hpre hne => ?_⟩
    rw [hpath] at hpre hne
    obtain ⟨k, hk, rfl, hdir⟩ := hplaced.above d hd hpre hne
    refine ⟨f k, mem_update.mpr ⟨k, hk, rfl, ?_⟩, (hsame k hk).1, (hsame k hk).2.trans hdir⟩
    by_contra hdead
    exact hne (hgo k hk (Bool.eq_false_iff.mpr hdead) j hj hpre)
  · refine nodup_update hs.distinct fun i hi j hj hne _ _ => ?_
    rw [(hsame i hi).1, (hsame j hj).1]
    exact hne

theorem names_forget_of_not (hplaced : Placed m i) (h : ¬ p <+: i.path) :
    (i.forget p).names = i.names := by
  simp [Hashed.forget, hplaced.names, h]

theorem names_forget_of_pre (hplaced : Placed m i) (h : p <+: i.path) :
    (i.forget p).names = [] := by
  simp [Hashed.forget, hplaced.names, h]

/-- **A name goes that nothing is below and no open file has.** -/
theorem Sound.forget (hs : m.Sound) (hleaf : ∀ i ∈ m.inodes, p <+: i.path → p = i.path)
    (hshut : ∀ i ∈ m.inodes, i.path = p → i.opens = 0)
    (hget : ∀ q, q ≠ p → Names.get t q = Names.get m.tree q) :
    Sound { m.update (Hashed.forget p) with tree := t } := by
  refine hs.update (fun i _ => ⟨rfl, rfl⟩) (fun i hi ha => ?_) fun i hi ha j hj hpre => ?_
  · have hnot : ¬ p <+: i.path := by
      intro hpre
      rw [Hashed.alive, names_forget_of_pre (hs.placed i hi) hpre] at ha
      simp [Hashed.forget, hshut i hi (hleaf i hi hpre).symm] at ha
    exact ⟨names_forget_of_not (hs.placed i hi) hnot, hget _ fun he => hnot (he ▸ prefix_rfl)⟩
  · by_cases hp : p <+: i.path
    · have hpi := hleaf i hi hp
      rw [← hpi] at hpre ⊢
      exact hleaf j hj hpre
    · rw [Hashed.alive, names_forget_of_not (hs.placed i hi) hp, (hs.placed i hi).names] at ha
      simp at ha

theorem Sound.shut (hs : m.Sound) (h : m.shut p = true) (hi : i ∈ m.inodes) (hp : i.path = p) :
    i.opens = 0 := by
  have hall := List.all_eq_true.mp h i hi
  rw [decide_eq_true ((hs.mem_names hi).mpr hp)] at hall
  simpa using hall

/-- What is below a path makes it a directory that is not empty. -/
theorem Sound.below (hs : m.Sound) (hp : p ≠ []) (hi : i ∈ m.inodes) (hpre : p <+: i.path)
    (hne : p ≠ i.path) :
    ∃ k ∈ m.inodes, k.path = p ∧ Names.get m.tree p = some .dir ∧ Names.bare m.tree p = false := by
  obtain ⟨k, hk, hpath, hdir⟩ := (hs.placed i hi).above p hp hpre hne
  refine ⟨k, hk, hpath, ?_, Names.not_bare_of_get (hs.placed i hi).entry hpre hne⟩
  rw [← hpath, (hs.placed k hk).entry, hdir]

theorem ne_nil_of_childPath (h : m.childPath p = some path) : p ≠ [] :=
  (ite_none_left_eq_some.mp h).1

section

variable (hs : m.Sound)
include hs

/-- **The peer removes a path that nothing is below.** -/
theorem Sound.remove {op : Tree → Path → Option Tree} (hok : m.shut p = true)
    (hop : ∀ {t}, op m.tree p = some t →
      (Names.get m.tree p ≠ some .dir ∨ Names.bare m.tree p = true) ∧ ∀ q,
      q ≠ p → Names.get t q = Names.get m.tree q) (h : m.remove op p = some m') : m'.Sound := by
  obtain ⟨_, -, h⟩ := bind_eq_some_iff.mp h
  obtain ⟨path, hchild, h⟩ := bind_eq_some_iff.mp h
  obtain ⟨t, ht, rfl⟩ := map_eq_some_iff.mp h
  obtain ⟨rfl, -⟩ := hs.childPath hchild
  obtain ⟨hleaf, hget⟩ := hop ht
  refine hs.forget (fun i hi hpre => ?_) (fun i hi hp => hs.shut hok hi hp) hget
  by_contra hne
  obtain ⟨k, -, -, hdir, hbare⟩ := hs.below (ne_nil_of_childPath hchild) hi hpre hne
  rcases hleaf with hleaf | hleaf
  · exact hleaf hdir
  · rw [hbare] at hleaf
    exact absurd hleaf (by decide)

theorem Sound.unlink (hok : m.shut p = true) (h : m.unlink p = some m') : m'.Sound := by
  refine hs.remove hok (fun {t} ht => ⟨Or.inl ?_, fun q hq => Names.get_unlink ht hq⟩) h
  obtain ⟨i, hi⟩ := Names.get_of_unlink ht
  rw [hi]
  simp

theorem Sound.removeDirectory (hok : m.shut p = true) (h : m.removeDirectory p = some m') :
    m'.Sound :=
  hs.remove hok (fun ht => ⟨Or.inr (Names.bare_of_removeDirectory ht), fun _ hq =>
    Names.get_removeDirectory ht hq⟩) h

theorem Sound.shrink (h : m.shrink p = some m') : m'.Sound := by
  obtain ⟨hall, h⟩ := ite_none_right_eq_some.mp h
  have hat : ∀ i ∈ m.inodes, p <+: i.path → i.path = p ∧ i.opens = 0 := by
    intro i hi hpre
    have hone := List.all_eq_true.mp (List.all_eq_true.mp hall i hi) i.path
      ((hs.mem_names hi).mpr rfl)
    rw [decide_eq_true hpre] at hone
    simpa using hone
  rw [← some.inj h]
  exact hs.forget (fun i hi hpre => (hat i hi hpre).1.symm)
    (fun i hi hp => (hat i hi (hp ▸ prefix_rfl)).2) fun _ _ => rfl

theorem Sound.revalidate (h : m.revalidate p = some m') : m'.Sound := by
  obtain ⟨i, hi, h⟩ := map_eq_some_iff.mp h
  rw [if_neg] at h
  · exact h ▸ hs
  · rw [(hs.placed i (hs.holder hi).1).entry]
    simp

/-- An inode that keeps its name and path keeps its place, whatever holds it. -/
theorem Sound.hold (hsame : ∀ i, (f i).path = i.path ∧ (f i).entry = i.entry ∧
      (f i).names = i.names) :
    (m.update f).Sound := by
  refine hs.update (fun i _ => ⟨(hsame i).1, (hsame i).2.1⟩) (fun i _ _ => ⟨(hsame i).2.2, rfl⟩)
    fun i hi ha => ?_
  rw [Hashed.alive, (hsame i).2.2, (hs.placed i hi).names] at ha
  simp at ha

theorem Sound.opened (h : m.opened p = some m') : m'.Sound := by
  obtain ⟨_, -, rfl⟩ := map_eq_some_iff.mp h
  refine hs.hold fun i => ?_
  split_ifs
  all_goals exact ⟨rfl, rfl, rfl⟩

theorem Sound.close (a : ℕ) : (m.close a).Sound := by
  refine hs.hold fun i => ?_
  split_ifs
  all_goals exact ⟨rfl, rfl, rfl⟩

end

/-! ## Renames -/

variable {dir : Bool} {path : Path}

theorem renamed_rest (i : Hashed) : (m.renamed dir p q path i).entry = i.entry ∧
    (m.renamed dir p q path i).opens = i.opens ∧
    (m.renamed dir p q path i).path = if p ∈ i.names then path else i.path := by
  simp only [renamed, Hashed.retarget, Hashed.forget, prune, rehash]
  split_ifs
  all_goals exact ⟨rfl, rfl, rfl⟩

theorem names_rehash (i : Hashed) : (rehash p path i).names = i.names := by
  rw [rehash]
  split_ifs
  · rfl
  · rfl

section

variable (hplaced : Placed m i)
include hplaced

/-- The dentry renamed is now at the target. -/
theorem names_renamed_self (hp : i.path = p) (hq : ¬ q <+: p) :
    (m.renamed dir p q path i).names = [q] := by
  have hnames : (if dir then m.prune p (rehash p path i) else rehash p path i).names = [p] := by
    split_ifs
    · simp [prune, names_rehash, hplaced.names, hp]
    · rw [names_rehash, hplaced.names, hp]
  rw [renamed, Hashed.retarget, Hashed.forget, hnames]
  simp [hq]

/-- A dentry below neither name stays. -/
theorem names_renamed_other (hp : ¬ p <+: i.path) (hq : ¬ q <+: i.path) :
    (m.renamed dir p q path i).names = [i.path] := by
  have hnames : (if dir then m.prune p (rehash p path i) else rehash p path i).names =
      [i.path] := by
    split_ifs
    · simp [prune, names_rehash, hplaced.names, hp]
    · rw [names_rehash, hplaced.names]
  rw [renamed, Hashed.retarget, Hashed.forget, hnames]
  simp [hp, hq]

/-- The target's dentry goes. -/
theorem names_renamed_target (hp : i.path = q) : (m.renamed dir p q path i).names = [] := by
  have hnames : ∀ n ∈ (if dir then m.prune p (rehash p path i) else rehash p path i).names,
      n = q := by
    intro n hn
    have hmem : n ∈ (rehash p path i).names := by
      split_ifs at hn
      · exact (mem_filter.mp hn).1
      · exact hn
    rw [names_rehash, hplaced.names, mem_singleton] at hmem
    exact hmem.trans hp
  rw [renamed, Hashed.retarget, Hashed.forget]
  simp only [map_eq_nil_iff, filter_eq_nil_iff]
  intro n hn
  simp [hnames n hn]

/-- The dentries below a directory that nothing holds go. -/
theorem names_renamed_below (hp : p <+: i.path) (hne : p ≠ i.path)
    (hpins : m.inodes.any (Hashed.pins i.path) = false) :
    (m.renamed true p q path i).names = [] := by
  have hnames : (m.prune p (rehash p path i)).names = [] := by
    simp only [prune, names_rehash, hplaced.names]
    rw [filter_cons, decide_eq_true hp, decide_eq_true hne, hpins]
    rfl
  rw [renamed, if_pos rfl, Hashed.retarget, Hashed.forget, hnames]
  rfl

end

section

variable (hs : m.Sound)
include hs

theorem Sound.shut_below (hok : m.inodes.all (fun i => !i.opensBelow p) = true)
    (hi : i ∈ m.inodes) (hp : p <+: i.path) (hne : p ≠ i.path) : i.opens = 0 := by
  have hnot := List.all_eq_true.mp hok i hi
  rw [Hashed.opensBelow, (hs.placed i hi).names, any_cons, decide_eq_true hp,
    decide_eq_true hne] at hnot
  simpa using hnot

/-- Nothing below a renamed directory holds a name further down. -/
theorem Sound.pins (hok : m.inodes.all (fun i => !i.opensBelow p) = true)
    (hp : p <+: i.path) (hne : p ≠ i.path) : m.inodes.any (Hashed.pins i.path) = false := by
  refine Bool.eq_false_iff.mpr fun hany => ?_
  obtain ⟨j, hj, hpin⟩ := List.any_eq_true.mp hany
  obtain ⟨hopen, hname⟩ := Bool.and_eq_true_iff.mp hpin
  rw [(hs.placed j hj).names, any_cons, any_nil, Bool.or_false, decide_eq_true_iff] at hname
  have hnej : p ≠ j.path := by
    intro he
    exact hne (hp.eq_of_length_le (he ▸ hname.length_le))
  rw [hs.shut_below hok hj (hp.trans hname) hnej] at hopen
  exact absurd hopen (by decide)

/-- An inode below neither name stays where it is. -/
theorem Sound.stays (hj : j ∈ m.inodes) (hp : ¬ p <+: j.path) (hq : ¬ q <+: j.path) :
    m.renamed dir p q path j ∈ (m.update (m.renamed dir p q path)).inodes ∧
      (m.renamed dir p q path j).path = j.path ∧ (m.renamed dir p q path j).entry = j.entry ∧
      (m.renamed dir p q path j).names = [j.path] := by
  have hnames : (m.renamed dir p q path j).names = [j.path] :=
    names_renamed_other (hs.placed j hj) hp hq
  refine ⟨mem_update.mpr ⟨j, hj, rfl, ?_⟩, ?_, (renamed_rest j).1, hnames⟩
  · rw [Hashed.alive, hnames]
    simp
  · rw [(renamed_rest j).2.2, if_neg]
    rw [hs.mem_names hj]
    exact fun he => hp (he ▸ prefix_rfl)

/-- What becomes of each inode: it is the one renamed, it goes, or it stays. -/
theorem Sound.renamed (hi : i ∈ m.inodes) (hp : i.path = p) (hp0 : p ≠ []) (hq0 : q ≠ [])
    (hok : m.released (.rename p q) = true) (hpq : p ≠ q) (ht : Names.rename m.tree p q = some t)
    (hj : j ∈ m.inodes) (ha : (m.renamed (decide (i.entry = .dir)) p q q j).alive = true) :
    j = i ∨ (¬ p <+: j.path ∧ ¬ q <+: j.path) := by
  obtain ⟨hshut, hbelow⟩ := Bool.and_eq_true_iff.mp hok
  have hopens : (m.renamed (decide (i.entry = .dir)) p q q j).opens = j.opens :=
    (renamed_rest j).2.1
  by_cases hqj : q <+: j.path
  · exfalso
    by_cases he : j.path = q
    · rw [Hashed.alive, hopens, names_renamed_target (hs.placed j hj) he, hs.shut hshut hj he] at ha
      exact absurd ha (by decide)
    · -- the peer takes over no directory that something is below
      obtain ⟨k, -, -, hdir, hbare⟩ := hs.below hq0 hj hqj (.symm he)
      rw [Names.bare_of_rename ht hpq hdir] at hbare
      exact absurd hbare (by decide)
  · by_cases hpj : p <+: j.path
    · left
      by_contra hne
      have hpath : p ≠ j.path := fun he => hne (hs.eq_of_path hj hi (he ▸ hp.symm))
      obtain ⟨k, hk, hkp, hdir, -⟩ := hs.below hp0 hj hpj hpath
      have hentry : i.entry = .dir := by
        rw [← hp, (hs.placed i hi).entry] at hdir
        exact some.inj hdir
      rw [decide_eq_true hentry] at ha hopens
      rw [Hashed.alive, hopens, hs.shut_below hbelow hj hpj hpath,
        names_renamed_below (hs.placed j hj) hpj hpath (hs.pins hbelow hpj hpath)] at ha
      exact absurd ha (by decide)
    · exact .inr ⟨hpj, hqj⟩

theorem Sound.rename (hok : m.released (.rename p q) = true) (h : m.rename p q = some m') :
    m'.Sound := by
  obtain ⟨i, hholder, h⟩ := bind_eq_some_iff.mp h
  obtain ⟨src, hsrc, h⟩ := bind_eq_some_iff.mp h
  obtain ⟨dst, hdst, h⟩ := bind_eq_some_iff.mp h
  obtain ⟨⟨hpq, hqp, -, -⟩, h⟩ := ite_none_right_eq_some.mp h
  obtain ⟨t, ht, rfl⟩ := map_eq_some_iff.mp h
  obtain ⟨rfl, -⟩ := hs.childPath hsrc
  obtain ⟨rfl, habove⟩ := hs.childPath hdst
  obtain ⟨hi, hp⟩ := hs.holder hholder
  have hne : src ≠ dst := fun he => hpq (he ▸ prefix_rfl)
  have hcases : ∀ j ∈ m.inodes, (m.renamed (decide (i.entry = .dir)) src dst dst j).alive = true →
      j = i ∨ (¬ src <+: j.path ∧ ¬ dst <+: j.path) := fun j hj ha =>
    hs.renamed hi hp (ne_nil_of_childPath hsrc) (ne_nil_of_childPath hdst) hok hne ht hj ha
  have hself : (m.renamed (decide (i.entry = .dir)) src dst dst i).path = dst := by
    rw [(renamed_rest i).2.2, if_pos ((hs.mem_names hi).mpr hp)]
  refine ⟨fun o ho => ?_, ?_, hs.attached⟩
  · obtain ⟨j, hj, rfl, ha⟩ := mem_update.mp ho
    rcases hcases j hj ha with rfl | ⟨hpj, hqj⟩
    · refine ⟨?_, ?_, fun d hd hpre hned => ?_⟩
      · rw [hself, names_renamed_self (hs.placed j hj) hp hqp]
      · rw [hself, (renamed_rest j).1, ← (hs.placed j hj).entry, hp]
        exact Names.get_rename_target ht hne hqp
      · -- the directories above the target are not below the source
        rw [hself] at hpre hned
        obtain ⟨k, hk, rfl, hdir⟩ := habove d hd hpre hned
        obtain ⟨hmem, hpath, hentry, -⟩ := hs.stays hk (fun h => hpq (h.trans hpre))
          (fun h => hned (hpre.eq_of_length_le h.length_le))
        exact ⟨_, hmem, hpath, hentry.trans hdir⟩
    · obtain ⟨-, hpath, hentry, hnames⟩ := hs.stays hj hpj hqj
      refine ⟨by rw [hnames, hpath], ?_, fun d hd hpre hned => ?_⟩
      · rw [hpath, hentry]
        exact (Names.get_rename ht hpj hqj).trans (hs.placed j hj).entry
      · rw [hpath] at hpre hned
        obtain ⟨k, hk, rfl, hdir⟩ := (hs.placed j hj).above d hd hpre hned
        obtain ⟨hmem, hpath, hentry, -⟩ :=
          hs.stays hk (fun h => hpj (h.trans hpre)) (fun h => hqj (h.trans hpre))
        exact ⟨_, hmem, hpath, hentry.trans hdir⟩
  · refine nodup_update hs.distinct fun j hj k hk hjk haj hak => ?_
    rcases hcases j hj haj with rfl | ⟨hpj, hqj⟩
    · rcases hcases k hk hak with rfl | ⟨hpk, hqk⟩
      · exact absurd rfl hjk
      · rw [hself, (hs.stays hk hpk hqk).2.1]
        exact fun he => hqk (he ▸ prefix_rfl)
    · rw [(hs.stays hj hpj hqj).2.1]
      rcases hcases k hk hak with rfl | ⟨hpk, hqk⟩
      · rw [hself]
        exact fun he => hqj (he ▸ prefix_rfl)
      · rw [(hs.stays hk hpk hqk).2.1]
        exact hjk

/-! ## Runs -/

theorem Sound.step {ev : Event} (hok : m.released ev = true) (h : m.step ev = some m') :
    m'.Sound := by
  cases ev with
  | lookup p => exact hs.lookup h
  | create p => exact hs.create h
  | makeDirectory p => exact hs.makeDirectory h
  | unlink p => exact hs.unlink hok h
  | removeDirectory p => exact hs.removeDirectory hok h
  | rename p q => exact hs.rename hok h
  | opened p => exact hs.opened h
  | close a =>
    rw [← some.inj h]
    exact hs.close a
  | shrink p => exact hs.shrink h
  | revalidate p => exact hs.revalidate h

end

/-- **One inode for each path, and a new file has a new inode**, where nothing that is removed,
renamed over or below a renamed directory is open. -/
theorem paths_distinct (tree : Tree) (made : ℕ) (evs : List Event) (m : Mount)
    (hok : Runs.Meets Mount.step (fun m ev => m.released ev = true) (mounted tree made) evs)
    (h : Runs.exec Mount.step (mounted tree made) evs = some m) :
    (m.inodes.map Hashed.path).Nodup ∧ ∀ a ∈ m.attached, a.1 = a.2 := by
  have hs : m.Sound :=
    Runs.exec_invariant (fun hs hok ht => Sound.step hs hok ht) (Sound.mounted tree made) hok h
  exact ⟨hs.distinct, hs.attached⟩

/-- A file is made, renamed over another and removed, and another is made in its place. -/
theorem paths_distinct_replaced :
    ∃ m, Runs.exec Mount.step (mounted [([], .dir)] 0)
        [.create ["a"], .opened ["a"], .create ["b"], .rename ["a"] ["b"], .close 0, .unlink ["b"],
          .create ["b"]] = some m ∧
      ((m.inodes.map Hashed.path).Nodup ∧ ∀ a ∈ m.attached, a.1 = a.2) ∧ m.attached.length = 3 :=
  Runs.exists_exec rfl fun hs => ⟨paths_distinct _ _ _ _ (by decide) hs, rfl⟩

/-- **A file that is removed while it is open gives its inode to the next one of its name**, and one
that is renamed over leaves two inodes of one path. -/
theorem open_file_keeps_path :
    (∃ m, Runs.exec Mount.step (mounted [([], .dir)] 0)
        [.create ["a"], .opened ["a"], .unlink ["a"], .create ["a"]] = some m ∧
      m.attached.head? = some (.file 0, .file 1)) ∧
    ∃ m, Runs.exec Mount.step (mounted [([], .dir)] 0)
        [.create ["a"], .create ["b"], .opened ["b"], .rename ["a"] ["b"]] = some m ∧
      m.inodes.map Hashed.path = [["b"], ["b"]] :=
  ⟨⟨_, rfl, rfl⟩, _, rfl, rfl⟩

end Mount
end Rail.Kernel
