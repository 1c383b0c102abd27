import Rail.Foundation.Chains
import Rail.Foundation.Modify
import Rail.Foundation.Runs
import Mathlib.Algebra.Group.Nat.Defs
import Mathlib.Tactic.SplitIfs

/-!
# The inode table of the mount

`Inodes` of `src/fuse/inodes.cc`.  A node has a number, the number of its parent and a name; a
second map finds the number for a parent and a name.  Nodes are made by a lookup (`insert`) or by a
listing (`reserve`), and go when the kernel forgets them, when their name is removed or replaced, or
when a listing made them and nobody asked for them since.  The root has a number and no node.  A
node may go before its children, which are then left with a parent that is not there.

The invariant is `Sound`: the two maps say the same, a node counts its children, numbers are below
`next`, and every chain of parents ends.  An operation is at most two edits of the tree, each of
which takes a node out, puts one in or moves one (`Sound.edit`).  That chains of parents end is kept
because a new node has no children yet and a node is never moved below itself.
-/

namespace Rail.Fuse

open List Option Function Chains

/-- A `std::string`. -/
abbrev Text := List Char

namespace Inodes

def rootIno : ℕ := 1

def listedLimit : ℕ := 65536

structure Node where
  parent : ℕ := 0
  name : Text := []
  refs : UInt64 := 0
  kids : ℕ := 0
  deriving DecidableEq

end Inodes

structure Inodes where
  root : Text
  cold : List ℕ := []
  nodes : ℕ → Option Inodes.Node := fun _ => none
  byName : Text → Option ℕ := fun _ => none
  next : ℕ := Inodes.rootIno + 1

namespace Inodes

def join (dir name : Text) : Text := if dir = [] ∨ dir = ['.'] then name else dir ++ '/' :: name

def keyOf (parent : ℕ) (name : Text) : Text := Nat.toDigits 10 parent ++ '/' :: name

/-- `emplace` of a map: what is there stays. -/
def emplace {α β : Type} [DecidableEq α] (m : α → Option β) (a : α) (b : β) : α → Option β :=
  if (m a).isNone then Function.update m a (some b) else m

variable (s : Inodes)

/-- `Nodes[i]`. -/
def at_ (i : ℕ) : Node := (s.nodes i).getD {}

def setNode (i : ℕ) (v : Option Node) : Inodes := { s with nodes := Function.update s.nodes i v }

def setName (key : Text) (v : Option ℕ) : Inodes :=
  { s with byName := Function.update s.byName key v }

/-- Change the number of children of a node that is there. -/
def count (i : ℕ) (f : ℕ → ℕ) : Inodes :=
  s.setNode i ((s.nodes i).map fun n => { n with kids := f n.kids })

def create (parent : ℕ) (name : Text) (refs : UInt64) : ℕ × Inodes :=
  let fresh := s.next
  let t := { s with
    next := s.next + 1
    nodes := emplace s.nodes fresh { parent, name, refs, kids := 0 }
    byName := emplace s.byName (keyOf parent name) fresh }
  (fresh, t.count parent (· + 1))

/-- `erase` of the node with the number. -/
def erase (i : ℕ) : Inodes :=
  match s.nodes i with
  | none => s
  | some n =>
    ((s.count n.parent (· - 1)).setName (keyOf n.parent n.name) none).setNode i none

/-- The loop of `trim`, with what is left of `Cold`. -/
def trimLoop : List ℕ → Inodes → Inodes
  | [], s => { s with cold := [] }
  | oldest :: rest, s =>
    if listedLimit < rest.length + 1 then
      match s.nodes oldest with
      | none => trimLoop rest s
      | some n => trimLoop rest (if 0 < n.refs ∨ 0 < n.kids then s else s.erase oldest)
    else { s with cold := oldest :: rest }

def trim : Inodes := trimLoop s.cold s

def insert (parent : ℕ) (name : Text) : ℕ × Inodes :=
  match s.byName (keyOf parent name) with
  | some i => (i, s.setNode i (some { s.at_ i with refs := (s.at_ i).refs + 1 }))
  | none => s.create parent name 1

def reserve (parent : ℕ) (name : Text) : ℕ × Inodes :=
  match s.byName (keyOf parent name) with
  | some i => (i, s)
  | none =>
    let (fresh, t) := s.create parent name 0
    (fresh, trim { t with cold := t.cold ++ [fresh] })

def release (parent : ℕ) (name : Text) : Inodes :=
  match s.byName (keyOf parent name) with
  | none => s
  | some i =>
    match s.nodes i with
    | none => s
    | some n => if 0 < n.refs then s else s.erase i

def forget (i : ℕ) (n : UInt64) : Inodes :=
  match s.nodes i with
  | none => s
  | some node =>
    if node.refs > n then s.setNode i (some { node with refs := node.refs - n }) else s.erase i

/-- The loop of `path`: the names from the node up, none for a parent that is not there.  No result
means that `fuel` rounds were not enough. -/
def climb (s : Inodes) : (fuel : ℕ) → ℕ → Option (Option (List Text))
  | fuel, i =>
    if i = rootIno then some (some [])
    else
      match fuel with
      | 0 => none
      | fuel + 1 =>
        match s.nodes i with
        | none => some none
        | some n => (s.climb fuel n.parent).map (Option.map (n.name :: ·))

/-- `path`, which is empty where a parent is not there. -/
def path (i : ℕ) : Option Text :=
  (s.climb s.next i).map fun
    | none => []
    | some parts => parts.foldr (fun name out => join out name) s.root

/-- What `reparent` does with a node that has the new name. -/
def replace (key : Text) : Inodes :=
  match s.byName key with
  | none => s
  | some clash =>
    let t :=
      match s.nodes clash with
      | none => s
      | some gone => (s.count gone.parent (· - 1)).setNode clash none
    t.setName key none

/-- What it does then: the node leaves its parent and goes to the new one. -/
def relink (moving newParent : ℕ) (newName : Text) : Inodes :=
  let t := s.count (s.at_ moving).parent (· - 1)
  let u := t.setNode moving (some { t.at_ moving with parent := newParent, name := newName })
  let v := u.count newParent (· + 1)
  { v with byName := emplace v.byName (keyOf newParent newName) moving }

def reparent (parent : ℕ) (name : Text) (newParent : ℕ) (newName : Text) : Inodes :=
  match s.byName (keyOf parent name) with
  | none => s
  | some moving =>
    ((s.setName (keyOf parent name) none).replace (keyOf newParent newName)).relink moving
      newParent newName

def drop (parent : ℕ) (name : Text) : Inodes :=
  match s.byName (keyOf parent name) with
  | none => s
  | some i =>
    match s.nodes i with
    | some _ => s.erase i
    | none => s.setName (keyOf parent name) none

/-! ## What the mount does -/

inductive Event where
  | insert (parent : ℕ) (name : Text)
  | reserve (parent : ℕ) (name : Text)
  | release (parent : ℕ) (name : Text)
  | forget (i : ℕ) (n : UInt64)
  | drop (parent : ℕ) (name : Text)
  | reparent (parent : ℕ) (name : Text) (newParent : ℕ) (newName : Text)
  deriving DecidableEq

/-- What stands above a node. -/
def up (i : ℕ) : Option ℕ := (s.nodes i).map Node.parent

/-- The kernel has been told of the number. -/
def issued (i : ℕ) : Bool := decide (rootIno ≤ i ∧ i < s.next)

/-- The node with the name is not the other one and not above it. -/
def movable (parent : ℕ) (name : Text) (newParent : ℕ) : Bool :=
  (s.byName (keyOf parent name)).all fun moving => !decide (moving ∈ chain s.up s.next newParent)

/-- The kernel names directories by numbers it has been told, and there are fewer than `2 ^ 64` of
them.  It does not move a directory below itself. -/
def step : Event → Option Inodes
  | .insert parent name =>
      if s.issued parent ∧ s.next + 1 < 2 ^ 64 then some (s.insert parent name).2 else none
  | .reserve parent name =>
      if s.issued parent ∧ s.next + 1 < 2 ^ 64 then some (s.reserve parent name).2 else none
  | .release parent name => some (s.release parent name)
  | .forget i n => some (s.forget i n)
  | .drop parent name => some (s.drop parent name)
  | .reparent parent name newParent newName =>
    if s.issued newParent ∧
      s.movable parent name newParent then some (s.reparent parent name newParent newName)
    else none

/-! ## The invariant -/

/-- Parent and name of a node. -/
def label (i : ℕ) : Option (ℕ × Text) := (s.nodes i).map fun n => (n.parent, n.name)

/-- The key under which a node is found. -/
def keyed (l : Option (ℕ × Text)) : Option Text := l.map fun l => keyOf l.1 l.2

/-- How many nodes name it as their parent. -/
def children (i : ℕ) : ℕ := (List.range s.next).countP fun j => decide (s.up j = some i)

structure Sound (s : Inodes) : Prop where
  named : ∀ key i, s.byName key = some i ↔ keyed (s.label i) = some key
  kids : ∀ i n, s.nodes i = some n → n.kids = s.children i
  numbered : ∀ i n, s.nodes i = some n → rootIno < i ∧ i < s.next
  known : ∀ i n, s.nodes i = some n → rootIno ≤ n.parent ∧ n.parent < s.next
  grounded : Grounded s.up

/-- The invariant holds after a step, and a number that was given and is not in use stays out of
use. -/
structure Follows (s t : Inodes) : Prop where
  sound : t.Sound
  root : t.root = s.root
  next : s.next ≤ t.next
  gone : ∀ i < s.next, s.label i = none → t.label i = none

theorem Follows.trans {s t u : Inodes} (h : s.Follows t) (h' : t.Follows u) : s.Follows u where
  sound := h'.sound
  root := h'.root.trans h.root
  next := h.next.trans h'.next
  gone i hi hnone := h'.gone i (hi.trans_le h.next) (h.gone i hi hnone)

theorem Sound.refl {s : Inodes} (h : s.Sound) : s.Follows s :=
  ⟨h, rfl, le_rfl, fun _ _ hnone => hnone⟩

/-! ## One edit of the tree -/

variable {s t : Inodes} {i j : ℕ} {n : Node}

theorem label_of_some (h : s.nodes i = some n) : s.label i = some (n.parent, n.name) := by
  rw [label, h]
  rfl

theorem label_eq_some {l : ℕ × Text} (h : s.label i = some l) :
    ∃ n, s.nodes i = some n ∧ (n.parent, n.name) = l :=
  map_eq_some_iff.mp h

theorem up_eq (s : Inodes) (i : ℕ) : s.up i = (s.label i).map Prod.fst := by
  rw [up, label, Option.map_map]
  rfl

theorem up_of_some (h : s.nodes i = some n) : s.up i = some n.parent := by
  rw [up, h]
  rfl

/-- No number from `next` on counts. -/
theorem Sound.children_eq (h : s.Sound) {m : ℕ} (hm : s.next ≤ m) (i : ℕ) :
    (List.range m).countP (fun j => decide (s.up j = some i)) = s.children i := by
  induction m, hm using Nat.le_induction with
  | base => rfl
  | succ m hm ih =>
    have hnone : s.up m ≠ some i := by
      intro hup
      obtain ⟨n, hn, -⟩ := map_eq_some_iff.mp hup
      exact absurd (h.numbered m n hn).2 (Nat.not_lt_of_le hm)
    rw [range_succ, countP_append, ih, countP_singleton, decide_eq_false hnone]
    rfl

/-- **A node is put in, taken out or moved.** -/
theorem Sound.edit (h : s.Sound) {v : Option (ℕ × Text)} (hroot : t.root = s.root)
    (hnext : s.next ≤ t.next) (hgone : v ≠ none → s.label i ≠ none ∨ s.next ≤ i)
    (hlabel : t.label = Function.update s.label i v) (hbyName : ∀ key, t.byName key =
      if keyed v = some key then some i else if keyed (s.label i) =
      some key then none else s.byName key)
    (hfree : ∀ key, keyed v = some key → s.byName key = none ∨ s.byName key = some i)
    (hi : rootIno < i ∧ i < t.next) (hparent : ∀ l, v = some l → rootIno ≤ l.1 ∧ l.1 < t.next ∧
      ¬ Above s.up i l.1) (hkids : ∀ j n, t.nodes j = some n →
      n.kids + (if s.up i = some j then 1 else 0) = s.children j + if v.map Prod.fst =
      some j then 1 else 0) :
    s.Follows t := by
  have hself : t.label i = v := by rw [hlabel, update_self]
  have hother : ∀ {j}, j ≠ i → t.label j = s.label j := fun hj => by rw [hlabel, update_of_ne hj]
  have hup : t.up = Function.update s.up i (v.map Prod.fst) := by
    ext1 j
    by_cases hj : j = i
    · subst hj
      rw [up_eq, hself, update_self]
    · rw [up_eq, hother hj, update_of_ne hj, up_eq]
  refine ⟨⟨?_, ?_, ?_, ?_, ?_⟩, hroot, hnext, fun j hj hnone => ?_⟩
  · -- The two maps: by whether the key is the new one of the node, the old one, or another.
    intro key j
    rw [hbyName key]
    by_cases hnew : keyed v = some key
    · rw [if_pos hnew]
      constructor
      · intro hj
        rw [← some.inj hj, hself]
        exact hnew
      · intro hj
        by_cases hji : j = i
        · rw [hji]
        · rw [hother hji] at hj
          have hat := (h.named key j).mpr hj
          rcases hfree key hnew with hnone | hsome
          · exact absurd (hnone.symm.trans hat) (some_ne_none j).symm
          · exact absurd (mem_unique hat hsome) hji
    · rw [if_neg hnew]
      by_cases hji : j = i
      · subst hji
        rw [hself]
        refine iff_of_false (fun hj => ?_) hnew
        split_ifs at hj with hold
        exact hold ((h.named key j).mp hj)
      · rw [hother hji]
        by_cases hold : keyed (s.label i) = some key
        · rw [if_pos hold]
          refine iff_of_false (some_ne_none j).symm fun hj => hji ?_
          exact some.inj (((h.named key j).mpr hj).symm.trans ((h.named key i).mpr hold))
        · rw [if_neg hold]
          exact h.named key j
  · intro j n hn
    have hcount := Modify.countP_range_update (g := s.up) (q := fun p => decide (p = some j)) hi.2
      (v.map Prod.fst)
    rw [h.children_eq hnext j] at hcount
    have hthis := hkids j n hn
    simp only [decide_eq_true_eq] at hcount
    rw [children, hup]
    omega
  · intro j n hn
    by_cases hj : j = i
    · exact hj ▸ hi
    · obtain ⟨m, hm, -⟩ := label_eq_some ((hother hj).symm.trans (label_of_some hn))
      have hnum := h.numbered j m hm
      exact ⟨hnum.1, hnum.2.trans_le hnext⟩
  · intro j n hn
    by_cases hj : j = i
    · subst hj
      have hv := hparent (n.parent, n.name) (hself.symm.trans (label_of_some hn))
      exact ⟨hv.1, hv.2.1⟩
    · obtain ⟨m, hm, heq⟩ := label_eq_some ((hother hj).symm.trans (label_of_some hn))
      have hknown := h.known j m hm
      rw [(Prod.mk.inj heq).1] at hknown
      exact ⟨hknown.1, hknown.2.trans_le hnext⟩
  · rw [hup]
    cases v with
    | none =>
      refine h.grounded.mono fun a b hab => ?_
      by_cases ha : a = i
      · rw [ha, update_self] at hab
        cases hab
      · rwa [update_of_ne ha] at hab
    | some l => exact h.grounded.update (hparent l rfl).2.2
  · by_cases hji : j = i
    · subst hji
      rw [hself]
      by_contra hv
      rcases hgone hv with hold | hfresh
      · exact hold hnone
      · omega
    · rw [hother hji]
      exact hnone

/-! ## The operations -/

theorem nodes_setNode_self (s : Inodes) (i : ℕ) (v : Option Node) : (s.setNode i v).nodes i = v :=
  update_self ..

theorem nodes_setNode_of_ne (hj : j ≠ i) (v : Option Node) : (s.setNode i v).nodes j = s.nodes j :=
  update_of_ne hj ..

theorem byName_setName_self (s : Inodes) (key : Text) (v : Option ℕ) :
    (s.setName key v).byName key = v :=
  update_self ..

variable {parent : ℕ} {key name : Text}

theorem byName_setName_of_ne {other : Text} (hne : other ≠ key) (v : Option ℕ) :
    (s.setName key v).byName other = s.byName other :=
  update_of_ne hne ..

theorem label_setNode (s : Inodes) (i : ℕ) (v : Option Node) :
    (s.setNode i v).label = Function.update s.label i (v.map fun n => (n.parent, n.name)) := by
  ext1 j
  by_cases hj : j = i
  · subst hj
    rw [label, nodes_setNode_self, update_self]
  · rw [label, nodes_setNode_of_ne hj, update_of_ne hj, label]

theorem label_setName (s : Inodes) (key : Text) (v : Option ℕ) : (s.setName key v).label =
    s.label := rfl

theorem label_count (s : Inodes) (i : ℕ) (f : ℕ → ℕ) : (s.count i f).label = s.label := by
  rw [count, label_setNode, Option.map_map]
  exact update_eq_self i s.label

/-- A node of the table with a count changed. -/
theorem nodes_count_eq_some {f : ℕ → ℕ} (h : (s.count i f).nodes j = some n) :
    ∃ m, s.nodes j = some m ∧ n.kids = if j = i then f m.kids else m.kids := by
  rw [count] at h
  by_cases hj : j = i
  · subst hj
    rw [nodes_setNode_self] at h
    obtain ⟨m, hm, rfl⟩ := map_eq_some_iff.mp h
    exact ⟨m, hm, (if_pos rfl).symm⟩
  · rw [nodes_setNode_of_ne hj] at h
    exact ⟨n, h, (if_neg hj).symm⟩

/-- A node is a child of its parent. -/
theorem Sound.children_pos (h : s.Sound) (hn : s.nodes i = some n) : 0 < s.children n.parent := by
  refine countP_pos_iff.mpr ⟨i, mem_range.mpr (h.numbered i n hn).2, ?_⟩
  rw [up_of_some hn, decide_eq_true rfl]

/-- What becomes of the counts when a node leaves its parent. -/
theorem Sound.kids_left (h : s.Sound) (hn : s.nodes i = some n) {m : Node}
    (hm : (s.count n.parent (· - 1)).nodes j = some m) :
    m.kids + (if s.up i = some j then 1 else 0) = s.children j := by
  obtain ⟨m', hm', hkids⟩ := nodes_count_eq_some hm
  have hcount := h.kids j m' hm'
  rw [up_of_some hn, hkids]
  by_cases hj : j = n.parent
  · have hpos := h.children_pos hn
    rw [← hj] at hpos
    rw [if_pos hj, if_pos (congrArg some hj.symm)]
    omega
  · rw [if_neg hj, if_neg fun heq => hj (some.inj heq).symm]
    omega

theorem erase_of_some (hn : s.nodes i = some n) :
    s.erase i = ((s.count n.parent (· - 1)).setName (keyOf n.parent n.name) none).setNode i
    none := by
  rw [Inodes.erase, hn]

theorem Sound.erase (h : s.Sound) (i : ℕ) : s.Follows (s.erase i) := by
  cases hn : s.nodes i with
  | none =>
    rw [Inodes.erase, hn]
    exact h.refl
  | some n =>
    rw [erase_of_some hn]
    refine h.edit (i := i) (v := none) rfl le_rfl (absurd rfl) ?_ (fun key => ?_) nofun
      (h.numbered i n hn) nofun fun j m hm => ?_
    · rw [label_setNode, label_setName, label_count]
      rfl
    · rw [label_of_some hn, keyed, keyed, map_none, map_some, if_neg (some_ne_none key).symm]
      show ((s.count n.parent (· - 1)).setName (keyOf n.parent n.name) none).byName key = _
      by_cases hkey : key = keyOf n.parent n.name
      · rw [hkey, if_pos rfl, byName_setName_self]
      · rw [if_neg fun heq => hkey (some.inj heq).symm, byName_setName_of_ne hkey]
        rfl
    · have hj : j ≠ i := by
        rintro rfl
        rw [nodes_setNode_self] at hm
        cases hm
      rw [nodes_setNode_of_ne hj] at hm
      rw [h.kids_left hn hm]
      rfl

theorem Sound.nodes_next (h : s.Sound) : s.nodes s.next = none := by
  cases hn : s.nodes s.next with
  | none => rfl
  | some n => exact absurd (h.numbered s.next n hn).2 (Nat.lt_irrefl _)

theorem Sound.up_ne_next (h : s.Sound) (c : ℕ) : s.up c ≠ some s.next := by
  intro hc
  obtain ⟨n, hn, hup⟩ := map_eq_some_iff.mp hc
  have hknown := (h.known c n hn).2
  omega

theorem emplace_of_none {α β : Type} [DecidableEq α] {m : α → Option β} {a : α} (h : m a = none)
    (b : β) : emplace m a b = Function.update m a (some b) := by
  rw [emplace, h]
  rfl

theorem create_eq (h : s.Sound) (hfree : s.byName (keyOf parent name) = none) (refs : UInt64) :
    s.create parent name refs = (s.next,
      ((({ s with next := s.next + 1 } : Inodes).setNode s.next
      (some { parent, name, refs })).setName (keyOf parent name) (some s.next)).count parent
      (· + 1)) := by
  rw [Inodes.create, emplace_of_none h.nodes_next, emplace_of_none hfree]
  rfl

theorem Sound.create (h : s.Sound) (hparent : s.issued parent = true)
    (hfree : s.byName (keyOf parent name) = none) (refs : UInt64) :
    s.Follows (s.create parent name refs).2 := by
  obtain ⟨hroot, hlt⟩ := of_decide_eq_true hparent
  have hnext : rootIno < s.next := lt_of_le_of_lt hroot hlt
  rw [create_eq h hfree]
  refine h.edit (i := s.next) (v := some (parent, name)) rfl (Nat.le_succ _) (fun _ => .inr le_rfl)
    ?_ (fun key => ?_)
    (fun key hkey => ?_) ⟨hnext, Nat.lt_succ_self _⟩ (fun l hl => ?_) fun j m hm => ?_
  · rw [label_count, label_setName, label_setNode]
    rfl
  · rw [label, h.nodes_next, keyed, keyed, map_none, map_none, map_some,
      if_neg (some_ne_none key).symm]
    show (Inodes.setName _ (keyOf parent name) (some s.next)).byName key = _
    by_cases hkey : key = keyOf parent name
    · rw [hkey, if_pos rfl, byName_setName_self]
    · rw [if_neg fun heq => hkey (some.inj heq).symm, byName_setName_of_ne hkey]
      rfl
  · exact .inl (some.inj hkey ▸ hfree)
  · cases hl
    exact ⟨hroot, Nat.lt_succ_of_lt hlt, not_above_of_top h.up_ne_next (Nat.ne_of_lt hlt)⟩
  · obtain ⟨m', hm', hkids⟩ := nodes_count_eq_some hm
    have hcount : m'.kids = s.children j := by
      by_cases hj : j = s.next
      · subst hj
        have hfresh := some.inj ((nodes_setNode_self ..).symm.trans hm')
        rw [← hfresh]
        refine (countP_eq_zero.mpr fun c _ => ?_).symm
        rw [decide_eq_true_eq]
        exact h.up_ne_next c
      · exact h.kids j m' ((nodes_setNode_of_ne hj _).symm.trans hm')
    rw [up, h.nodes_next, map_none, map_some, if_neg (some_ne_none j).symm, hkids, hcount]
    by_cases hj : j = parent
    · rw [if_pos hj, if_pos (congrArg some hj.symm)]
    · rw [if_neg hj, if_neg fun heq => hj (some.inj heq).symm]

/-- A key is free once its node is taken out of the names. -/
theorem Sound.free (h : s.Sound) (hn : s.nodes i = some n)
    (hfree : s.byName key = none ∨ s.byName key = some i) :
    (s.setName (keyOf n.parent n.name) none).byName key = none := by
  by_cases hkey : key = keyOf n.parent n.name
  · rw [hkey, byName_setName_self]
  · rw [byName_setName_of_ne hkey]
    refine hfree.resolve_right fun hsome => hkey ?_
    have hlabel := (h.named key i).mp hsome
    rw [label_of_some hn] at hlabel
    exact (some.inj hlabel).symm

theorem Sound.relink (h : s.Sound) (hn : s.nodes i = some n) {newParent : ℕ} {newName : Text}
    (hfree : s.byName (keyOf newParent newName) = none ∨
      s.byName (keyOf newParent newName) = some i) (hparent : s.issued newParent = true)
      (hnot : ¬ Above s.up i newParent) :
    s.Follows ((s.setName (keyOf n.parent n.name) none).relink i newParent newName) := by
  obtain ⟨hroot, hlt⟩ := of_decide_eq_true hparent
  have hat : (s.setName (keyOf n.parent n.name) none).at_ i = n := by
    show (s.nodes i).getD {} = n
    rw [hn]
    rfl
  have hemplace := emplace_of_none (h.free hn hfree) i
  rw [Inodes.relink, hat]
  have hthere : s.label i ≠ none := label_of_some hn ▸ some_ne_none _
  refine h.edit (i := i) (v := some (newParent, newName)) rfl le_rfl (fun _ => .inl hthere) ?_
    (fun key => ?_) (fun key hkey => ?_) (h.numbered i n hn) (fun l hl => ?_) fun j m hm => ?_
  · show label (count _ newParent (· + 1)) = _
    rw [label_count, label_setNode, label_count, label_setName]
    rfl
  · rw [label_of_some hn, keyed, keyed, map_some, map_some]
    show emplace (s.setName (keyOf n.parent n.name) none).byName (keyOf newParent newName) i key = _
    rw [hemplace]
    by_cases hnew : key = keyOf newParent newName
    · rw [hnew, if_pos rfl, update_self]
    · rw [if_neg fun heq => hnew (some.inj heq).symm, update_of_ne hnew]
      by_cases hold : key = keyOf n.parent n.name
      · rw [hold, if_pos rfl, byName_setName_self]
      · rw [if_neg fun heq => hold (some.inj heq).symm, byName_setName_of_ne hold]
  · cases hkey
    exact hfree
  · cases hl
    exact ⟨hroot, hlt, hnot⟩
  · -- The counts: the old parent first, then the new one.
    obtain ⟨m', hm', hkids⟩ := nodes_count_eq_some hm
    have hleft : ∃ m'', (s.count n.parent (· - 1)).nodes j = some m'' ∧ m'.kids = m''.kids := by
      by_cases hj : j = i
      · subst hj
        have hlabel : (s.count n.parent (· - 1)).label j = some (n.parent, n.name) := by
          rw [label_count, label_of_some hn]
        obtain ⟨m'', hm'', -⟩ := label_eq_some hlabel
        refine ⟨m'', hm'', ?_⟩
        rw [nodes_setNode_self] at hm'
        rw [← some.inj hm']
        show ((s.count n.parent (· - 1)).at_ j).kids = m''.kids
        rw [at_, hm'']
        rfl
      · rw [nodes_setNode_of_ne hj] at hm'
        exact ⟨m', hm', rfl⟩
    obtain ⟨m'', hm'', heq⟩ := hleft
    have hthis := h.kids_left hn hm''
    rw [hkids, heq, map_some]
    by_cases hj : j = newParent
    · rw [if_pos hj, if_pos (congrArg some hj.symm)]
      omega
    · rw [if_neg hj, if_neg fun he => hj (some.inj he).symm]
      omega

theorem label_erase (s : Inodes) (i : ℕ) : (s.erase i).label = Function.update s.label i none := by
  cases hn : s.nodes i with
  | none =>
    have hnone : s.label i = none := by
      rw [label, hn]
      rfl
    rw [Inodes.erase, hn, ← hnone, update_eq_self]
  | some n =>
    rw [erase_of_some hn, label_setNode, label_setName, label_count]
    rfl

theorem next_erase (s : Inodes) (i : ℕ) : (s.erase i).next = s.next := by
  rw [Inodes.erase]
  cases s.nodes i <;> rfl

/-- What stands above another after a node is gone stood above it before. -/
theorem above_of_erase {a b : ℕ} (h : Above (s.erase i).up a b) : Above s.up a b := by
  refine .mono (fun x y hxy => ?_) _ _ h
  rw [up_eq, label_erase] at hxy
  rw [up_eq]
  by_cases hx : x = i
  · rw [hx, update_self] at hxy
    cases hxy
  · rwa [update_of_ne hx] at hxy

section

variable (h : s.Sound)
include h

/-- The name goes with the node that had it. -/
theorem Sound.byName_erase (hi : s.byName key = some i) : (s.erase i).byName key = none := by
  cases hfound : (s.erase i).byName key with
  | none => rfl
  | some k =>
    have hk := ((h.erase i).sound.named _ k).mp hfound
    rw [label_erase] at hk
    by_cases hki : k = i
    · rw [hki, update_self] at hk
      cases hk
    · rw [update_of_ne hki] at hk
      exact absurd (some.inj (((h.named _ k).mpr hk).symm.trans hi)) hki

/-- Taking a name out and replacing another is taking a node out and then the name. -/
theorem Sound.replace_eq {other : Text} (hne : other ≠ key) {clash : ℕ}
    (hclash : s.byName other = some clash) :
    (s.setName key none).replace other = (s.erase clash).setName key none := by
  obtain ⟨l, hl, hkey⟩ := map_eq_some_iff.mp ((h.named other clash).mp hclash)
  obtain ⟨gone, hgone, rfl⟩ := label_eq_some hl
  have hkey' : keyOf gone.parent gone.name = other := hkey
  have hsame : (s.setName key none).byName other = some clash :=
    (byName_setName_of_ne hne none).trans hclash
  have hnode : (s.setName key none).nodes clash = some gone := hgone
  have hcomm : Function.update (Function.update s.byName key none) other none =
      Function.update (Function.update s.byName other none) key none :=
      update_comm hne.symm none none s.byName
  rw [replace, hsame, erase_of_some hgone, hkey']
  dsimp only
  rw [hnode]
  exact congrArg (fun m : Text → Option ℕ =>
    { (s.count gone.parent (· - 1)).setNode clash none with byName := m }) hcomm

theorem Sound.reparent {newParent : ℕ} {newName : Text} (hissued : s.issued newParent = true)
    (hmove : s.movable parent name newParent = true) :
    s.Follows (s.reparent parent name newParent newName) := by
  rw [Inodes.reparent]
  cases hb : s.byName (keyOf parent name) with
  | none => exact h.refl
  | some moving =>
    obtain ⟨l, hl, hkey⟩ := map_eq_some_iff.mp ((h.named _ moving).mp hb)
    obtain ⟨n, hn, rfl⟩ := label_eq_some hl
    have hnot : ¬ Above s.up moving newParent := by
      intro habove
      rw [movable, hb] at hmove
      have hout : moving ∉ chain s.up s.next newParent := by simpa using hmove
      refine hout (h.grounded.mem_chain (l := (List.range' 2 (s.next - 2))) (fun a ha =>
        ?_) ?_ habove)
      · obtain ⟨p, hp⟩ := ne_none_iff_exists'.mp ha
        obtain ⟨m, hm, -⟩ := map_eq_some_iff.mp hp
        have hnum := h.numbered a m hm
        rw [rootIno] at hnum
        exact mem_range'_1.mpr (by omega)
      · have hnum := h.numbered moving n hn
        rw [rootIno] at hnum
        rw [length_range']
        omega
    simp only at hkey
    rw [← hkey]
    by_cases hsame : keyOf newParent newName = keyOf n.parent n.name
    · -- The name stays what it is, and nothing has it any more.
      have hreplace : (s.setName (keyOf n.parent n.name) none).replace (keyOf newParent newName) =
          s.setName (keyOf n.parent n.name) none := by
        rw [replace, hsame, byName_setName_self]
      rw [hreplace]
      exact h.relink hn (.inr (by rw [hsame, hkey]; exact hb)) hissued hnot
    · cases hclash : s.byName (keyOf newParent newName) with
      | none =>
        have hreplace : (s.setName (keyOf n.parent n.name) none).replace (keyOf newParent newName) =
            s.setName (keyOf n.parent n.name) none := by
          rw [replace, byName_setName_of_ne hsame, hclash]
        rw [hreplace]
        exact h.relink hn (.inl hclash) hissued hnot
      | some clash =>
        rw [h.replace_eq hsame hclash]
        have hne : moving ≠ clash := by
          rintro rfl
          have hlabel := (h.named _ _).mp hclash
          rw [label_of_some hn] at hlabel
          exact hsame (some.inj hlabel).symm
        have hlabel : (s.erase clash).label moving = some (n.parent, n.name) := by
          rw [label_erase, update_of_ne hne, label_of_some hn]
        obtain ⟨m, hm, heq⟩ := label_eq_some hlabel
        obtain ⟨hp, hnm⟩ := Prod.mk.inj heq
        rw [← hp, ← hnm]
        have herased := (h.erase clash).sound
        refine (h.erase clash).trans (herased.relink hm (.inl ?_) ?_ fun habove =>
          hnot (above_of_erase habove))
        · exact h.byName_erase hclash
        · rw [issued, next_erase]
          exact hissued

/-- A change that concerns neither names nor counts. -/
theorem Sound.congr (hroot : t.root = s.root) (hnext : t.next = s.next)
    (hbyName : t.byName = s.byName) (hlabel : t.label = s.label)
    (hkids : ∀ j m, t.nodes j = some m → ∃ n, s.nodes j = some n ∧ m.kids = n.kids) :
    s.Follows t := by
  have hup : t.up = s.up := by
    ext1 j
    rw [up_eq, hlabel, up_eq]
  have hnode : ∀ {j m}, t.nodes j = some m → ∃ n, s.nodes j = some n ∧
    (n.parent, n.name) = (m.parent, m.name) :=
    fun hm => label_eq_some (hlabel ▸ label_of_some hm)
  refine ⟨⟨?_, fun j m hm => ?_, fun j m hm => ?_, fun j m hm => ?_, hup ▸ h.grounded⟩, hroot,
    hnext.ge, fun j _ hj => ?_⟩
  · rw [hbyName, hlabel]
    exact h.named
  · obtain ⟨n, hn, heq⟩ := hkids j m hm
    rw [heq, h.kids j n hn, children, children, hup, hnext]
  · obtain ⟨n, hn, -⟩ := hnode hm
    rw [hnext]
    exact h.numbered j n hn
  · obtain ⟨n, hn, heq⟩ := hnode hm
    rw [hnext, ← (Prod.mk.inj heq).1]
    exact h.known j n hn
  · rw [hlabel]
    exact hj

/-- Only the references of a node change. -/
theorem Sound.touch (hn : s.nodes i = some n) (refs : UInt64) :
    s.Follows (s.setNode i (some { n with refs })) := by
  refine h.congr rfl rfl rfl ?_ fun j m hm => ?_
  · rw [label_setNode, ← update_eq_self i s.label, label_of_some hn]
    rw [update_idem]
    rfl
  · by_cases hj : j = i
    · subst hj
      rw [nodes_setNode_self] at hm
      exact ⟨n, hn, by rw [← some.inj hm]⟩
    · rw [nodes_setNode_of_ne hj] at hm
      exact ⟨m, hm, rfl⟩

theorem Sound.insert (hparent : s.issued parent = true) (name : Text) :
    s.Follows (s.insert parent name).2 := by
  rw [Inodes.insert]
  cases hb : s.byName (keyOf parent name) with
  | none => exact h.create hparent hb 1
  | some i =>
    obtain ⟨l, hl, -⟩ := map_eq_some_iff.mp ((h.named _ i).mp hb)
    obtain ⟨n, hn, -⟩ := label_eq_some hl
    have hat : s.at_ i = n := by rw [at_, hn, getD_some]
    dsimp only
    rw [hat]
    exact h.touch hn _

theorem Sound.trimLoop (cold : List ℕ) : s.Follows (trimLoop cold s) := by
  induction cold generalizing s with
  | nil => exact h.congr rfl rfl rfl rfl fun j m hm => ⟨m, hm, rfl⟩
  | cons oldest rest ih =>
    rw [Inodes.trimLoop]
    split_ifs
    · cases hn : s.nodes oldest with
      | none => exact ih h
      | some n =>
        dsimp only
        split_ifs
        · exact ih h
        · exact (h.erase oldest).trans (ih (h.erase oldest).sound)
    · exact h.congr rfl rfl rfl rfl fun j m hm => ⟨m, hm, rfl⟩

theorem Sound.reserve (hparent : s.issued parent = true) (name : Text) :
    s.Follows (s.reserve parent name).2 := by
  rw [Inodes.reserve]
  cases hb : s.byName (keyOf parent name) with
  | some i => exact h.refl
  | none =>
    have hmade := h.create hparent hb 0
    have hlisted : (s.create parent name 0).2.Follows
        { (s.create parent name 0).2 with
        cold := (s.create parent name 0).2.cold ++ [(s.create parent name 0).1] } :=
      hmade.sound.congr rfl rfl rfl rfl fun j m hm => ⟨m, hm, rfl⟩
    exact hmade.trans (hlisted.trans (hlisted.sound.trimLoop _))

theorem Sound.release (parent : ℕ) (name : Text) : s.Follows (s.release parent name) := by
  rw [Inodes.release]
  cases s.byName (keyOf parent name) with
  | none => exact h.refl
  | some i =>
    dsimp only
    cases s.nodes i with
    | none => exact h.refl
    | some n =>
      dsimp only
      split_ifs
      · exact h.refl
      · exact h.erase i

theorem Sound.forget (i : ℕ) (n : UInt64) : s.Follows (s.forget i n) := by
  rw [Inodes.forget]
  cases hn : s.nodes i with
  | none => exact h.refl
  | some node =>
    dsimp only
    split_ifs
    · exact h.touch hn _
    · exact h.erase i

theorem Sound.drop (parent : ℕ) (name : Text) : s.Follows (s.drop parent name) := by
  rw [Inodes.drop]
  cases hb : s.byName (keyOf parent name) with
  | none => exact h.refl
  | some i =>
    obtain ⟨l, hl, -⟩ := map_eq_some_iff.mp ((h.named _ i).mp hb)
    obtain ⟨n, hn, -⟩ := label_eq_some hl
    dsimp only
    rw [hn]
    exact h.erase i

/-! ## Runs -/

theorem Sound.step {e : Event} (hstep : s.step e = some t) : s.Follows t := by
  cases e with
  | insert parent name =>
    obtain ⟨⟨hparent, -⟩, hstep⟩ := ite_none_right_eq_some.mp hstep
    exact some.inj hstep ▸ h.insert hparent name
  | reserve parent name =>
    obtain ⟨⟨hparent, -⟩, hstep⟩ := ite_none_right_eq_some.mp hstep
    exact some.inj hstep ▸ h.reserve hparent name
  | release parent name => exact some.inj hstep ▸ h.release parent name
  | forget i n => exact some.inj hstep ▸ h.forget i n
  | drop parent name => exact some.inj hstep ▸ h.drop parent name
  | reparent parent name newParent newName =>
    obtain ⟨⟨hissued, hmove⟩, hstep⟩ := ite_none_right_eq_some.mp hstep
    exact some.inj hstep ▸ h.reparent hissued hmove

end

theorem Sound.mounted (root : Text) : Sound { root } where
  named _ _ := iff_of_false nofun nofun
  kids := nofun
  numbered := nofun
  known := nofun
  grounded := ⟨fun _ => .intro _ nofun⟩

theorem Sound.run (h : s.Sound) {es : List Event} (hrun : Runs.exec Inodes.step s es = some t) :
    s.Follows t :=
  Runs.exec_invariant (I := s.Follows) (fun hf _ hstep => hf.trans (hf.sound.step hstep)) h.refl
    (Runs.meets_true es _) hrun

/-- The names that lead from the root down to a node, all of them there. -/
inductive Leads (s : Inodes) : ℕ → List Text → Prop where
  | root : Leads s rootIno []
  | down {i : ℕ} {n : Node} {names : List Text} (hn : s.nodes i = some n)
      (h : Leads s n.parent names) : Leads s i (names ++ [n.name])

theorem climb_root (s : Inodes) (fuel : ℕ) : s.climb fuel rootIno = some (some []) := by
  rw [climb.eq_def]
  exact if_pos rfl

theorem climb_zero (hi : i ≠ rootIno) : s.climb 0 i = none := by
  rw [climb.eq_def]
  exact if_neg hi

theorem climb_of_none (hi : i ≠ rootIno) (hn : s.nodes i = none) (fuel : ℕ) :
    s.climb (fuel + 1) i = some none := by
  rw [climb.eq_def]
  dsimp only
  rw [if_neg hi, hn]

theorem climb_of_some (hi : i ≠ rootIno) (hn : s.nodes i = some n) (fuel : ℕ) :
    s.climb (fuel + 1) i = (s.climb fuel n.parent).map (Option.map (n.name :: ·)) := by
  rw [climb.eq_def]
  dsimp only
  rw [if_neg hi, hn]

/-- With as much fuel as a node is high the loop ends. -/
theorem climb_of_height {height : ℕ → ℕ} (hheight : ∀ a b, s.up a = some b → height b < height a)
    {fuel : ℕ} (hfuel : height i < fuel) : ∃ parts, s.climb fuel i = some parts := by
  induction fuel generalizing i with
  | zero => exact absurd hfuel (Nat.not_lt_zero _)
  | succ fuel ih =>
    by_cases hi : i = rootIno
    · exact ⟨some [], hi ▸ climb_root s _⟩
    · cases hn : s.nodes i with
      | none => exact ⟨none, climb_of_none hi hn fuel⟩
      | some n =>
        have hlt := hheight i n.parent (up_of_some hn)
        obtain ⟨parts, hparts⟩ := ih (i := n.parent) (by omega)
        rw [climb_of_some hi hn, hparts]
        exact ⟨_, rfl⟩

/-- Where all parents are there the loop comes to the root. -/
theorem Sound.climb_of_leads (h : s.Sound) {names : List Text} (hleads : s.Leads i names) {fuel : ℕ}
    {parts : Option (List Text)} (hclimb : s.climb fuel i = some parts) :
    parts = some names.reverse := by
  induction hleads generalizing fuel parts with
  | root =>
    rw [climb_root] at hclimb
    exact (some.inj hclimb).symm
  | @down i n names hn _ ih =>
    have hi : i ≠ rootIno := Nat.ne_of_gt (h.numbered i n hn).1
    cases fuel with
    | zero =>
      rw [climb_zero hi] at hclimb
      cases hclimb
    | succ fuel =>
      rw [climb_of_some hi hn] at hclimb
      obtain ⟨rest, hrest, rfl⟩ := map_eq_some_iff.mp hclimb
      rw [ih hrest, reverse_append]
      rfl

/-- There are fewer nodes than numbers, so `path` has all the rounds it needs. -/
theorem Sound.climb_terminates (h : s.Sound) (hnext : rootIno < s.next) (i : ℕ) :
    ∃ parts, s.climb s.next i = some parts := by
  have hnodes : ∀ j, s.up j ≠ none → j ∈ List.range' 2 (s.next - 2) := by
    intro j hj
    obtain ⟨b, hb⟩ := ne_none_iff_exists'.mp hj
    obtain ⟨n, hn, -⟩ := map_eq_some_iff.mp hb
    obtain ⟨hlow, hhigh⟩ := h.numbered j n hn
    rw [rootIno] at hlow
    exact mem_range'_1.mpr ⟨hlow, by omega⟩
  obtain ⟨height, hbound, hlt⟩ := h.grounded.exists_height hnodes
  refine climb_of_height hlt ((hbound i).trans_lt ?_)
  rw [length_range']
  omega

theorem Sound.path_of_leads (h : s.Sound) (hnext : rootIno < s.next) {names : List Text}
    (hleads : s.Leads i names) : s.path i = some (names.foldl join s.root) := by
  obtain ⟨parts, hparts⟩ := h.climb_terminates hnext i
  rw [path, hparts, h.climb_of_leads hleads hparts, map_some]
  exact congrArg some foldr_reverse

/-- **The table of a mount along every run.**  A key finds a number exactly when the number is in
use with that parent and name, so one parent and name is one number.  Every number in use was given,
and one that was given and is no longer in use never comes back.  A node counts as many children as
nodes name it as their parent.  The path of every number is found, and where all its parents are
there it is the root joined with the names on the way down. -/
theorem inodes_agree (root : Text) (es fs : List Event) (s t : Inodes)
    (hrun : Runs.exec Inodes.step { root } es = some s)
    (hlater : Runs.exec Inodes.step s fs = some t) :
    (∀ key i, s.byName key = some i ↔ ∃ n, s.nodes i = some n ∧ key = keyOf n.parent n.name) ∧
      (∀ i j m n, s.nodes i = some m → s.nodes j = some n → m.parent = n.parent → m.name = n.name →
      i = j) ∧ (∀ i n, s.nodes i = some n → rootIno < i ∧ i < s.next) ∧
      (∀ i < s.next, s.nodes i = none → t.nodes i = none) ∧
      (∀ i n, s.nodes i = some n → n.kids = s.children i) ∧
      (∀ i, ∃ p, s.path i = some p) ∧
      ∀ i names, s.Leads i names → s.path i = some (names.foldl join root) := by
  have hfollows := (Sound.mounted root).run hrun
  have h := hfollows.sound
  have hnext : rootIno < s.next := hfollows.next
  have hnamed : ∀ key i, s.byName key = some i ↔ ∃ n, s.nodes i = some n ∧
      key = keyOf n.parent n.name := by
    intro key i
    rw [h.named]
    constructor
    · intro hkey
      obtain ⟨l, hl, hkey⟩ := map_eq_some_iff.mp hkey
      obtain ⟨n, hn, rfl⟩ := label_eq_some hl
      exact ⟨n, hn, hkey.symm⟩
    · rintro ⟨n, hn, rfl⟩
      rw [label_of_some hn]
      rfl
  refine ⟨hnamed, fun i j m n hm hn hparent hname => ?_, h.numbered, fun i hi hnone => ?_, h.kids,
    fun i => ?_, fun i names hleads => ?_⟩
  · have hi := (hnamed (keyOf m.parent m.name) i).mpr ⟨m, hm, rfl⟩
    have hj := (hnamed (keyOf m.parent m.name) j).mpr ⟨n, hn, by rw [hparent, hname]⟩
    exact mem_unique hi hj
  · have hgone := (h.run hlater).gone i hi (by rw [label, hnone]; rfl)
    exact map_eq_none_iff.mp hgone
  · obtain ⟨parts, hparts⟩ := h.climb_terminates hnext i
    exact ⟨_, by rw [path, hparts, map_some]⟩
  · have hroot : s.root = root := hfollows.root
    rw [h.path_of_leads hnext hleads, hroot]

/-- A file is found two levels down, its directory moves below another, and the number of a third is
not given again. -/
theorem inodes_agree_moved :
    ∃ s t : Inodes,
      Runs.exec Inodes.step { root := ['r'] }
          [.insert 1 ['a'], .insert 2 ['b'], .reserve 1 ['c'], .release 1 ['c'], .reserve 1 ['d'],
            .reparent 1 ['a'] 5 ['e']] = some s ∧
        Runs.exec Inodes.step s [.insert 1 ['c'], .forget 3 1] = some t ∧
        s.path 3 = some ['r', '/', 'd', '/', 'e', '/', 'b'] ∧ t.nodes 4 = none ∧
        t.byName (keyOf 1 ['c']) = some 6 := by
  have h := inodes_agree ['r']
    [.insert 1 ['a'], .insert 2 ['b'], .reserve 1 ['c'], .release 1 ['c'], .reserve 1 ['d'],
    .reparent 1 ['a'] 5 ['e']] [.insert 1 ['c'], .forget 3 1] _ _ rfl rfl
  obtain ⟨-, -, -, hgone, -, -, hpath⟩ := h
  refine ⟨_, _, rfl, rfl, ?_, hgone 4 (by decide) (by decide), by decide⟩
  refine hpath 3 ([] ++ [['d']] ++ [['e']] ++ [['b']]) ?_
  refine .down (n := ⟨2, ['b'], 1, 0⟩) rfl ?_
  refine .down (n := ⟨5, ['e'], 1, 1⟩) rfl ?_
  exact .down (n := ⟨1, ['d'], 0, 1⟩) rfl .root

end Inodes
end Rail.Fuse
