import Rail.Foundation.ByteFile
import Rail.Foundation.Runs
import Rail.Foundation.TextMap
import Rail.Proto.Message

/-!
# The file handles of the NFS gateway

`src/nfs/server.cc`, `Handles`: what a client is given for a path, and what it is taken for when it
comes back.

A handle has 64 bytes, the first of which says what the others are.  A path of up to 56 bytes stands
in the handle itself.  A longer one is the digest of its directory and its name, or its own digest
where it has no name that fits, and a table finds the path that a digest belongs to.  The root of
the export is a handle with nothing in it: what it means is what was pinned.  The table has its
entries by digest (`Long`) and, so that they can be forgotten, by path in their order (`ByPath`).

The digest is a parameter.  Nothing of sixteen bytes tells all paths apart, so what is assumed of it
is that it tells those of the run apart.  `forget` goes when a name stops meaning what it did, and
takes with it the entry of a path and those below it.  The theorem says that nothing else
invalidates a handle, and `forget_stale` that this does.
-/

namespace Rail.Nfs

open List Option Function
open Wire (Bytes)
open Proto (Digest)
open ByteFile

abbrev Path := Bytes

def slash : UInt8 := 47

/-- `kHandleSize` -/
def handleSize : ℕ := 64

/-- `kInlineLimit` -/
def inlineLimit : ℕ := handleSize - 8

/-- `kDigestAt` -/
def digestAt : ℕ := 2

/-- `kNameAt` -/
def nameAt : ℕ := digestAt + 16

/-- `kNameRoom` -/
def nameRoom : ℕ := handleSize - nameAt

/-- The texts before and after the last slash, as `rfind` and `substr` find them. -/
def cut : Path → Option (Path × Bytes)
  | [] => none
  | c :: cs =>
    match cut cs with
    | some (parent, name) => some (c :: parent, name)
    | none => if c = slash then some ([], cs) else none

/-- The four kinds of handles. -/
inductive Shape where
  | anchored
  | inline
  | beside (parent : Path) (name : Bytes)
  | whole
  deriving DecidableEq

structure Handles where
  anchor : Path := []
  long : Digest → Option Path := fun _ => none
  byPath : List (Path × Digest) := []

namespace Handles

def pin (s : Handles) (path : Path) : Handles := { s with anchor := path }

/-- Which handle `encode` makes. -/
def shape (s : Handles) (path : Path) : Shape :=
  if s.anchor ≠ [] ∧ path = s.anchor then .anchored
  else if path.length ≤ inlineLimit then .inline
  else
    match cut path with
    | none => .whole
    | some (parent, name) =>
        if 0 < name.length ∧ name.length ≤ nameRoom then .beside parent name else .whole

/-- The path whose digest is in the handle. -/
def refersTo (s : Handles) (path : Path) : Option Path :=
  match s.shape path with
  | .anchored | .inline => none
  | .beside parent _ => some parent
  | .whole => some path

def remember (s : Handles) (d : Digest) (path : Path) : Handles :=
  { s with long := Function.update s.long d (some path), byPath :=
    TextMap.insertOrAssign path d s.byPath }

/-- `H`, with its first byte. -/
def tagged (tag : UInt8) : Bytes := pwrite (List.replicate handleSize 0) 0 [tag]

def inlineHandle (path : Path) : Bytes :=
  pwrite (pwrite (tagged 1) 1 [UInt8.ofNat path.length]) 8 path

def besideHandle (d : Digest) (name : Bytes) : Bytes :=
  pwrite (pwrite (pwrite (tagged 3) 1 [UInt8.ofNat name.length]) digestAt d.val) nameAt name

def wholeHandle (d : Digest) : Bytes := pwrite (tagged 2) 8 d.val

variable (digest : Path → Digest)

def encode (s : Handles) (path : Path) : Bytes × Handles :=
  match s.shape path with
  | .anchored => (tagged 4, s)
  | .inline => (inlineHandle path, s)
  | .beside parent name => (besideHandle (digest parent) name, s.remember (digest parent) parent)
  | .whole => (wholeHandle (digest path), s.remember (digest path) path)

def drop (s : Handles) (e : Path × Digest) : Handles :=
  { s with long := Function.update s.long e.2 none, byPath := s.byPath.erase e }

/-- The first half of `forget`: the entry of the path itself. -/
def forgetOwn (s : Handles) (path : Path) : Handles :=
  match s.byPath.find? fun e => e.1 = path with
  | none => s
  | some e => s.drop e

def forget (s : Handles) (path : Path) : Handles :=
  let t := s.forgetOwn path
  (TextMap.under (path ++ [slash]) t.byPath).foldl drop t

/-- The sixteen bytes of a handle, as a key of the table. -/
def keyAt (h : Bytes) (off : ℕ) : Option Digest :=
  if hlength : (slice h off 16).length = 16 then some ⟨slice h off 16, hlength⟩ else none

def decode (s : Handles) (h : Bytes) : Option Path :=
  if h.length ≠ handleSize then none
  else if cellAt h 0 = 4 then if s.anchor = [] then none else some s.anchor
  else if cellAt h 0 = 1 then
    let length := (cellAt h 1).toNat
    if length > inlineLimit then none else some (slice h 8 length)
  else if cellAt h 0 ≠ 2 ∧ cellAt h 0 ≠ 3 then none
  else
    match (keyAt h (if cellAt h 0 = 3 then digestAt else 8)).bind s.long with
    | none => none
    | some path =>
      if cellAt h 0 = 2 then some path
      else
        let length := (cellAt h 1).toNat
        if length = 0 ∨ length > nameRoom then none else some
          (path ++ slash :: slice h nameAt length)

inductive Event where
  | encode (path : Path)
  | pin (root : Path)
  | decode (h : Bytes)
  | forget (path : Path)
  deriving DecidableEq

/-- The handles given out and the paths read are for the caller. -/
def step (s : Handles) : Event → Option Handles
  | .encode path => some (s.encode digest path).2
  | .pin root => some (s.pin root)
  | .decode _ => some s
  | .forget path => some (s.forget path)

/-- The paths that may be digested: one itself, or its directory. -/
def Event.digested : Event → List Path
  | .encode path => path :: ((cut path).map Prod.fst).toList
  | _ => []

/-- `forget` of the first takes the entry of the second with it. -/
def Covers (gone dir : Path) : Prop := dir = gone ∨ gone ++ [slash] <+: dir

instance (gone dir : Path) : Decidable (Covers gone dir) := inferInstanceAs (Decidable (_ ∨ _))

/-! ## The bytes of a handle -/

theorem of_cut : ∀ {path : Path} {parent : Path} {name : Bytes}, cut path = some (parent, name) →
    path = parent ++ slash :: name
  | [], _, _, h => absurd h (some_ne_none _).symm
  | c :: cs, parent, name, h => by
    rw [cut] at h
    cases hcs : cut cs with
    | some found =>
      rw [hcs] at h
      obtain ⟨rfl, rfl⟩ := Prod.mk.inj (some.inj h)
      rw [of_cut hcs, cons_append]
    | none =>
      rw [hcs] at h
      obtain ⟨rfl, hsome⟩ := ite_none_right_eq_some.mp h
      obtain ⟨rfl, rfl⟩ := Prod.mk.inj (some.inj hsome)
      rfl

variable {digest}
variable {s t : Handles} {path : Path}

/-- The first two bytes, with nothing after them yet. -/
def head (tag len : UInt8) : Bytes := tag :: len :: List.replicate 62 0

theorem tagged_eq (tag : UInt8) : tagged tag = head tag 0 := rfl

theorem pwrite_tagged (tag len : UInt8) : pwrite (tagged tag) 1 [len] = head tag len := rfl

theorem length_head (tag len : UInt8) : (head tag len).length = 64 := rfl

theorem toNat_ofNat_length {d : Bytes} (h : d.length ≤ 56) :
    (UInt8.ofNat d.length).toNat = d.length := by
  rw [UInt8.toNat_ofNat']
  omega

theorem slice_pwrite_digest (f : Bytes) (off : ℕ) (d : Digest) :
    slice (pwrite f off d.val) off 16 = d.val := by
  have hself := slice_pwrite_self f off d.val
  rwa [d.property] at hself

theorem keyAt_of_slice {h : Bytes} {off : ℕ} {d : Digest} (hslice : slice h off 16 = d.val) :
    keyAt h off = some d := by
  have hlength : (slice h off 16).length = 16 := hslice ▸ d.property
  rw [keyAt, dif_pos hlength]
  exact congrArg some (Subtype.ext hslice)

section Decode

variable {h : Bytes} (hsize : h.length = handleSize)
include hsize

theorem decode_of_anchored (htag : cellAt h 0 = 4) (hanchor : t.anchor ≠ []) :
    t.decode h = some t.anchor := by
  rw [decode, if_neg (not_not_intro hsize), htag, if_pos rfl, if_neg hanchor]

theorem decode_of_inline (htag : cellAt h 0 = 1) {n : ℕ} (hlen : (cellAt h 1).toNat = n)
    (hn : n ≤ inlineLimit) : t.decode h = some (slice h 8 n) := by
  rw [decode, if_neg (not_not_intro hsize), htag, if_neg (by decide), if_pos rfl, hlen]
  exact if_neg (Nat.not_lt.mpr hn)

theorem decode_of_whole (htag : cellAt h 0 = 2) {d : Digest} (hkey : slice h 8 16 = d.val) :
    t.decode h = t.long d := by
  have hkey' : keyAt h (if (2 : UInt8) = 3 then digestAt else 8) = some d := keyAt_of_slice hkey
  rw [decode, if_neg (not_not_intro hsize), htag, if_neg (by decide), if_neg (by decide),
    if_neg (by decide), hkey', bind_some]
  cases t.long d with
  | none => rfl
  | some path => exact if_pos rfl

theorem decode_of_beside (htag : cellAt h 0 = 3) {d : Digest} (hkey : slice h digestAt 16 = d.val)
    {n : ℕ} (hlen : (cellAt h 1).toNat = n) (hn : 0 < n ∧ n ≤ nameRoom) :
    t.decode h = (t.long d).map fun dir => dir ++ slash :: slice h nameAt n := by
  have hkey' : keyAt h (if (3 : UInt8) = 3 then digestAt else 8) = some d := keyAt_of_slice hkey
  rw [decode, if_neg (not_not_intro hsize), htag, if_neg (by decide), if_neg (by decide),
    if_neg (by decide), hkey', bind_some, hlen]
  cases t.long d with
  | none => rfl
  | some dir =>
    have hbad : ¬(n = 0 ∨ n > nameRoom) := by omega
    exact if_neg hbad

end Decode

theorem decode_inlineHandle (t : Handles) (hlength : path.length ≤ 56) :
    t.decode (inlineHandle path) = some path := by
  rw [inlineHandle, pwrite_tagged]
  have hsize : (pwrite (head 1 (UInt8.ofNat path.length)) 8 path).length = handleSize :=
    length_pwrite_of_le (by rw [length_head]; omega)
  have hlen : (cellAt (pwrite (head 1 (UInt8.ofNat path.length)) 8 path) 1).toNat =
      path.length := by
    rw [cellAt_pwrite_of_lt _ (by omega)]
    exact toNat_ofNat_length hlength
  rw [decode_of_inline hsize (cellAt_pwrite_of_lt _ (by omega)) hlen hlength, slice_pwrite_self]

theorem decode_besideHandle (t : Handles) (d : Digest) {name : Bytes}
    (hname : 0 < name.length ∧ name.length ≤ 46) :
    t.decode (besideHandle d name) = (t.long d).map fun dir => dir ++ slash :: name := by
  rw [besideHandle, pwrite_tagged]
  have hinner : (pwrite (head 3 (UInt8.ofNat name.length)) digestAt d.val).length = 64 :=
    length_pwrite_of_le (by rw [length_head, d.property]; decide)
  have hsize : (pwrite (pwrite (head 3 (UInt8.ofNat name.length)) digestAt d.val) nameAt
      name).length = handleSize := by
    rw [length_pwrite_of_le, hinner, handleSize]
    rw [hinner, nameAt, digestAt]
    omega
  have htag : cellAt (pwrite (pwrite (head 3 (UInt8.ofNat name.length)) digestAt d.val) nameAt name)
      0 = 3 := by
    rw [cellAt_pwrite_of_lt _ (by decide), cellAt_pwrite_of_lt _ (by decide)]
    rfl
  have hlen : (cellAt (pwrite (pwrite (head 3 (UInt8.ofNat name.length)) digestAt d.val) nameAt
      name) 1).toNat = name.length := by
    rw [cellAt_pwrite_of_lt _ (by decide), cellAt_pwrite_of_lt _ (by decide)]
    exact toNat_ofNat_length (by omega)
  have hkey : slice (pwrite (pwrite (head 3 (UInt8.ofNat name.length)) digestAt d.val) nameAt name)
      digestAt 16 = d.val := by
    rw [slice_pwrite_of_le _ (by decide) (by rw [hinner]; decide), slice_pwrite_digest]
  rw [decode_of_beside hsize htag hkey hlen hname, slice_pwrite_self]

theorem decode_wholeHandle (t : Handles) (d : Digest) : t.decode (wholeHandle d) = t.long d := by
  rw [wholeHandle, tagged_eq]
  have hsize : (pwrite (head 2 0) 8 d.val).length = handleSize :=
    length_pwrite_of_le (by rw [length_head, d.property]; decide)
  exact decode_of_whole hsize (cellAt_pwrite_of_lt _ (by decide)) (slice_pwrite_digest _ _ d)

/-- What a shape says about the path. -/
def Fits (s : Handles) (path : Path) : Shape → Prop
  | .anchored => s.anchor ≠ [] ∧ path = s.anchor
  | .inline => path.length ≤ inlineLimit
  | .beside parent name => cut path = some (parent, name) ∧ 0 < name.length ∧ name.length ≤ nameRoom
  | .whole => True

theorem fits_shape (s : Handles) (path : Path) : s.Fits path (s.shape path) := by
  rw [shape]
  by_cases hanchor : s.anchor ≠ [] ∧ path = s.anchor
  · rw [if_pos hanchor]
    exact hanchor
  · rw [if_neg hanchor]
    split_ifs with hlength
    · exact hlength
    · cases hcut : cut path with
      | none => trivial
      | some found =>
        dsimp only
        split_ifs with hname
        · exact ⟨hcut, hname⟩
        · trivial

/-- A handle is read back wherever the anchor and the entry it refers to are what they were. -/
theorem decode_eq_path (digest : Path → Digest) (hanchor : s.anchor = [] ∨ t.anchor = s.anchor)
    (hlong : ∀ dir, s.refersTo path = some dir → t.long (digest dir) = some dir) :
    t.decode (s.encode digest path).1 = some path := by
  have hfits := s.fits_shape path
  rw [refersTo] at hlong
  rw [encode]
  cases hshape : s.shape path with
  | anchored =>
    rw [hshape] at hfits
    obtain ⟨hne, rfl⟩ := hfits
    have hsame := hanchor.resolve_left hne
    rw [← hsame] at hne ⊢
    exact decode_of_anchored rfl rfl hne
  | inline =>
    rw [hshape] at hfits
    exact decode_inlineHandle t hfits
  | beside parent name =>
    rw [hshape] at hfits hlong
    obtain ⟨hcut, hname⟩ := hfits
    dsimp only
    rw [decode_besideHandle t _ hname, hlong parent rfl, of_cut hcut]
    rfl
  | whole =>
    rw [hshape] at hlong
    dsimp only
    rw [decode_wholeHandle, hlong path rfl]

/-! ## The table -/

/-- `U` are the paths that may be in the table. -/
structure Sound (digest : Path → Digest) (U : Set Path) (s : Handles) : Prop where
  kept : ∀ e ∈ s.byPath, e.2 = digest e.1 ∧ e.1 ∈ U
  listed : ∀ d path, s.long d = some path → (path, d) ∈ s.byPath
  inOrder : TextMap.InOrder s.byPath

variable {U : Set Path} {e : Path × Digest}

theorem Sound.start : Sound digest U {} where
  kept _ he := absurd he not_mem_nil
  listed _ _ h := absurd h (some_ne_none _).symm
  inOrder := .nil

theorem Sound.remember (h : s.Sound digest U) (hpath : path ∈ U) :
    (s.remember (digest path) path).Sound digest U := by
  refine ⟨fun e he => ?_, fun d p hd => ?_, h.inOrder.insertOrAssign path _⟩
  · rcases TextMap.mem_insertOrAssign he with rfl | he
    · exact ⟨rfl, hpath⟩
    · exact h.kept e he
  · rw [Handles.remember] at hd
    by_cases hdigest : d = digest path
    · subst hdigest
      obtain rfl := some.inj ((update_self (digest path) (some path) s.long).symm.trans hd)
      exact TextMap.mem_insertOrAssign_self _ _ _
    · have hold := h.listed d p ((update_of_ne hdigest (some path) s.long).symm.trans hd)
      refine TextMap.mem_insertOrAssign_of_ne hold fun hp => hdigest ?_
      rw [← hp]
      exact (h.kept _ hold).1

theorem long_drop_of_ne {d : Digest} (hd : d ≠ e.2) : (s.drop e).long d = s.long d := by
  rw [drop]
  exact update_of_ne hd _ _

theorem long_drop_self (s : Handles) (e : Path × Digest) : (s.drop e).long e.2 = none := by
  rw [drop]
  exact update_self ..

theorem Sound.drop (h : s.Sound digest U) (e : Path × Digest) : (s.drop e).Sound digest U := by
  refine ⟨fun f hf => h.kept f (mem_of_mem_erase hf), fun d path hd => ?_,
    h.inOrder.sublist List.erase_sublist⟩
  by_cases hde : d = e.2
  · rw [hde, long_drop_self] at hd
    cases hd
  · rw [long_drop_of_ne hde] at hd
    exact (mem_erase_of_ne fun heq => hde (congrArg Prod.snd heq)).mpr (h.listed d path hd)

/-- The entry of a path is in the table. -/
def Knows (digest : Path → Digest) (s : Handles) (dir : Path) : Prop :=
  s.long (digest dir) = some dir

variable {dir : Path}

/-- Dropping an entry leaves those of all other paths. -/
theorem Knows.drop (hinj : Set.InjOn digest U) (hdir : dir ∈ U) (h : s.Knows digest dir)
    (he : e.2 = digest e.1 ∧ e.1 ∈ U) (hne : e.1 ≠ dir) : (s.drop e).Knows digest dir := by
  have hdigest : digest dir ≠ e.2 := fun heq => hne (hinj he.2 hdir (he.1.symm.trans heq.symm))
  rw [Knows, long_drop_of_ne hdigest]
  exact h

theorem Sound.foldl_drop (h : s.Sound digest U) (gone : List (Path × Digest)) :
    (gone.foldl Handles.drop s).Sound digest U := by
  induction gone generalizing s with
  | nil => exact h
  | cons e gone ih => exact ih (h.drop e)

theorem Knows.foldl_drop (hinj : Set.InjOn digest U) (hdir : dir ∈ U) {gone : List (Path × Digest)}
    (hgone : ∀ e ∈ gone, (e.2 = digest e.1 ∧ e.1 ∈ U) ∧ e.1 ≠ dir) (h : s.Knows digest dir) :
    (gone.foldl Handles.drop s).Knows digest dir := by
  induction gone generalizing s with
  | nil => exact h
  | cons e gone ih =>
    obtain ⟨he, hne⟩ := hgone e mem_cons_self
    exact ih (fun f hf => hgone f (mem_cons_of_mem e hf)) (h.drop hinj hdir he hne)

theorem Sound.forgetOwn (h : s.Sound digest U) (path : Path) :
    (s.forgetOwn path).Sound digest U := by
  rw [Handles.forgetOwn]
  cases s.byPath.find? fun e => e.1 = path with
  | none => exact h
  | some e => exact h.drop e

theorem Sound.forget (h : s.Sound digest U) (path : Path) : (s.forget path).Sound digest U :=
  (h.forgetOwn path).foldl_drop _

/-- Forgetting a path leaves the entries it does not cover. -/
theorem Knows.forget (hinj : Set.InjOn digest U) (hs : s.Sound digest U) (hdir : dir ∈ U)
    (h : s.Knows digest dir) (hnot : ¬Covers path dir) : (s.forget path).Knows digest dir := by
  rw [Covers, not_or] at hnot
  have hown : (s.forgetOwn path).Knows digest dir := by
    rw [forgetOwn]
    cases hfind : s.byPath.find? fun e => e.1 = path with
    | none => exact h
    | some e =>
      have hpath : e.1 = path :=
        of_decide_eq_true (find?_some (p := fun e : Path × Digest => decide (e.1 = path)) hfind)
      exact h.drop hinj hdir (hs.kept e (mem_of_find?_eq_some hfind)) fun hne =>
        hnot.1 (hne ▸ hpath)
  refine hown.foldl_drop hinj hdir fun e he => ?_
  obtain ⟨hmem, hbelow⟩ := TextMap.of_mem_under he
  exact ⟨(hs.forgetOwn path).kept e hmem, fun heq => hnot.2 (heq ▸ hbelow)⟩

theorem Knows.remember (hinj : Set.InjOn digest U) (hdir : dir ∈ U) (hpath : path ∈ U)
    (h : s.Knows digest dir) : (s.remember (digest path) path).Knows digest dir := by
  by_cases heq : digest dir = digest path
  · obtain rfl := hinj hdir hpath heq
    exact update_self ..
  · exact (update_of_ne heq _ _).trans h

theorem knows_remember (s : Handles) (dir : Path) :
    (s.remember (digest dir) dir).Knows digest dir :=
  update_self ..

/-- The table after `encode` has the entry that the handle refers to. -/
theorem encode_snd (s : Handles) (path : Path) :
    (s.encode digest path).2 = (s.refersTo path).elim s fun dir => s.remember (digest dir) dir := by
  rw [encode, refersTo]
  cases s.shape path <;> rfl

theorem mem_digested_of_refersTo (h : s.refersTo path = some dir) :
    dir ∈ (Event.encode path).digested := by
  have hfits := s.fits_shape path
  rw [refersTo] at h
  rw [Event.digested]
  cases hshape : s.shape path with
  | anchored | inline =>
    rw [hshape] at h
    cases h
  | beside parent name =>
    rw [hshape] at h hfits
    rw [hfits.1, ← some.inj h]
    exact mem_cons_of_mem path mem_cons_self
  | whole =>
    rw [hshape] at h
    rw [← some.inj h]
    exact mem_cons_self

/-! ## Runs -/

theorem Sound.encode (h : s.Sound digest U) (hU : ∀ p ∈ (Event.encode path).digested, p ∈ U) :
    (s.encode digest path).2.Sound digest U := by
  rw [encode_snd]
  cases hdir : s.refersTo path with
  | none => exact h
  | some dir => exact h.remember (hU dir (mem_digested_of_refersTo hdir))

theorem Sound.step (h : s.Sound digest U) {ev : Event} (hU : ∀ p ∈ ev.digested, p ∈ U)
    (hstep : s.step digest ev = some t) : t.Sound digest U := by
  cases ev with
  | encode path => exact some.inj hstep ▸ h.encode hU
  | pin root => exact some.inj hstep ▸ { h with }
  | decode _ => exact some.inj hstep ▸ h
  | forget path => exact some.inj hstep ▸ h.forget path

/-- What a handle made in `s` relies on is still there in `t`. -/
structure Stands (digest : Path → Digest) (s : Handles) (path : Path) (t : Handles) : Prop where
  anchor : s.anchor = [] ∨ t.anchor = s.anchor
  knows : ∀ dir, s.refersTo path = some dir → t.Knows digest dir

/-- The event is none of those that invalidate the handle. -/
def harmless (s : Handles) (path : Path) : Event → Bool
  | .encode _ | .decode _ => true
  | .pin root => s.anchor = [] || root = s.anchor
  | .forget gone => (s.refersTo path).all fun dir => !decide (Covers gone dir)

theorem anchor_foldl_drop (s : Handles) (gone : List (Path × Digest)) :
    (gone.foldl drop s).anchor = s.anchor := by
  induction gone generalizing s with
  | nil => rfl
  | cons e gone ih => exact ih (s.drop e)

theorem anchor_forget (s : Handles) (path : Path) : (s.forget path).anchor = s.anchor := by
  rw [forget, anchor_foldl_drop, forgetOwn]
  cases s.byPath.find? fun e => e.1 = path <;> rfl

theorem anchor_encode (s : Handles) (path : Path) : (s.encode digest path).2.anchor = s.anchor := by
  rw [encode_snd]
  cases s.refersTo path <;> rfl

variable {u : Handles}

theorem Stands.step (hinj : Set.InjOn digest U) (h : Stands digest s path t) (ht : t.Sound digest U)
    (hown : ∀ p ∈ (Event.encode path).digested, p ∈ U) {ev : Event} (hU : ∀ p ∈ ev.digested, p ∈ U)
    (hharm : s.harmless path ev = true) (hstep : t.step digest ev = some u) :
    Stands digest s path u := by
  have hdirU : ∀ {dir}, s.refersTo path = some dir → dir ∈ U :=
    fun hdir => hown _ (mem_digested_of_refersTo hdir)
  cases ev with
  | encode other =>
    cases hstep
    refine ⟨by rw [anchor_encode]; exact h.anchor, fun dir hdir => ?_⟩
    rw [encode_snd]
    cases hother : t.refersTo other with
    | none => exact h.knows dir hdir
    | some found =>
      exact (h.knows dir hdir).remember hinj (hdirU hdir)
        (hU found (mem_digested_of_refersTo hother))
  | pin root =>
    cases hstep
    refine ⟨?_, h.knows⟩
    rw [harmless, Bool.or_eq_true, decide_eq_true_iff, decide_eq_true_iff] at hharm
    exact hharm
  | decode _ => exact some.inj hstep ▸ h
  | forget gone =>
    cases hstep
    refine ⟨by rw [anchor_forget]; exact h.anchor, fun dir hdir => ?_⟩
    rw [harmless, hdir] at hharm
    have hnot : ¬Covers gone dir := by simpa using hharm
    exact (h.knows dir hdir).forget hinj ht (hdirU hdir) hnot

/-- The digest tells the paths of a run apart. -/
def Separates (digest : Path → Digest) (evs : List Event) : Prop :=
  ∀ p ∈ evs.flatMap Event.digested, ∀ q ∈ evs.flatMap Event.digested, digest p = digest q → p = q

instance (evs : List Event) : Decidable (Separates digest evs) := by
  unfold Separates
  infer_instance

/-- **A handle survives.**  In every state that is reached, the handle that is returned for a path
is read back as that path, at once and after any later events: any encodes and decodes, pins of the
root that was pinned, and forgets of paths that do not cover the one whose digest the handle
carries. -/
theorem decode_survives (digest : Path → Digest) (es fs : List Event) (path : Path) (s t : Handles)
    (hsep : Separates digest (es ++ .encode path :: fs))
    (hs : Runs.exec (step digest) {} es = some s) (hharm : ∀ ev ∈ fs, s.harmless path ev = true)
    (ht : Runs.exec (step digest) (s.encode digest path).2 fs = some t) :
    t.decode (s.encode digest path).1 = some path := by
  let U : Set Path := { p | p ∈ (es ++ .encode path :: fs).flatMap Event.digested }
  have hinj : Set.InjOn digest U := fun p hp q hq => hsep p hp q hq
  have hU : ∀ ev ∈ es ++ .encode path :: fs, ∀ p ∈ ev.digested, p ∈ U :=
    fun ev hev p hp => mem_flatMap.mpr ⟨ev, hev, hp⟩
  have hown := hU _ (mem_append_right es mem_cons_self)
  have hsound : s.Sound digest U :=
    Runs.exec_invariant (I := Sound digest U) (fun h hok hstep => h.step hok.2 hstep) Sound.start
      ((Runs.meets_true es _).and_events fun ev hev => hU ev (mem_append_left _ hev)) hs
  have hmade : Stands digest s path (s.encode digest path).2 := by
    refine ⟨.inr (anchor_encode s path), fun dir hdir => ?_⟩
    rw [encode_snd, hdir]
    exact knows_remember s dir
  have hfs : ∀ ev ∈ fs, (∀ p ∈ ev.digested, p ∈ U) ∧ s.harmless path ev = true :=
    fun ev hev => ⟨hU ev (mem_append_right es (mem_cons_of_mem _ hev)), hharm ev hev⟩
  have hend : t.Sound digest U ∧ Stands digest s path t :=
    Runs.exec_invariant (I := fun t => t.Sound digest U ∧ Stands digest s path t)
      (fun h hok hstep => ⟨h.1.step hok.2.1 hstep, h.2.step hinj h.1 hown hok.2.1 hok.2.2 hstep⟩)
      ⟨hsound.encode hown, hmade⟩
      ((Runs.meets_true fs _).and_events hfs) ht
  exact decode_eq_path digest hend.2.anchor hend.2.knows

/-- Sixteen bytes that tell a few paths apart: the last ones. -/
def lastSixteen (path : Path) : Digest :=
  ⟨(path.reverse ++ List.replicate 16 0).take 16, by
    rw [length_take, length_append, length_replicate]
    omega⟩

/-- A name in a directory whose path is long, while another directory is encoded and forgotten. -/
theorem decode_survives_forget :
    ∃ s t : Handles,
      Runs.exec (step lastSixteen) {} [.pin [100]] = some s ∧
        s.refersTo (List.replicate 50 97 ++ slash :: List.replicate 9 98) =
        some (List.replicate 50 97) ∧
        Runs.exec (step lastSixteen)
        (s.encode lastSixteen (List.replicate 50 97 ++ slash :: List.replicate 9 98)).2
        [.encode (List.replicate 55 99 ++ slash :: [98]), .pin [100],
        .forget (List.replicate 55 99), .encode [100]] = some t ∧
        t.byPath.length = 1 ∧
        t.decode (s.encode lastSixteen (List.replicate 50 97 ++ slash :: List.replicate 9 98)).1 =
          some (List.replicate 50 97 ++ slash :: List.replicate 9 98) := by
  have h := decode_survives lastSixteen [.pin [100]]
    [.encode (List.replicate 55 99 ++ slash :: [98]), .pin [100], .forget (List.replicate 55 99),
    .encode [100]]
    (List.replicate 50 97 ++ slash :: List.replicate 9 98) _ _ (by decide) rfl (by decide) rfl
  exact ⟨_, _, rfl, by decide, rfl, by decide, h⟩

end Handles
end Rail.Nfs
