import Rail.Foundation.ByteFile
import Rail.Foundation.Runs
import Mathlib.Algebra.Group.Nat.Defs
import Mathlib.Data.List.Pairwise

/-!
# What a widened fetch brings into the page cache

`src/linux/railfs-read.c`, with the writes of `railfs-write.c` and the evictions of
`railfs-direct.c`.

A readahead is cut into fetches.  The folios of a fetch are locked from before it is sent until its
bytes are copied, so nothing of them is written in between.  A fetch that is shorter than a block is
widened to the whole block, and what it brings besides is put into the cache as well
(`railfs_fill_around`): into folios that nobody has locked, and that nobody had locked while the
fetch was under way.  In that time a folio can be read, written, written back and evicted, and the
fetch then makes it anew with the bytes from before the write.

Every write of this mount has a number, and a byte is only the number of the write it came from:
zero for what the file held at first and for what was never written.  A folio is recent when none of
its bytes is from before the write that the peer has there.  The zeros that
`railfs_write_begin_folio` puts into a folio that a write is about to cover belong to that write.

The range of a writeback that the peer takes after it has answered a fetch is noted with the fetch
(`since`); no decision depends on it.
-/

namespace Rail.Kernel.Readahead

open List Option ByteFile

/-- Who has a folio locked: nobody, a reader or a writer, or a fetch. -/
inductive Lock where
  | free
  | user
  | fetch (i : ℕ)
  deriving DecidableEq

/-- A folio of the page cache.  `sending` has the bytes its writeback sends, and `answer` those that
`railfs_fill_folio` was answered. -/
structure Folio where
  pos : ℕ
  size : ℕ
  lock : Lock
  uptodate : Bool := false
  dirty : Bool := false
  sending : Option (List ℕ) := none
  answer : Option (List ℕ) := none
  data : List ℕ := []
  deriving DecidableEq

variable (f : Folio)

/-- A folio that is locked and has nothing in it. -/
def Folio.ready : Bool := decide (f.lock = .user) && !f.uptodate

def Folio.apart (pos size : ℕ) : Bool :=
  decide (pos + size ≤ f.pos) || decide (f.pos + f.size ≤ pos)

/-- A `railfs_fetch`.  `isize` is the size of the file when it was made, `buf` what it was
answered. -/
structure Fetch where
  offset : ℕ
  len : ℕ
  isize : ℕ
  widened : Bool
  buf : Option (List ℕ) := none
  failed : Bool := false
  since : List (ℕ × ℕ) := []
  deriving DecidableEq

variable (r : Fetch)

/-- The bytes that were answered. -/
def Fetch.filled : List ℕ := r.buf.getD []

/-- Where the bytes of a folio end that a fetch has to bring. -/
def Fetch.stop : ℕ := min (f.pos + f.size) r.isize

/-- What `railfs_fetch_land` makes of a folio. -/
def Fetch.landed : Folio :=
  if r.isize ≤ f.pos then { f with lock := .free, uptodate := true, data := [] }
  else if r.offset ≤ f.pos ∧ r.stop f ≤ r.offset + r.filled.length then
    { f with
      lock := .free
      uptodate := true
      data := slice r.filled (f.pos - r.offset) (r.stop f - f.pos) }
  else { f with lock := .free }

/-- A folio is inside what was answered. -/
def Fetch.covers (pos size : ℕ) : Bool :=
  decide (r.offset ≤ pos) && decide (pos + size ≤ r.offset + r.filled.length)

/-- The file at the peer, the size and the page cache of the inode, and the fetches made so far;
`block` is what a fetch is widened to. -/
structure Cache where
  block : ℕ
  peer : List ℕ
  isize : ℕ
  folios : List Folio := []
  fetches : List Fetch := []
  writes : ℕ := 0
  deriving DecidableEq

inductive Event where
  /-- A new folio, locked by whoever reads or writes it. -/
  | add (pos size : ℕ)
  | lock (pos : ℕ)
  | unlock (pos : ℕ)
  /-- The peer answers `railfs_fill_folio`. -/
  | ask (pos : ℕ)
  /-- The answer is copied. -/
  | fill (pos : ℕ)
  /-- `railfs_write_begin_folio` where the write covers the folio. -/
  | zero (pos : ℕ)
  /-- `railfs_write_end_folio`, for `len` bytes that were copied. -/
  | write (pos off len : ℕ)
  /-- `railfs_writeback_folio`. -/
  | writeback (pos : ℕ)
  /-- The bytes are copied, or taken from the folio by the transport. -/
  | stage (pos : ℕ)
  /-- The peer takes some of the bytes. -/
  | send (pos off n : ℕ)
  /-- The writeback ends; the folio may go back to dirty. -/
  | ended (pos : ℕ) (redirty : Bool)
  | evict (pos : ℕ)
  /-- `railfs_readahead` makes a fetch of a run of folios; the last one of a window may be
  widened. -/
  | readahead (offset : ℕ) (run : List ℕ) (last : Bool)
  /-- The peer answers a fetch. -/
  | serve (i : ℕ)
  | fail (i : ℕ)
  /-- `railfs_fetch_land`, for one folio. -/
  | land (i pos : ℕ)
  /-- `railfs_fill_around`, for one folio; `size` is that of a new one. -/
  | around (i pos size : ℕ)
  deriving DecidableEq

namespace Cache

def find (s : Cache) (pos : ℕ) : Option Folio := s.folios.find? fun f => f.pos = pos

variable (s : Cache)

/-- The folio at `pos` is changed. -/
def alter (pos : ℕ) (g : Folio → Folio) : Cache :=
  { s with folios := s.folios.map fun f => if f.pos = pos then g f else f }

/-- The folio at `pos`, where it meets a condition, is changed. -/
def touch (pos : ℕ) (ok : Folio → Bool) (g : Folio → Folio) : Option Cache :=
  (s.find pos).bind fun f => if ok f then some (s.alter pos g) else none

def insert (f : Folio) : Option Cache :=
  if s.folios.all (fun g => g.apart f.pos f.size) && decide (0 < f.size) then
    some { s with folios := f :: s.folios }
  else none

/-! ## Folios -/

def lock (s : Cache) (pos : ℕ) : Option Cache :=
  s.touch pos (fun f => decide (f.lock = .free)) fun f => { f with lock := .user }

def unlock (pos : ℕ) : Option Cache :=
  s.touch pos (fun f => decide (f.lock = .user)) fun f => { f with lock := .free, answer := none }

def ask (pos : ℕ) : Option Cache :=
  s.touch pos Folio.ready
    fun f => { f with answer := some (slice s.peer f.pos f.size) }

/-- Past what was answered the folio is zero. -/
def fill (pos : ℕ) : Option Cache :=
  s.touch pos (fun f => f.answer.isSome)
    fun f => { f with uptodate := true, data := f.answer.getD [], answer := none }

def zero (pos : ℕ) : Option Cache :=
  (s.touch pos Folio.ready
    fun f => { f with
    uptodate := true, answer := none, data := List.replicate f.size (s.writes + 1) }).map
    fun t => { t with writes := s.writes + 1 }

def write (pos off len : ℕ) : Option Cache :=
  (s.touch pos (fun f => decide (f.lock = .user) && f.uptodate && decide (0 < len) &&
    decide (off + len ≤ f.size))
    fun f => { f with
      dirty := true
      lock := .free
      data := pwrite f.data off (List.replicate len (s.writes + 1)) }).map
    fun t => { t with writes := s.writes + 1, isize := max s.isize (pos + off + len) }

/-- The bytes of a folio that are inside the file. -/
def clip (f : Folio) : ℕ := if s.isize ≤ f.pos then 0 else min f.size (s.isize - f.pos)

def writeback (pos : ℕ) : Option Cache :=
  s.touch pos (fun f => f.dirty && decide (f.lock = .free) && f.sending.isNone)
    fun f => { f with
      dirty := false
      sending := if s.clip f = 0 then none else some (f.data.take (s.clip f)) }

def stage (pos : ℕ) : Option Cache :=
  s.touch pos (fun f => f.sending.isSome)
    fun f => { f with sending := f.sending.map fun d => f.data.take d.length }

/-- The peer has the bytes, and every fetch it has answered did not. -/
def taken (at_ : ℕ) (d : List ℕ) : Cache :=
  { s with
    peer := pwrite s.peer at_ d
    fetches := s.fetches.map fun r =>
      if r.buf.isSome then { r with since := (at_, d.length) :: r.since } else r }

def send (pos off n : ℕ) : Option Cache :=
  (s.find pos).bind fun f =>
  f.sending.bind fun d =>
    if off + n ≤ d.length then some (s.taken (pos + off) (slice d off n)) else none

def ended (pos : ℕ) (redirty : Bool) : Option Cache :=
  s.touch pos (fun f => f.sending.isSome) fun f =>
    { f with sending := none, dirty := f.dirty || redirty }

def evict (pos : ℕ) : Option Cache :=
  (s.find pos).bind fun f =>
    if !f.dirty && decide (f.lock = .free) && f.sending.isNone then
      some { s with folios := s.folios.filter fun g => g.pos ≠ pos }
    else none

/-! ## Fetches -/

/-- The end of a run of folios, each starting where the last one ends. -/
def reach (s : Cache) : ℕ → List ℕ → Option ℕ
  | at_, [] => some at_
  | at_, p :: ps => (s.find p).bind fun f =>
    if decide (p = at_) && f.ready then reach s (at_ + f.size) ps else none

/-- The range of a fetch: a short one at the end of a window is widened to its block. -/
def span (offset stop : ℕ) (last : Bool) : Fetch :=
  if last && decide (stop - offset < s.block) then
    { offset := offset / s.block * s.block
      len := max s.block (stop - offset / s.block * s.block)
      isize := s.isize
      widened := true }
  else { offset, len := stop - offset, isize := s.isize, widened := false }

def readahead (offset : ℕ) (run : List ℕ) (last : Bool) : Option Cache :=
  (s.reach offset run).bind fun stop =>
    if offset < stop then
      some { s with
        folios := s.folios.map fun f =>
          if f.pos ∈ run then { f with lock := .fetch s.fetches.length, answer := none } else f
        fetches := s.fetches ++ [s.span offset stop last] }
    else none

def serve (i : ℕ) : Option Cache :=
  (s.fetches[i]?).bind fun r =>
    if r.buf.isNone && !r.failed then
      some { s with fetches := s.fetches.set i { r with
        buf := some (slice s.peer r.offset r.len) } }
    else none

def fail (i : ℕ) : Option Cache :=
  (s.fetches[i]?).bind fun r =>
    if r.buf.isNone then some
      { s with fetches := s.fetches.set i { r with failed := true } } else none

def land (i pos : ℕ) : Option Cache :=
  (s.fetches[i]?).bind fun r =>
    if r.buf.isSome || r.failed then
      s.touch pos (fun f => decide (f.lock = .fetch i)) r.landed
    else none

def around (i pos size : ℕ) : Option Cache :=
  (s.fetches[i]?).bind fun r =>
    if r.widened && s.folios.all (fun f => decide (f.lock ≠ .fetch i)) then
      match s.find pos with
      | some _ =>
          s.touch pos (fun f => decide (f.lock = .free) && !f.uptodate && r.covers f.pos f.size)
          fun f => { f with uptodate := true, data := slice r.filled (f.pos - r.offset) f.size }
      | none =>
        if r.covers pos size then
          s.insert
            { pos, size, lock := .free, uptodate := true,
              data := slice r.filled (pos - r.offset) size }
        else none
    else none

def step : Event → Option Cache
  | .add pos size => s.insert { pos, size, lock := .user }
  | .lock pos => s.lock pos
  | .unlock pos => s.unlock pos
  | .ask pos => s.ask pos
  | .fill pos => s.fill pos
  | .zero pos => s.zero pos
  | .write pos off len => s.write pos off len
  | .writeback pos => s.writeback pos
  | .stage pos => s.stage pos
  | .send pos off n => s.send pos off n
  | .ended pos redirty => s.ended pos redirty
  | .evict pos => s.evict pos
  | .readahead offset run last => s.readahead offset run last
  | .serve i => s.serve i
  | .fail i => s.fail i
  | .land i pos => s.land i pos
  | .around i pos size => s.around i pos size

/-- A file of `n` bytes, none of which this mount has written, with nothing cached. -/
def cold (block n : ℕ) : Cache := { block, peer := List.replicate n 0, isize := n }

/-- The size of the folio that is filled: of the one in the cache, or of a new one. -/
def sized (pos size : ℕ) : ℕ := ((s.find pos).map Folio.size).getD size

/-- **The condition.**  No writeback that the peer took after it answered a widened fetch is of a
folio that the fetch fills besides its own. -/
def unmoved : Event → Bool
  | .around i pos size => (s.fetches[i]?).all fun r =>
    r.since.all fun q => decide (q.1 + q.2 ≤ pos) || decide (pos + s.sized pos size ≤ q.1)
  | _ => true

/-! ## The invariant -/

/-- None of the bytes is from before the write that the peer has there. -/
def Recent (peer : List ℕ) (pos n : ℕ) (d : List ℕ) : Prop :=
  ∀ x < n, cellAt peer (pos + x) ≤ cellAt d x

def Apart (f g : Folio) : Prop := f.pos + f.size ≤ g.pos ∨ g.pos + g.size ≤ f.pos

instance : Std.Symm Apart := ⟨fun _ _ h => h.symm⟩

/-- A fetch has a folio for its own: nothing is in the folio, the file did not reach further than
the fetch believes, and no writeback was of it since. -/
structure Owned (s : Cache) (pos size : ℕ) (r : Fetch) : Prop where
  beyond : ∀ x < size, r.isize ≤ pos + x → cellAt s.peer (pos + x) = 0
  since : ∀ q ∈ r.since, q.1 + q.2 ≤ pos ∨ pos + size ≤ q.1

structure FolioOk (s : Cache) (f : Folio) : Prop where
  size : 0 < f.size
  recent : f.uptodate = true → Recent s.peer f.pos f.size f.data
  data : ∀ x, cellAt f.data x ≤ s.writes
  dirty : f.dirty = true → f.uptodate = true
  sending : ∀ d, f.sending = some d → f.uptodate = true ∧ f.pos + d.length ≤ s.isize ∧
    d.length ≤ f.size ∧
    ∀ x < d.length, cellAt d x ≤ cellAt f.data x
  answer : ∀ b, f.answer = some b → f.uptodate = false ∧ f.lock = .user ∧
    Recent s.peer f.pos f.size b ∧
    ∀ x, cellAt b x ≤ s.writes
  owned : ∀ i, f.lock = .fetch i → f.uptodate = false ∧ ∃ r, s.fetches[i]? = some r ∧
    Owned s f.pos f.size r

/-- What a fetch was answered is recent, apart from the writebacks since. -/
structure FetchOk (s : Cache) (r : Fetch) : Prop where
  recent : ∀ x < r.filled.length,
    (∀ q ∈ r.since, ¬ (q.1 ≤ r.offset + x ∧ r.offset + x < q.1 + q.2)) →
    cellAt s.peer (r.offset + x) ≤ cellAt r.filled x
  data : ∀ x, cellAt r.filled x ≤ s.writes

structure Sound (s : Cache) : Prop where
  peer : ∀ x, cellAt s.peer x ≤ s.writes
  length : s.peer.length ≤ s.isize
  apart : s.folios.Pairwise Apart
  folios : ∀ f ∈ s.folios, FolioOk s f
  fetches : ∀ r ∈ s.fetches, FetchOk s r

variable {s s' : Cache} {f g : Folio} {r : Fetch} {pos i : ℕ}

theorem Sound.cold (block n : ℕ) : (cold block n).Sound where
  peer x := by
    rw [Cache.cold]
    exact le_of_eq (cellAt_replicate n x)
  length := by simp [Cache.cold]
  apart := .nil
  folios f hf := absurd hf (by simp [Cache.cold])
  fetches r hr := absurd hr (by simp [Cache.cold])

/-- Two folios that share a byte are one. -/
theorem Sound.eq_of_meet (hs : s.Sound) (hf : f ∈ s.folios) (hg : g ∈ s.folios) {x y : ℕ}
    (hx : x < f.size) (hy : y < g.size) (h : f.pos + x = g.pos + y) : f = g := by
  by_contra hne
  rcases hs.apart.forall hf hg hne with h' | h' <;> omega

theorem Sound.eq_of_pos (hs : s.Sound) (hf : f ∈ s.folios) (hg : g ∈ s.folios) (h : f.pos = g.pos) :
    f = g :=
  hs.eq_of_meet hf hg (hs.folios f hf).size (hs.folios g hg).size (by omega)

theorem mem_of_find (h : s.find pos = some f) : f ∈ s.folios ∧ f.pos = pos :=
  ⟨mem_of_find?_eq_some h, by simpa using find?_some h⟩

/-! ### What does not matter -/

/-- The fetches of one state are those of another, as far as the folios go. -/
def Keeps (s s' : Cache) : Prop := ∀ (i : ℕ) (r : Fetch), s.fetches[i]? = some r →
  ∃ r' : Fetch, s'.fetches[i]? = some r' ∧ r'.isize = r.isize ∧ r'.since = r.since

theorem Keeps.refl (h : s'.fetches = s.fetches) : Keeps s s' :=
  fun i r hr => ⟨r, by rw [h, hr], rfl, rfl⟩

theorem FolioOk.mono (hf : FolioOk s f) (hp : s'.peer = s.peer) (hw : s.writes ≤ s'.writes)
    (hi : s.isize ≤ s'.isize) (hk : Keeps s s') : FolioOk s' f where
  size := hf.size
  recent hu := by
    rw [hp]
    exact hf.recent hu
  data x := le_trans (hf.data x) hw
  dirty := hf.dirty
  sending d hd := by
    obtain ⟨hu, hreach, hsize, hold⟩ := hf.sending d hd
    exact ⟨hu, le_trans hreach hi, hsize, hold⟩
  answer b hb := by
    obtain ⟨hu, hl, hrecent, hdata⟩ := hf.answer b hb
    rw [hp]
    exact ⟨hu, hl, hrecent, fun x => le_trans (hdata x) hw⟩
  owned i hl := by
    obtain ⟨hu, r, hr, hown⟩ := hf.owned i hl
    obtain ⟨r', hr', hsize, hsince⟩ := hk i r hr
    refine ⟨hu, r', hr', fun x hx hle => ?_, ?_⟩
    · rw [hp]
      exact hown.beyond x hx (hsize ▸ hle)
    · rw [hsince]
      exact hown.since

theorem FetchOk.mono (hr : FetchOk s r) (hp : s'.peer = s.peer) (hw : s.writes ≤ s'.writes) :
    FetchOk s' r where
  recent := by
    rw [hp]
    exact hr.recent
  data x := le_trans (hr.data x) hw

/-! ### One folio changes -/

variable {n off : ℕ} {g : Folio → Folio} {ok : Folio → Bool}

theorem touch_eq_some (h : s.touch pos ok g = some s') :
    (∃ f ∈ s.folios, f.pos = pos ∧ ok f = true) ∧ s' = s.alter pos g := by
  obtain ⟨f, hf, h⟩ := bind_eq_some_iff.mp h
  obtain ⟨hok, h⟩ := ite_none_right_eq_some.mp h
  obtain ⟨hmem, hpos⟩ := mem_of_find hf
  exact ⟨⟨f, hmem, hpos, hok⟩, (some.inj h).symm⟩

/-- Folios that stay where they are stay apart. -/
theorem apart_map {l : List Folio} (h : l.Pairwise Apart) (g : Folio → Folio)
    (hg : ∀ f, (g f).pos = f.pos ∧ (g f).size = f.size) : (l.map g).Pairwise Apart := by
  rw [pairwise_map]
  refine h.imp fun {a b} hab => ?_
  rw [Apart, (hg a).1, (hg a).2, (hg b).1, (hg b).2]
  exact hab

/-- **One folio changes in place**, and the rest of the state only grows. -/
theorem Sound.touch (hs : s.Sound) (h : s.touch pos ok g = some s')
    (hg : ∀ f, (g f).pos = f.pos ∧ (g f).size = f.size) {writes isize : ℕ} (hw : s.writes ≤ writes)
    (hi : s.isize ≤ isize) (hfolio : ∀ f ∈ s.folios, f.pos = pos → ok f = true → FolioOk s f →
      FolioOk { s with writes, isize } (g f)) :
    Sound { s' with writes, isize } := by
  obtain ⟨⟨f, hf, hpos, hok⟩, rfl⟩ := touch_eq_some h
  refine ⟨fun x => le_trans (hs.peer x) hw, le_trans hs.length hi, ?_, fun e he => ?_, fun r hr =>
    (hs.fetches r hr).mono rfl hw⟩
  · refine apart_map hs.apart _ fun e => ?_
    split_ifs
    · exact hg e
    · exact ⟨rfl, rfl⟩
  · obtain ⟨d, hd, rfl⟩ := List.mem_map.mp he
    split_ifs with hdp
    · obtain rfl := hs.eq_of_pos hd hf (hdp.trans hpos.symm)
      exact (hfolio d hd hdp hok (hs.folios d hd)).mono rfl le_rfl le_rfl (.refl rfl)
    · exact (hs.folios d hd).mono rfl hw hi (.refl rfl)

/-- A folio changes, and nothing else. -/
theorem Sound.touch_only (hs : s.Sound) (h : s.touch pos ok g = some s')
    (hg : ∀ f, (g f).pos = f.pos ∧ (g f).size = f.size)
    (hfolio : ∀ f ∈ s.folios, f.pos = pos → ok f = true → FolioOk s f → FolioOk s (g f)) :
    s'.Sound := by
  have hsound := hs.touch h hg (le_refl s.writes) (le_refl s.isize) hfolio
  obtain ⟨-, rfl⟩ := touch_eq_some h
  exact hsound

theorem Sound.insert (hs : s.Sound) (h : s.insert f = some s') (hf : 0 < f.size → FolioOk s f) :
    s'.Sound := by
  obtain ⟨hguard, h⟩ := ite_none_right_eq_some.mp h
  obtain ⟨hall, hsize⟩ := Bool.and_eq_true_iff.mp hguard
  cases h
  refine ⟨hs.peer, hs.length, pairwise_cons.mpr ⟨fun e he => ?_, hs.apart⟩, fun e he => ?_,
    fun r hr =>
    (hs.fetches r hr).mono rfl le_rfl⟩
  · have hapart := List.all_eq_true.mp hall e he
    simpa [Folio.apart, Apart] using hapart
  · rcases mem_cons.mp he with rfl | he
    · exact (hf (of_decide_eq_true hsize)).mono rfl le_rfl le_rfl (.refl rfl)
    · exact (hs.folios e he).mono rfl le_rfl le_rfl (.refl rfl)

/-! ### Reads and writes -/

theorem slice_le {d : List ℕ} {w : ℕ} (h : ∀ x, cellAt d x ≤ w) (off n x : ℕ) :
    cellAt (slice d off n) x ≤ w := by
  rcases lt_or_ge x n with hx | hx
  · rw [cellAt_slice _ hx]
    exact h _
  · rw [cellAt_of_le (by rw [length_slice]; omega)]
    exact Nat.zero_le w

theorem Sound.add {size : ℕ} (hs : s.Sound) (h : s.insert { pos, size, lock := .user } = some s') :
    s'.Sound :=
  hs.insert h fun hsize =>
    { size := hsize
      recent := nofun
      data := fun x => by simp
      dirty := nofun
      sending := nofun
      answer := nofun
      owned := nofun }

theorem Sound.lock (hs : s.Sound) (h : s.lock pos = some s') : s'.Sound := by
  refine hs.touch_only h (fun f => ⟨rfl, rfl⟩) fun f _ _ _ hf => ?_
  exact { hf with
    answer := fun b hb => ⟨(hf.answer b hb).1, rfl, (hf.answer b hb).2.2⟩
    owned := nofun }

theorem Sound.unlock (hs : s.Sound) (h : s.unlock pos = some s') : s'.Sound := by
  refine hs.touch_only h (fun f => ⟨rfl, rfl⟩) fun f _ _ _ hf => ?_
  exact { hf with
    answer := nofun
    owned := nofun }

theorem ready_iff : f.ready = true ↔ f.lock = .user ∧ f.uptodate = false := by
  simp [Folio.ready]

theorem Sound.ask (hs : s.Sound) (h : s.ask pos = some s') : s'.Sound := by
  refine hs.touch_only h (fun f => ⟨rfl, rfl⟩) fun f _ _ hok hf => ?_
  obtain ⟨hlock, hu⟩ := ready_iff.mp hok
  refine { hf with answer := fun b hb => ?_ }
  cases hb
  refine ⟨hu, hlock, fun x hx => ?_, slice_le hs.peer _ _⟩
  rw [cellAt_slice _ hx]

/-- **A folio that is brought up to date**, from bytes that are recent. -/
theorem FolioOk.filled (hf : FolioOk s f) (hu : f.uptodate = false) {lock : Lock}
    (hlock : lock = .free ∨ lock = .user) {b : List ℕ} (hb : Recent s.peer f.pos f.size b)
    (hle : ∀ x, cellAt b x ≤ s.writes) :
    FolioOk s { f with lock, uptodate := true, answer := none, data := b } where
  size := hf.size
  recent _ := hb
  data := hle
  dirty _ := rfl
  sending d hd := by
    rw [(hf.sending d hd).1] at hu
    exact absurd hu (by decide)
  answer b hb := absurd hb (by simp)
  owned i hi := by
    rcases hlock with rfl | rfl
    · cases hi
    · cases hi

theorem FolioOk.lock_user (hf : FolioOk s f) {b : List ℕ} (h : f.answer = some b) :
    f.lock = .user :=
  (hf.answer b h).2.1

theorem FolioOk.answer_eq_none (hf : FolioOk s f) (h : f.lock ≠ .user) : f.answer = none := by
  cases hb : f.answer with
  | none => rfl
  | some b => exact absurd (hf.lock_user hb) h

theorem Sound.fill (hs : s.Sound) (h : s.fill pos = some s') : s'.Sound := by
  refine hs.touch_only h (fun f => ⟨rfl, rfl⟩) fun f _ _ hok hf => ?_
  obtain ⟨b, hb⟩ := isSome_iff_exists.mp hok
  obtain ⟨hu, hlock, hrecent, hle⟩ := hf.answer b hb
  have hfill := hf.filled hu (.inr hlock) hrecent hle
  simpa only [hb, getD_some] using hfill

/-- The bytes of a write are newer than everything. -/
theorem cellAt_replicate_of_lt {v x : ℕ} (h : x < n) : cellAt (List.replicate n v) x = v := by
  rw [cellAt, getD_eq_getElem _ _ (by simpa using h), getElem_replicate]

theorem replicate_le {v w : ℕ} (h : v ≤ w) (x : ℕ) : cellAt (List.replicate n v) x ≤ w := by
  rcases lt_or_ge x n with hx | hx
  · rwa [cellAt_replicate_of_lt hx]
  · rw [cellAt_of_le (by simpa using hx)]
    exact Nat.zero_le w

theorem Sound.zero (hs : s.Sound) (h : s.zero pos = some s') : s'.Sound := by
  obtain ⟨t, ht, rfl⟩ := map_eq_some_iff.mp h
  have hsound := hs.touch ht (fun f => ⟨rfl, rfl⟩) (Nat.le_succ s.writes) (le_refl s.isize)
    fun f _ _ hok hf => ?_
  · obtain ⟨-, rfl⟩ := touch_eq_some ht
    exact hsound
  obtain ⟨hlock, hu⟩ := ready_iff.mp hok
  have hgrown : FolioOk { s with writes := s.writes + 1, isize := s.isize } f :=
    hf.mono rfl (Nat.le_succ _) le_rfl (.refl rfl)
  refine hgrown.filled hu (.inr hlock) (fun x hx => ?_) (replicate_le le_rfl)
  rw [cellAt_replicate_of_lt hx]
  exact le_trans (hs.peer _) (Nat.le_succ _)

theorem Sound.write {len : ℕ} (hs : s.Sound) (h : s.write pos off len = some s') : s'.Sound := by
  obtain ⟨t, ht, rfl⟩ := map_eq_some_iff.mp h
  refine hs.touch ht (fun f => ⟨rfl, rfl⟩) (Nat.le_succ s.writes) (le_max_left _ _)
    fun f _ _ hok hf => ?_
  have hu : f.uptodate = true := by
    simp only [Bool.and_eq_true] at hok
    exact hok.1.1.2
  have hnew : ∀ x,
      cellAt f.data x ≤ cellAt (pwrite f.data off (List.replicate len (s.writes + 1))) x := by
    intro x
    rw [cellAt_pwrite]
    split_ifs with hx
    · rw [cellAt_replicate_of_lt (by rw [length_replicate] at hx; omega)]
      exact le_trans (hf.data x) (Nat.le_succ _)
    · exact le_refl _
  refine ⟨hf.size, fun _ x hx => le_trans (hf.recent hu x hx) (hnew x), fun x => ?_, fun _ => hu,
    fun d hd => ?_, fun b hb => ?_, nofun⟩
  · rw [cellAt_pwrite]
    split_ifs
    · exact replicate_le le_rfl _
    · exact le_trans (hf.data x) (Nat.le_succ _)
  · obtain ⟨-, hreach, hsize, hold⟩ := hf.sending d hd
    exact ⟨hu, le_trans hreach (le_max_left _ _), hsize, fun x hx => le_trans (hold x hx) (hnew x)⟩
  · rw [(hf.answer b hb).1] at hu
    exact absurd hu (by decide)

/-! ### Writeback -/

theorem clip_le (s : Cache) (f : Folio) :
    s.clip f ≤ f.size ∧ (s.clip f ≠ 0 → f.pos + s.clip f ≤ s.isize) := by
  rw [clip]
  split_ifs
  · exact ⟨Nat.zero_le _, fun h => absurd rfl h⟩
  · exact ⟨Nat.min_le_left _ _, fun _ => by omega⟩

/-- What is sent are bytes of the folio, and inside the file. -/
theorem FolioOk.sends (hf : FolioOk s f) (hu : f.uptodate = true) (hn : n ≤ f.size)
    (hreach : f.pos + n ≤ s.isize) (dirty : Bool) :
    FolioOk s { f with dirty, sending := some (f.data.take n) } where
  size := hf.size
  recent := hf.recent
  data := hf.data
  dirty _ := hu
  sending d hd := by
    cases hd
    have hlen : (f.data.take n).length ≤ n := length_take_le n f.data
    refine ⟨hu, le_trans (Nat.add_le_add_left hlen _) hreach, le_trans hlen hn, fun x hx => ?_⟩
    rw [cellAt_take _ (lt_of_lt_of_le hx hlen)]
  answer := hf.answer
  owned := hf.owned

theorem Sound.writeback (hs : s.Sound) (h : s.writeback pos = some s') : s'.Sound := by
  refine hs.touch_only h (fun f => ⟨rfl, rfl⟩) fun f _ _ hok hf => ?_
  have hu : f.uptodate = true := by
    simp only [Bool.and_eq_true] at hok
    exact hf.dirty hok.1.1
  obtain ⟨hsize, hreach⟩ := clip_le s f
  split_ifs with hclip
  · exact { hf with
      dirty := fun _ => hu
      sending := nofun }
  · exact hf.sends hu hsize (hreach hclip) false

theorem Sound.stage (hs : s.Sound) (h : s.stage pos = some s') : s'.Sound := by
  refine hs.touch_only h (fun f => ⟨rfl, rfl⟩) fun f _ _ hok hf => ?_
  obtain ⟨d, hd⟩ := isSome_iff_exists.mp hok
  obtain ⟨hu, hreach, hsize, -⟩ := hf.sending d hd
  have hsends := hf.sends hu hsize hreach f.dirty
  simpa only [hd, map_some] using hsends

theorem Sound.ended {redirty : Bool} (hs : s.Sound) (h : s.ended pos redirty = some s') :
    s'.Sound := by
  refine hs.touch_only h (fun f => ⟨rfl, rfl⟩) fun f _ _ hok hf => ?_
  obtain ⟨d, hd⟩ := isSome_iff_exists.mp hok
  exact { hf with
    dirty := fun _ => (hf.sending d hd).1
    sending := nofun }

theorem Sound.evict (hs : s.Sound) (h : s.evict pos = some s') : s'.Sound := by
  obtain ⟨f, hf, h⟩ := bind_eq_some_iff.mp h
  obtain ⟨-, h⟩ := ite_none_right_eq_some.mp h
  cases h
  refine ⟨hs.peer, hs.length, hs.apart.filter _, fun g hg => ?_, fun r hr =>
    (hs.fetches r hr).mono rfl le_rfl⟩
  exact (hs.folios g (mem_filter.mp hg).1).mono rfl le_rfl le_rfl (.refl rfl)

/-- A byte of the peer after a writeback: as it was, or one of the folio that is written back. -/
theorem cellAt_taken (hf : FolioOk s f) {d : List ℕ} (hd : f.sending = some d)
    (hn : off + n ≤ d.length) (y : ℕ) :
    (cellAt (pwrite s.peer (f.pos + off) (slice d off n)) y = cellAt s.peer y) ∨
      ∃ z < f.size, y = f.pos + z ∧ (f.pos + off ≤ y ∧ y < f.pos + off + n) ∧
        cellAt (pwrite s.peer (f.pos + off) (slice d off n)) y ≤ cellAt f.data z := by
  obtain ⟨-, -, hsize, hold⟩ := hf.sending d hd
  have hlen : (slice d off n).length = n := by
    rw [length_slice]
    omega
  rw [cellAt_pwrite, hlen]
  split_ifs with hy
  · right
    refine ⟨y - f.pos, by omega, by omega, hy, ?_⟩
    rw [cellAt_slice _ (by omega), show off + (y - (f.pos + off)) = y - f.pos by omega]
    exact hold _ (by omega)
  · exact .inl rfl

/-- **The peer takes bytes of a writeback.**  They are in no folio but the one that is written back,
which is up to date; so neither a folio that is still being filled nor one of a fetch is
concerned. -/
theorem Sound.send (hs : s.Sound) (h : s.send pos off n = some s') : s'.Sound := by
  obtain ⟨f, hfind, h⟩ := bind_eq_some_iff.mp h
  obtain ⟨d, hd, h⟩ := bind_eq_some_iff.mp h
  obtain ⟨hn, h⟩ := ite_none_right_eq_some.mp h
  cases h
  obtain ⟨hf, rfl⟩ := mem_of_find hfind
  have hfok := hs.folios f hf
  obtain ⟨hu, hreach, hsize, -⟩ := hfok.sending d hd
  have hcases := cellAt_taken hfok hd hn
  -- a folio that is not up to date is another one
  have hother : ∀ g ∈ s.folios, g.uptodate = false → ∀ x < g.size,
      cellAt (pwrite s.peer (f.pos + off) (slice d off n)) (g.pos + x) =
      cellAt s.peer (g.pos + x) := by
    intro g hg hgu x hx
    rcases hcases (g.pos + x) with hsame | ⟨z, hz, hy, -, -⟩
    · exact hsame
    · rw [hs.eq_of_meet hg hf hx hz hy, hu] at hgu
      exact absurd hgu (by decide)
  have hlen : (slice d off n).length = n := by
    rw [length_slice]
    omega
  refine ⟨fun y => ?_, ?_, hs.apart, fun g hg => ?_, fun r hr => ?_⟩
  · rcases hcases y with hsame | ⟨z, -, -, -, hle⟩
    · exact le_of_eq_of_le hsame (hs.peer y)
    · exact le_trans hle (hfok.data z)
  · show (pwrite s.peer (f.pos + off) (slice d off n)).length ≤ s.isize
    rcases eq_or_ne (slice d off n) [] with he | he
    · rw [he, pwrite_nil]
      exact hs.length
    · rw [length_pwrite _ _ he, hlen]
      have := hs.length
      omega
  · have hgok := hs.folios g hg
    refine { hgok with
      recent := fun hgu x hx => ?_, answer := fun b hb => ?_, owned := fun i hi => ?_ }
    · rcases hcases (g.pos + x) with hsame | ⟨z, hz, hy, -, hle⟩
      · exact le_of_eq_of_le hsame (hgok.recent hgu x hx)
      · obtain rfl := hs.eq_of_meet hg hf hx hz hy
        rw [show x = z by omega]
        rwa [show g.pos + x = g.pos + z by omega] at hle
    · obtain ⟨hgu, hlock, hrecent, hle⟩ := hgok.answer b hb
      exact ⟨hgu, hlock, fun x hx => le_of_eq_of_le (hother g hg hgu x hx) (hrecent x hx), hle⟩
    · obtain ⟨hgu, r, hr, hown⟩ := hgok.owned i hi
      refine ⟨hgu, if r.buf.isSome then { r with
        since := (f.pos + off, (slice d off n).length) :: r.since } else r, by
          rw [taken, getElem?_map, hr]; rfl, fun x hx hle => ?_, fun q hq => ?_⟩
      · refine (hother g hg hgu x hx).trans (hown.beyond x hx ?_)
        split_ifs at hle
        · exact hle
        · exact hle
      · split_ifs at hq
        · rcases mem_cons.mp hq with rfl | hq
          · have hne : g ≠ f := by
              rintro rfl
              rw [hu] at hgu
              exact absurd hgu (by decide)
            simp only [hlen]
            rcases hs.apart.forall hg hf hne with hap | hap
            · right
              omega
            · left
              omega
          · exact hown.since q hq
        · exact hown.since q hq
  · obtain ⟨r, hmem, rfl⟩ := List.mem_map.mp hr
    have hrok := hs.fetches r hmem
    split_ifs with hbuf
    · refine ⟨fun x hx hsince => ?_, hrok.data⟩
      rcases hcases (r.offset + x) with hsame | ⟨z, -, -, hin, -⟩
      · exact le_of_eq_of_le hsame (hrok.recent x hx fun q hq => hsince q (mem_cons_of_mem _ hq))
      · exact absurd (by rw [hlen]; exact hin) (hsince _ mem_cons_self)
    · refine ⟨fun x hx _ => ?_, hrok.data⟩
      rw [Fetch.filled, not_isSome_iff_eq_none.mp hbuf] at hx
      cases hx

/-! ### Fetches -/

theorem reach_spec : ∀ {run : List ℕ} {at_ stop : ℕ}, s.reach at_ run = some stop →
    ∀ p ∈ run, ∃ f ∈ s.folios, f.pos = p ∧ f.ready = true
  | [], _, _, _, p, hp => absurd hp (by simp)
  | q :: run, at_, stop, h, p, hp => by
    obtain ⟨f, hf, h⟩ := bind_eq_some_iff.mp h
    obtain ⟨hguard, h⟩ := ite_none_right_eq_some.mp h
    rcases mem_cons.mp hp with rfl | hp
    · exact ⟨f, (mem_of_find hf).1, (mem_of_find hf).2, (Bool.and_eq_true_iff.mp hguard).2⟩
    · exact reach_spec h p hp

theorem span_new (s : Cache) (offset stop : ℕ) (last : Bool) :
    (s.span offset stop last).isize = s.isize ∧ (s.span offset stop last).since = [] ∧
    (s.span offset stop last).filled = [] := by
  rw [span]
  split_ifs
  all_goals exact ⟨rfl, rfl, rfl⟩

theorem fetchOk_of_filled_eq_nil (h : r.filled = []) : FetchOk s r := by
  constructor
  · intro x hx
    rw [h] at hx
    cases hx
  · intro x
    rw [h, cellAt_nil]
    exact Nat.zero_le _

/-- A folio that a fetch takes is locked already; the file is not longer than the inode says. -/
theorem Sound.readahead {offset : ℕ} {run : List ℕ} {last : Bool} (hs : s.Sound)
    (h : s.readahead offset run last = some s') : s'.Sound := by
  obtain ⟨stop, hreach, h⟩ := bind_eq_some_iff.mp h
  obtain ⟨-, h⟩ := ite_none_right_eq_some.mp h
  cases h
  obtain ⟨hisize, hsince, hfilled⟩ := span_new s offset stop last
  have hkeeps : ∀ {t}, t.fetches = s.fetches ++ [s.span offset stop last] → Keeps s t := by
    intro t ht i r hr
    refine ⟨r, ?_, rfl, rfl⟩
    rw [ht, getElem?_append_left (List.getElem?_eq_some_iff.mp hr).1, hr]
  refine ⟨hs.peer, hs.length, apart_map hs.apart _ fun f => ?_, fun g hg => ?_, fun r hr => ?_⟩
  · split_ifs
    all_goals exact ⟨rfl, rfl⟩
  · obtain ⟨f, hf, rfl⟩ := List.mem_map.mp hg
    have hfok := hs.folios f hf
    split_ifs with hrun
    · obtain ⟨e, he, hpos, hready⟩ := reach_spec hreach f.pos hrun
      obtain rfl := hs.eq_of_pos he hf hpos
      refine
        { size := hfok.size
          recent := hfok.recent
          data := hfok.data
          dirty := hfok.dirty
          sending := hfok.sending
          answer := nofun
          owned := fun i hi => ⟨(ready_iff.mp hready).2, s.span offset stop last, ?_, fun x _ hle =>
            ?_, ?_⟩ }
      · obtain rfl := Lock.fetch.inj hi
        exact getElem?_concat_length
      · rw [hisize] at hle
        exact cellAt_of_le (le_trans hs.length hle)
      · rw [hsince]
        exact nofun
    · exact hfok.mono rfl le_rfl le_rfl (hkeeps rfl)
  · rcases mem_append.mp hr with hr | hr
    · exact (hs.fetches r hr).mono rfl le_rfl
    · rw [mem_singleton.mp hr]
      exact fetchOk_of_filled_eq_nil hfilled

/-- A fetch changes, and keeps what its folios depend on. -/
theorem Sound.set_fetch {r' : Fetch} (hs : s.Sound) (hr : s.fetches[i]? = some r)
    (hisize : r'.isize = r.isize) (hsince : r'.since = r.since) (hok : FetchOk s r') :
    Sound { s with fetches := s.fetches.set i r' } := by
  have hlt := (List.getElem?_eq_some_iff.mp hr).1
  refine ⟨hs.peer, hs.length, hs.apart, fun f hf =>
    (hs.folios f hf).mono rfl le_rfl le_rfl fun j q hq => ?_, fun q hq => ?_⟩
  · rw [getElem?_set]
    split_ifs with hij
    · rw [← hij, hr] at hq
      cases hq
      exact ⟨r', rfl, hisize, hsince⟩
    · exact ⟨q, hq, rfl, rfl⟩
  · rcases mem_or_eq_of_mem_set hq with hq | rfl
    · exact (hs.fetches q hq).mono rfl le_rfl
    · exact hok.mono rfl le_rfl

theorem Sound.serve (hs : s.Sound) (h : s.serve i = some s') : s'.Sound := by
  obtain ⟨r, hr, h⟩ := bind_eq_some_iff.mp h
  obtain ⟨-, h⟩ := ite_none_right_eq_some.mp h
  cases h
  refine hs.set_fetch hr rfl rfl ⟨fun x hx _ => ?_, slice_le hs.peer _ _⟩
  have hlen : x < r.len := by
    have hle : (slice s.peer r.offset r.len).length ≤ r.len := by
      rw [length_slice]
      exact Nat.min_le_left _ _
    exact lt_of_lt_of_le hx hle
  exact le_of_eq (cellAt_slice _ hlen).symm

theorem Sound.fail (hs : s.Sound) (h : s.fail i = some s') : s'.Sound := by
  obtain ⟨r, hr, h⟩ := bind_eq_some_iff.mp h
  obtain ⟨-, h⟩ := ite_none_right_eq_some.mp h
  cases h
  have hok := hs.fetches r (mem_of_getElem? hr)
  exact hs.set_fetch hr rfl rfl ⟨hok.recent, hok.data⟩

/-- Part of what a fetch was answered, where no writeback was since. -/
theorem FetchOk.slice (hr : FetchOk s r) (hpos : r.offset ≤ pos)
    (hn : pos + n ≤ r.offset + r.filled.length) (hsince : ∀ q ∈ r.since, q.1 + q.2 ≤ pos ∨
      pos + n ≤ q.1) :
    Recent s.peer pos n (ByteFile.slice r.filled (pos - r.offset) n) := by
  intro x hx
  rw [cellAt_slice _ hx]
  have hrecent := hr.recent (pos - r.offset + x) (by omega) fun q hq => by
    rcases hsince q hq with h | h <;> omega
  rwa [show r.offset + (pos - r.offset + x) = pos + x by omega] at hrecent

theorem Sound.land (hs : s.Sound) (h : s.land i pos = some s') : s'.Sound := by
  obtain ⟨r, hr, h⟩ := bind_eq_some_iff.mp h
  obtain ⟨-, h⟩ := ite_none_right_eq_some.mp h
  have hrok := hs.fetches r (mem_of_getElem? hr)
  refine hs.touch_only h (fun f => ?_) fun f _ _ hok hf => ?_
  · rw [Fetch.landed]
    split_ifs
    all_goals exact ⟨rfl, rfl⟩
  have hlock : f.lock = .fetch i := of_decide_eq_true hok
  obtain ⟨hu, r', hr', hown⟩ := hf.owned i hlock
  obtain rfl := mem_unique hr hr'
  have hnone : f.answer = none := hf.answer_eq_none (by rw [hlock]; simp)
  rw [Fetch.landed]
  split_ifs with hbeyond hin
  · -- past the end of the file
    have hzero : Recent s.peer f.pos f.size [] := fun x hx => by
      rw [hown.beyond x hx (by omega)]
      exact Nat.zero_le _
    have hfill := hf.filled hu (.inl rfl) hzero fun x => by simp
    rwa [← hnone] at hfill
  · have hpart : Recent s.peer f.pos (r.stop f - f.pos)
        (ByteFile.slice r.filled (f.pos - r.offset) (r.stop f - f.pos)) := by
      have hstop : r.stop f ≤ f.pos + f.size := Nat.min_le_left _ _
      have hstart : f.pos < r.stop f := by
        have := hf.size
        rw [Fetch.stop]
        omega
      refine hrok.slice hin.1 (by omega) fun q hq => ?_
      rcases hown.since q hq with hq | hq
      · exact .inl hq
      · exact .inr (by omega)
    have hwhole : Recent s.peer f.pos f.size
        (ByteFile.slice r.filled (f.pos - r.offset) (r.stop f - f.pos)) := by
      intro x hx
      rcases lt_or_ge x (r.stop f - f.pos) with hlt | hge
      · exact hpart x hlt
      · rw [hown.beyond x hx (by rw [Fetch.stop] at hge; omega)]
        exact Nat.zero_le _
    have hfill := hf.filled hu (.inl rfl) hwhole (slice_le hrok.data _ _)
    rwa [← hnone] at hfill
  · exact { hf with
      answer := fun b hb => absurd hb (by simp [hnone])
      owned := nofun }

/-- **A widened fetch fills a folio that it does not own**, where no writeback was of it since. -/
theorem Sound.around {size : ℕ} (hs : s.Sound) (hok : s.unmoved (.around i pos size) = true)
    (h : s.around i pos size = some s') : s'.Sound := by
  obtain ⟨r, hr, h⟩ := bind_eq_some_iff.mp h
  obtain ⟨-, h⟩ := ite_none_right_eq_some.mp h
  have hrok := hs.fetches r (mem_of_getElem? hr)
  have hsince : ∀ q ∈ r.since, q.1 + q.2 ≤ pos ∨ pos + s.sized pos size ≤ q.1 := by
    intro q hq
    rw [unmoved, hr] at hok
    simpa using List.all_eq_true.mp hok q hq
  cases hfind : s.find pos with
  | some e =>
    rw [hfind] at h
    obtain ⟨he, hpos⟩ := mem_of_find hfind
    rw [sized, hfind] at hsince
    refine hs.touch_only h (fun f => ⟨rfl, rfl⟩) fun f hf hfp hguard hfok => ?_
    obtain rfl := hs.eq_of_pos hf he (hfp.trans hpos.symm)
    simp only [Bool.and_eq_true, decide_eq_true_eq, Bool.not_eq_true', Fetch.covers] at hguard
    obtain ⟨⟨hlock, hu⟩, hlo, hhi⟩ := hguard
    rw [← hpos] at hsince
    have hfill := hfok.filled hu (.inl hlock) (hrok.slice hlo hhi hsince) (slice_le hrok.data _ _)
    rwa [← hfok.answer_eq_none (by rw [hlock]; simp)] at hfill
  | none =>
    rw [hfind] at h
    obtain ⟨hcovers, h⟩ := ite_none_right_eq_some.mp h
    rw [sized, hfind] at hsince
    obtain ⟨hlo, hhi⟩ := Bool.and_eq_true_iff.mp hcovers
    refine hs.insert h fun hsize => ?_
    exact
      { size := hsize
        recent := fun _ => hrok.slice (of_decide_eq_true hlo) (of_decide_eq_true hhi) hsince
        data := slice_le hrok.data _ _
        dirty := fun _ => rfl
        sending := nofun
        answer := nofun
        owned := nofun }

/-! ## Runs -/

theorem Sound.step (hs : s.Sound) {ev : Event} (hok : s.unmoved ev = true)
    (h : s.step ev = some s') : s'.Sound := by
  cases ev with
  | add pos size => exact hs.add h
  | lock pos => exact hs.lock h
  | unlock pos => exact hs.unlock h
  | ask pos => exact hs.ask h
  | fill pos => exact hs.fill h
  | zero pos => exact hs.zero h
  | write pos off len => exact hs.write h
  | writeback pos => exact hs.writeback h
  | stage pos => exact hs.stage h
  | send pos off n => exact hs.send h
  | ended pos redirty => exact hs.ended h
  | evict pos => exact hs.evict h
  | readahead offset run last => exact hs.readahead h
  | serve i => exact hs.serve h
  | fail i => exact hs.fail h
  | land i pos => exact hs.land h
  | around i pos size => exact hs.around hok h

/-- **A folio that is up to date has no byte from before a write that was written back**, where no
writeback is overtaken by a widened fetch. -/
theorem uptodate_recent (block n : ℕ) (evs : List Event) (s : Cache)
    (hok : Runs.Meets Cache.step (fun s ev => s.unmoved ev = true) (cold block n) evs)
    (h : Runs.exec Cache.step (cold block n) evs = some s) :
    ∀ f ∈ s.folios, f.uptodate = true →
      ∀ x < f.size, cellAt s.peer (f.pos + x) ≤ cellAt f.data x := by
  intro f hf hu
  have hs : s.Sound :=
    Runs.exec_invariant (fun hs hok ht => Sound.step hs hok ht) (Sound.cold block n) hok h
  exact (hs.folios f hf).recent hu

/-- A folio is read ahead and its neighbour filled; the neighbour is written, written back and
evicted, and a later fetch brings the new bytes. -/
theorem uptodate_recent_refilled :
    ∃ s, Runs.exec Cache.step (cold 4 4)
        [.add 0 2, .readahead 0 [0] true, .serve 0, .land 0 0, .around 0 2 2, .lock 2, .write 2 0 2,
        .writeback 2, .send 2 0 2, .ended 2 false, .evict 2, .evict 0, .add 0 2,
        .readahead 0 [0] true, .serve 1, .land 1 0, .around 1 2 2] = some s ∧
      (∀ f ∈ s.folios, f.uptodate = true → ∀ x < f.size, cellAt s.peer (f.pos + x) ≤
      cellAt f.data x) ∧ s.folios.map Folio.data = [[1, 1], [0, 0]] :=
  Runs.exists_exec rfl fun hs => ⟨uptodate_recent _ _ _ _ (by decide) hs, rfl⟩

/-- **A widened fetch brings old bytes back.**  The peer answers it; its neighbour is written,
written back and evicted; and the fetch makes the neighbour anew, up to date, with the bytes from
before. -/
theorem widened_fetch_restores_old_bytes :
    ∃ s, Runs.exec Cache.step (cold 4 4)
        [.add 0 2, .readahead 0 [0] true, .serve 0, .land 0 0, .add 2 2, .zero 2, .write 2 0 2,
        .writeback 2, .send 2 0 2, .ended 2 false, .evict 2, .around 0 2 2] = some s ∧
      s.peer = [0, 0, 2, 2] ∧ ∃ f ∈ s.folios, f.uptodate = true ∧ f.pos = 2 ∧ f.data = [0, 0] :=
  ⟨_, rfl, rfl, _, mem_cons_self, rfl, rfl, rfl⟩

end Cache
end Rail.Kernel.Readahead
