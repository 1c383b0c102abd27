import Rail.Foundation.Runs
import Mathlib.Order.Lattice

/-!
# One inode of the kernel mount

`src/linux`: what a mount keeps for one regular file and how it stays in step with the peer.
`railfs_refresh` is the centre.  It asks the peer for the file's size and mtime and compares them
with those recorded the last time; where they moved, the cached folios are written back and dropped
and `i_size` is set from the answer, unless the flag `mine` says that this mount moved them.

None of this holds a lock against the rest of the file system.  A refresh sleeps while the peer
answers, while dirty folios are written back, and while folios are locked by somebody else; so it is
cut into the moments at which it touches something, and everything else happens in between: a write
that gets its folio, fills it and ends, a folio that is written back in one or several pieces, an
attribute change on its way, a readahead with the `i_size` it was started with, a widened fetch, and
the changes of other clients at the peer.  A write that extends the file compares with `i_size` at
one moment and sets it at another.

The bytes of a folio do not matter here, only when they were read.  A folio, and `i_size`, carry the
number of changes that other clients had made when the value was taken from the peer (`stamp`,
`sizeStamp`); `seen` is that number for the stat that was recorded last, and `written` lists the
ranges this mount wrote.  No decision depends on these.
-/

namespace Rail.Kernel

/-- What the peer reports of a file. -/
structure Attrs where
  size : ℕ
  mtime : ℤ
  deriving DecidableEq

/-- What a readahead took with it: `i_size`, and the stamp of that size. -/
structure Ahead where
  isize : ℕ
  since : ℕ
  deriving DecidableEq

/-- A folio of the page cache.  `sending` is the number of bytes its writeback carries, while it is
under way; `ahead` is set while a readahead holds it. -/
structure Folio where
  pos : ℕ
  size : ℕ
  locked : Bool
  uptodate : Bool := false
  dirty : Bool := false
  sending : Option ℕ := none
  stamp : ℕ := 0
  ahead : Option Ahead := none
  deriving DecidableEq

namespace Folio

def apart (f : Folio) (pos size : ℕ) : Bool :=
  decide (pos + size ≤ f.pos) || decide (f.pos + f.size ≤ pos)

/-- Nobody holds the folio, and no writeback of it is under way. -/
def idle (f : Folio) : Bool := !f.locked && f.sending.isNone

end Folio

/-- A `railfs_refresh` that waits: with the peer's answer, for the folios to be written back and
dropped (those before `swept` are), and before it sets `i_size`. -/
inductive Refresh where
  | asked (a : Attrs) (stamp : ℕ)
  | discarding (a : Attrs) (stamp swept : ℕ)
  | dropped (a : Attrs) (stamp : ℕ)
  deriving DecidableEq

/-- A `railfs_setattr` that the peer has answered; `size` where it changes the size. -/
structure Pushed where
  size : Option ℕ
  stamp : ℕ
  deriving DecidableEq

/-- A widened fetch that the peer has answered. -/
structure Fetch where
  offset : ℕ
  length : ℕ
  stamp : ℕ
  deriving DecidableEq

/-- A write that found its end past `i_size`, and the stamp of the size it found. -/
structure Extension where
  pos : ℕ
  off : ℕ
  len : ℕ
  since : ℕ
  deriving DecidableEq

/-- Where the write ends. -/
def Extension.last (x : Extension) : ℕ := x.pos + x.off + x.len

/-- The peer's file, the inode (`isize`, `mine`, and the recorded `size` and `mtime`), its page
cache, and the calls that wait. -/
structure Inode where
  peer : Attrs
  isize : ℕ
  mine : Bool := false
  size : ℕ
  mtime : ℤ
  folios : List Folio := []
  refreshes : List Refresh := []
  pushes : List Pushed := []
  fetches : List Fetch := []
  extending : Option Extension := none
  changes : ℕ := 0
  seen : ℕ := 0
  sizeStamp : ℕ := 0
  written : List (ℕ × ℕ) := []

inductive Event where
  /-- A new folio, locked by whoever reads or writes it. -/
  | add (pos size : ℕ)
  | lock (pos : ℕ)
  /-- `railfs_fill_folio`, as the peer answers it. -/
  | fill (pos : ℕ)
  /-- `railfs_write_begin_folio` where the write covers the folio. -/
  | zero (pos : ℕ)
  /-- `railfs_write_end_folio`, for `len` bytes that were copied, up to the comparison with
  `i_size`. -/
  | write (pos off len : ℕ)
  /-- Its `i_size_write`. -/
  | extend
  /-- `railfs_readahead` takes the folio, and `i_size`. -/
  | ahead (pos : ℕ)
  /-- `railfs_fetch_land`: the peer has answered with the bytes before `upto`. -/
  | land (pos upto : ℕ)
  | unlock (pos : ℕ)
  /-- `railfs_writeback_folio`. -/
  | writeback (pos : ℕ)
  /-- The peer takes the first `n` bytes of a writeback. -/
  | send (pos n : ℕ) (mtime : ℤ)
  /-- The writeback ends; the folio may go back to dirty. -/
  | ended (pos : ℕ) (redirty : Bool)
  | evict (pos : ℕ)
  /-- The peer answers a widened fetch. -/
  | fetch (offset length : ℕ)
  /-- `railfs_fill_around` makes a folio. -/
  | around (i pos size : ℕ)
  | landed (i : ℕ)
  /-- The peer answers the stat of a refresh. -/
  | ask
  /-- The refresh compares the answer with what is recorded. -/
  | judge (i : ℕ)
  /-- `filemap_write_and_wait` failed, or a folio refused to go. -/
  | abandon (i : ℕ)
  /-- `invalidate_inode_pages2` goes through the folios before `upto`. -/
  | sweep (i upto : ℕ)
  | drop (i : ℕ)
  | install (i : ℕ)
  /-- The peer makes an attribute change of this mount. -/
  | push (size : Option ℕ) (mtime : ℤ)
  | settle (i : ℕ)
  /-- Another client changes the file. -/
  | foreign (a : Attrs)
  deriving DecidableEq

namespace Inode

def find (s : Inode) (pos : ℕ) : Option Folio := s.folios.find? fun f => f.pos = pos

variable (s : Inode)

/-- The folio at `pos` becomes `g`. -/
def put (pos : ℕ) (g : Folio) : Inode :=
  { s with folios := s.folios.map fun f => if f.pos = pos then g else f }

/-! ## Folios -/

def add (pos size : ℕ) : Option Inode :=
  if s.folios.all fun f => f.apart pos size then
    some { s with folios := { pos, size, locked := true } :: s.folios }
  else none

def lock (pos : ℕ) : Option Inode :=
  (s.find pos).bind fun f => if f.locked then none else some (s.put pos { f with locked := true })

/-- The folio is brought up to date, from the peer or with zeros. -/
def fill (pos : ℕ) : Option Inode :=
  (s.find pos).bind fun f =>
    if f.locked && !f.uptodate then
      some (s.put pos { f with uptodate := true, stamp := s.changes })
    else none

/-- A write past `i_size` still has the folio, and its caller the inode's lock. -/
def write (pos off len : ℕ) : Option Inode :=
  (s.find pos).bind fun f =>
    if f.locked && f.uptodate && decide (0 < len) && decide (off + len ≤ f.size) &&
      s.extending.isNone then
      if s.isize < pos + off + len then
        some { s.put pos { f with dirty := true } with
          mine := true
          extending := some ⟨pos, off, len, s.sizeStamp⟩ }
      else
        some { s.put pos { f with dirty := true, locked := false } with
          mine := true
          written := (pos + off, len) :: s.written }
    else none

def extend : Option Inode :=
  s.extending.bind fun x =>
    (s.find x.pos).map fun f =>
      { s.put x.pos { f with locked := false } with
        isize := x.last
        sizeStamp := x.since
        extending := none
        written := (x.pos + x.off, x.len) :: s.written }

def ahead (pos : ℕ) : Option Inode :=
  (s.find pos).bind fun f =>
    if f.locked && !f.uptodate then
      some (s.put pos { f with ahead := some ⟨s.isize, s.sizeStamp⟩ })
    else none

/-- What lies past the size the readahead was started with is filled with zeros. -/
def land (pos upto : ℕ) : Option Inode :=
  (s.find pos).bind fun f =>
    f.ahead.map fun r =>
      if r.isize ≤ pos ∨ min (pos + f.size) r.isize ≤ upto then
        s.put pos { f with
          uptodate := true
          -- as old as the oldest of what is in it
          stamp := if pos + f.size ≤ r.isize then s.changes else r.since
          ahead := none }
      else s.put pos { f with ahead := none }

def unlock (pos : ℕ) : Option Inode :=
  (s.find pos).bind fun f => if f.locked then some (s.put pos { f with locked := false }) else none

/-- The bytes of a folio that are inside the file. -/
def clip (f : Folio) : ℕ := if s.isize ≤ f.pos then 0 else min f.size (s.isize - f.pos)

def writeback (pos : ℕ) : Option Inode :=
  (s.find pos).bind fun f =>
    if f.dirty && f.idle then
      some (s.put pos { f with
        dirty := false
        sending := if s.clip f = 0 then none else some (s.clip f) })
    else none

def send (pos n : ℕ) (mtime : ℤ) : Option Inode :=
  (s.find pos).bind fun f =>
    f.sending.bind fun m =>
      if n ≤ m then some { s with peer := ⟨max s.peer.size (pos + n), mtime⟩ } else none

def ended (pos : ℕ) (redirty : Bool) : Option Inode :=
  (s.find pos).bind fun f =>
    f.sending.map fun _ => s.put pos { f with sending := none, dirty := f.dirty || redirty }

def evict (pos : ℕ) : Option Inode :=
  (s.find pos).bind fun f =>
    if f.idle && !f.dirty then some
      { s with folios := s.folios.filter fun g => g.pos ≠ pos } else none

/-! ## Widened fetches -/

def fetch (offset length : ℕ) : Inode :=
  { s with fetches := ⟨offset, length, s.changes⟩ :: s.fetches }

/-- A folio that is not in the cache is made from what the fetch brought. -/
def around (i pos size : ℕ) : Option Inode :=
  (s.fetches[i]?).bind fun r =>
    if (s.folios.all fun f => f.apart pos size) && decide (r.offset ≤ pos) &&
        decide (pos + size ≤ r.offset + r.length) then
      some { s with folios := { pos, size, locked := false, uptodate := true, stamp := r.stamp } ::
        s.folios }
    else none

/-! ## `railfs_refresh` -/

/-- The peer's answer is recorded, and the call returns. -/
def record (i : ℕ) (a : Attrs) (stamp : ℕ) : Inode :=
  { s with size := a.size, mtime := a.mtime, seen := stamp, refreshes := s.refreshes.eraseIdx i }

def judge (i : ℕ) : Option Inode :=
  match s.refreshes[i]? with
  | some (.asked a stamp) =>
    if s.mine then some ({ s with mine := false }.record i a stamp)
    else if a.size ≠ s.size ∨ a.mtime ≠ s.mtime then
      some { s with refreshes := s.refreshes.set i (.discarding a stamp 0) }
    else some (s.record i a stamp)
  | _ => none

def abandon (i : ℕ) : Option Inode :=
  match s.refreshes[i]? with
  | some (.discarding _ _ _) => some { s with refreshes := s.refreshes.eraseIdx i }
  | _ => none

/-- `invalidate_inode_pages2` waits for folios that are locked or being written back, and takes them
out in the order of their positions.  What is put in behind it stays. -/
def sweep (i upto : ℕ) : Option Inode :=
  match s.refreshes[i]? with
  | some (.discarding a stamp swept) =>
    if s.folios.all fun f => decide (f.pos < swept ∨ upto ≤ f.pos) || f.idle && !f.dirty then
      some { s with
        folios := s.folios.filter fun f => decide (f.pos < swept ∨ upto ≤ f.pos)
        refreshes := s.refreshes.set i (.discarding a stamp (max swept upto)) }
    else none
  | _ => none

/-- There are no folios left to go through. -/
def drop (i : ℕ) : Option Inode :=
  match s.refreshes[i]? with
  | some (.discarding a stamp swept) =>
    if s.folios.all fun f => decide (f.pos < swept) then
      some { s with refreshes := s.refreshes.set i (.dropped a stamp) }
    else none
  | _ => none

def install (i : ℕ) : Option Inode :=
  match s.refreshes[i]? with
  | some (.dropped a stamp) =>
      some ({ s with isize := a.size, sizeStamp := stamp }.record i a stamp)
  | _ => none

/-! ## `railfs_setattr` -/

def push (size : Option ℕ) (mtime : ℤ) : Inode :=
  { s with
    peer := ⟨size.getD s.peer.size, mtime⟩
    pushes := ⟨size, s.changes⟩ :: s.pushes }

/-- What is left of the page cache after `truncate_setsize` and `invalidate_mapping_pages`. -/
def spared (n : ℕ) : List Folio :=
  s.folios.filter fun f => decide (f.pos < n) && (f.dirty || !f.idle)

def settle (i : ℕ) : Option Inode :=
  (s.pushes[i]?).bind fun p =>
    match p.size with
    | some n =>
      if s.folios.all fun f => decide (f.pos < n) || f.idle then
        some { s with
          isize := n
          sizeStamp := p.stamp
          folios := s.spared n
          mine := true
          pushes := s.pushes.eraseIdx i }
      else none
    | none => some { s with mine := true, pushes := s.pushes.eraseIdx i }

/-- Every change of another client moves the size or the mtime. -/
def foreign (a : Attrs) : Option Inode :=
  if a = s.peer then none else some { s with peer := a, changes := s.changes + 1 }

def step : Event → Option Inode
  | .add pos size => s.add pos size
  | .lock pos => s.lock pos
  | .fill pos => s.fill pos
  | .zero pos => s.fill pos
  | .write pos off len => s.write pos off len
  | .extend => s.extend
  | .ahead pos => s.ahead pos
  | .land pos upto => s.land pos upto
  | .unlock pos => s.unlock pos
  | .writeback pos => s.writeback pos
  | .send pos n mtime => s.send pos n mtime
  | .ended pos redirty => s.ended pos redirty
  | .evict pos => s.evict pos
  | .fetch offset length => some (s.fetch offset length)
  | .around i pos size => s.around i pos size
  | .landed i => some { s with fetches := s.fetches.eraseIdx i }
  | .ask => some { s with refreshes := .asked s.peer s.changes :: s.refreshes }
  | .judge i => s.judge i
  | .abandon i => s.abandon i
  | .sweep i upto => s.sweep i upto
  | .drop i => s.drop i
  | .install i => s.install i
  | .push size mtime => some (s.push size mtime)
  | .settle i => s.settle i
  | .foreign a => s.foreign a

/-- `railfs_fill_new_inode`: an inode made from the peer's attributes. -/
def made (a : Attrs) : Inode := { peer := a, isize := a.size, size := a.size, mtime := a.mtime }

end Inode
end Rail.Kernel
