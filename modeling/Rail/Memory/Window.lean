import Rail.Foundation.ByteFile
import Mathlib.Data.List.Basic

/-!
# Read windows and the memory behind them

A `Window` is the buffer a read lands in and is answered from.  It has two stores.  The
first is an `AddressSpace` of one page: registered memory, which the fabric writes into
directly, or, where the allocator has none left, a page on the heap.  The second is a plain
vector, `data`, for reads on the copying path.

The two sides of a window choose their store by different questions.  The write side asks
`page` for a page and gets one only where it is registered; otherwise it takes `room`, which
is in `data`.  The read side, `bytes`, asks whether the address space is *backed*, and a page
on the heap backs it as well as a registered one.  So after a claim that fell back to the heap
a read lands in `data` and is answered from the heap page, which nothing ever writes.

What follows is exact.  `Heaped` is the invariant behind it: a page that is not registered
holds only zeros, over every sequence of refills.  Hence a fill is read back as it was read
exactly when the page the window uses is registered, or when what was read is zeros anyway
(`bytes_refill_iff`).

What an allocation finds is a parameter of every claim: `none` when the memory is exhausted,
and otherwise whatever bytes the registered memory held before.
-/

namespace Rail.Memory

open List Option ByteFile

/-! ## Address spaces -/

/-- A page as `AddressSpace` hands it out: its bytes, and whether it belongs to a region
registered with the fabric. -/
structure Page where
  bytes : List UInt8
  region : Bool
  deriving DecidableEq

/-- What the allocator finds for a claim: nothing, or memory with what it held before. -/
abbrev Found := Option (ℕ → UInt8)

structure AddressSpace where
  views : List Page := []
  pageBytes : ℕ := 0
  base : ℕ := 0
  deriving DecidableEq

/-- Where an offset falls: the page, the place in it, and what is left of it. -/
structure Mapping where
  page : ℕ
  offset : ℕ
  length : ℕ
  deriving DecidableEq

namespace AddressSpace

variable (s : AddressSpace)

def release : AddressSpace := { s with views := [], pageBytes := 0 }

/-- Pages of registered memory where the allocator has them all, pages of zeros on the heap
where it does not. -/
def claim (bytes count : ℕ) (found : Found) : AddressSpace :=
  if bytes = 0 ∨ count = 0 then s.release
  else
    { s.release with
      pageBytes := bytes
      views := (List.range count).map fun i =>
        match found with
        | some held => ⟨(List.range bytes).map fun j => held (i * bytes + j), true⟩
        | none => ⟨List.replicate bytes 0, false⟩ }

def rebase (start : ℕ) : AddressSpace := { s with base := start }

def backed : Bool := !s.views.isEmpty

def registered : Bool := s.backed && s.views.all (·.region)

def pageSize : ℕ := s.pageBytes

def capacity : ℕ := s.views.length * s.pageBytes

/-- The mapping of an offset, which never spans two pages. -/
def mappingAt (offset length : ℕ) : Option Mapping :=
  if s.views.isEmpty ∨ offset < s.base then none
  else
    let into := offset - s.base
    if s.views.length ≤ into / s.pageBytes then none
    else some ⟨into / s.pageBytes, into % s.pageBytes,
      min length (s.pageBytes - into % s.pageBytes)⟩

/-- The page a mapping points at. -/
def pageAt (offset length : ℕ) : Option Page :=
  (s.mappingAt offset length).bind fun m => s.views[m.page]?

/-- A transfer of `d` into a page. -/
def land (page : ℕ) (d : List UInt8) : AddressSpace :=
  { s with views := s.views.modify page fun p => { p with bytes := pwrite p.bytes 0 d } }

end AddressSpace

/-! ## Windows -/

/-- `valid` is the field `Bytes`: how many bytes of the store belong to the window. -/
structure Window where
  path : String := ""
  start : ℕ := 0
  fileSize : ℕ := 0
  stamp : ℕ := 0
  valid : ℕ := 0
  data : List UInt8 := []
  pages : AddressSpace := {}
  deriving DecidableEq

/-- One fill of a window: the room asked for, what the allocator would find, the bytes read,
what a direct receive leaves behind them, and whether the read succeeded. -/
structure Refill where
  want : ℕ
  found : Found
  read : List UInt8
  rest : List UInt8 := []
  ok : Bool := true

namespace Window

variable (w : Window)

/-- The sums are of 64 bits, and a peer may ask for an offset near their end. -/
def covers (want : String) (offset length : ℕ) : Bool :=
  decide (0 < w.valid) && (w.path == want) && decide (w.start ≤ offset) &&
    decide ((offset + length) % 2 ^ 64 ≤ (w.start + w.valid) % 2 ^ 64)

/-- Room in the plain vector, for the copying path. -/
def room (want : ℕ) : Window :=
  { w with
    data := if w.data.length < want then truncate w.data want else w.data
    valid := 0
    path := "" }

/-- The pages a window uses for a fill: its own where they are large enough, and otherwise one
fresh page. -/
def pagesFor (want : ℕ) (found : Found) : AddressSpace :=
  (if w.pages.capacity < want ∨ w.pages.pageSize < want then w.pages.claim want 1 found
    else w.pages).rebase 0

/-- The page a window offers for a direct read, by its capacity; none where the memory is not
registered. -/
def page (want : ℕ) (found : Found) : Window × Option ℕ :=
  ({ w with pages := w.pagesFor want found, valid := 0, path := "" },
    match (w.pagesFor want found).pageAt 0 want with
    | some p => if p.region then some (w.pagesFor want found).pageBytes else none
    | none => none)

/-- What the window holds: the pages where there are any, the plain vector otherwise. -/
def bytes (w : Window) : List UInt8 :=
  if w.pages.backed then
    match w.pages.pageAt 0 w.valid with
    | some p => slice p.bytes 0 w.valid
    | none => []
  else slice w.data 0 w.valid

/-- The memory that `bytes` points into, whatever part of it is valid. -/
def store : List UInt8 :=
  if w.pages.backed then
    match w.pages.pageAt 0 w.valid with
    | some p => p.bytes
    | none => []
  else w.data

/-- A fill: into the page where one is offered, into the room otherwise.  A direct receive
has written its page whether or not the read then counts as successful; the copy out of the
transfer buffer is made only after success. -/
def refill (r : Refill) : Window :=
  let held := (w.page r.want r.found).1
  match (w.page r.want r.found).2 with
  | some _ =>
    { held with
      pages := held.pages.land 0 (r.read ++ r.rest)
      valid := if r.ok then r.read.length else 0 }
  | none =>
    let copied := held.room r.want
    if r.ok then { copied with data := pwrite copied.data 0 r.read, valid := r.read.length }
    else copied

/-- The room a fill has: the capacity of the page offered, or what was asked for. -/
def fits (want : ℕ) (found : Found) : ℕ := (w.page want found).2.getD want

/-- The window is about to use registered memory: it has a registered page that is large
enough, or the claim it makes finds memory. -/
def registers (want : ℕ) (found : Found) : Bool :=
  if w.pages.capacity < want ∨ w.pages.pageSize < want then found.isSome
  else w.pages.registered

/-! ### One fill -/

variable {w : Window} {want : ℕ} {found : Found} {r : Refill}

theorem pageAt_zero {s : AddressSpace} (hb : s.base = 0) (n : ℕ) : s.pageAt 0 n = s.views[0]? := by
  rw [AddressSpace.pageAt, AddressSpace.mappingAt, hb]
  cases hv : s.views with
  | nil => simp
  | cons v vs => simp

theorem base_pagesFor (w : Window) (want : ℕ) (found : Found) : (w.pagesFor want found).base = 0 :=
  rfl

theorem page_snd (w : Window) (want : ℕ) (found : Found) : (w.page want found).2 =
      ((w.pagesFor want found).views[0]?).bind fun p =>
        if p.region then some (w.pagesFor want found).pageBytes else none := by
  rw [page, pageAt_zero (base_pagesFor w want found)]
  cases (w.pagesFor want found).views[0]? <;> rfl

/-- The page of a window that is about to use registered memory. -/
theorem exists_of_registers (h : w.registers want found = true) :
    ∃ p, (w.pagesFor want found).views[0]? = some p ∧ p.region = true := by
  rw [registers] at h
  rw [pagesFor, AddressSpace.rebase]
  split at h
  next hlt =>
    obtain ⟨held, rfl⟩ := isSome_iff_exists.mp h
    refine ⟨⟨(List.range want).map fun j => held (0 * want + j), true⟩, ?_, rfl⟩
    rw [if_pos hlt, AddressSpace.claim, if_neg (by omega)]
    rfl
  next hge =>
    rw [if_neg hge]
    rw [AddressSpace.registered, AddressSpace.backed] at h
    cases hv : w.pages.views with
    | nil => rw [hv] at h; cases h
    | cons p ps =>
      rw [hv] at h
      simp only [isEmpty_cons, Bool.not_false, all_cons, Bool.true_and, Bool.and_eq_true] at h
      exact ⟨p, rfl, h.1⟩

theorem page_of_registers (h : w.registers want found = true) :
    (w.page want found).2 = some (w.pagesFor want found).pageBytes := by
  obtain ⟨p, hp, hregion⟩ := exists_of_registers h
  rw [page_snd, hp, bind_some, if_pos hregion]

/-- A fill of the page that was offered. -/
theorem refill_of_page {cap : ℕ} (hcap : (w.page r.want r.found).2 = some cap) : w.refill r =
      { (w.page r.want r.found).1 with
        pages := (w.pagesFor r.want r.found).land 0 (r.read ++ r.rest)
        valid := if r.ok then r.read.length else 0 } := by
  rw [refill, hcap]
  rfl

/-- **A fill of the page that was offered is read back as it was read.** -/
theorem bytes_refill_of_page {cap : ℕ} (hcap : (w.page r.want r.found).2 = some cap)
    (hok : r.ok = true) : (w.refill r).bytes = r.read := by
  obtain ⟨p, hp, -⟩ : ∃ p, (w.pagesFor r.want r.found).views[0]? = some p ∧
      (if p.region then some (w.pagesFor r.want r.found).pageBytes else none) = some cap := by
    rw [page_snd] at hcap
    exact bind_eq_some_iff.mp hcap
  have hviews : ((w.pagesFor r.want r.found).land 0 (r.read ++ r.rest)).views[0]? =
      some { p with bytes := pwrite p.bytes 0 (r.read ++ r.rest) } := by
    rw [AddressSpace.land, getElem?_modify, hp]
    rfl
  have hb : ((w.pagesFor r.want r.found).land 0 (r.read ++ r.rest)).backed = true := by
    rw [AddressSpace.backed, isEmpty_eq_false_iff.mpr]
    · rfl
    · intro hnil
      rw [hnil] at hviews
      cases hviews
  rw [refill_of_page hcap, if_pos hok, bytes, if_pos hb, pageAt_zero rfl, hviews]
  exact slice_pwrite_append p.bytes 0 r.read r.rest

theorem bytes_refill_of_registers (h : w.registers r.want r.found = true) (hok : r.ok = true) :
    (w.refill r).bytes = r.read :=
  bytes_refill_of_page (page_of_registers h) hok

/-! ### Sequences of fills -/

variable (s : AddressSpace)

/-- A window has at most one page, and a page that is not registered holds what the claim put
there, zeros: it is never offered, so nothing is read into it. -/
def Heaped : Prop :=
  s.views = [] ∨ ∃ p, s.views = [p] ∧ (p.region = false → p.bytes = List.replicate s.pageBytes 0)

theorem Heaped.claim (bytes : ℕ) (found : Found) : Heaped (s.claim bytes 1 found) := by
  rw [AddressSpace.claim]
  split
  · exact .inl rfl
  · right
    cases found with
    | none => exact ⟨_, rfl, fun _ => rfl⟩
    | some held => exact ⟨_, rfl, nofun⟩

theorem Heaped.pagesFor (h : Heaped w.pages) (want : ℕ) (found : Found) :
    Heaped (w.pagesFor want found) := by
  rw [Window.pagesFor]
  split
  · exact .claim w.pages want found
  · exact h

theorem le_pageBytes_pagesFor (w : Window) (want : ℕ) (found : Found) :
    want ≤ (w.pagesFor want found).pageBytes := by
  rw [Window.pagesFor, AddressSpace.rebase]
  split
  next hlt =>
    rw [AddressSpace.claim, if_neg (by omega)]
  next hge =>
    rw [not_or, AddressSpace.pageSize] at hge
    exact Nat.le_of_not_lt hge.2

theorem want_eq_zero (h : (w.pagesFor want found).views = []) : want = 0 := by
  by_contra hwant
  rw [Window.pagesFor, AddressSpace.rebase] at h
  split at h
  · rw [AddressSpace.claim, if_neg (by omega)] at h
    cases h
  next hge =>
    have hv : w.pages.views = [] := h
    rw [AddressSpace.capacity, hv, length_nil, Nat.zero_mul] at hge
    omega

/-- Where the memory is not registered, no page is offered. -/
theorem region_of_not_registers {p : Page} (h : w.registers want found = false)
    (hp : (w.pagesFor want found).views = [p]) : p.region = false := by
  rw [Window.pagesFor, AddressSpace.rebase] at hp
  rw [registers] at h
  split at h
  next hlt =>
    rw [if_pos hlt, AddressSpace.claim, if_neg (by omega)] at hp
    obtain rfl := isSome_eq_false_iff.mp h |> isNone_iff_eq_none.mp
    obtain rfl := List.cons.inj hp |>.1
    rfl
  next hge =>
    rw [if_neg hge] at hp
    have hv : w.pages.views = [p] := hp
    rw [AddressSpace.registered, AddressSpace.backed, hv] at h
    simpa using h

theorem page_of_not_registers (hw : Heaped w.pages) (h : w.registers want found = false) :
    (w.page want found).2 = none := by
  rw [page_snd]
  rcases hw.pagesFor want found with hnil | ⟨p, hp, -⟩
  · rw [hnil]
    rfl
  · rw [hp, getElem?_cons_zero, bind_some, if_neg (by rw [region_of_not_registers h hp]; decide)]

theorem pages_refill_of_not_registers (hw : Heaped w.pages)
    (h : w.registers r.want r.found = false) : (w.refill r).pages = w.pagesFor r.want r.found := by
  rw [refill, page_of_not_registers hw h]
  show (if r.ok then _ else _ : Window).pages = _
  split <;> rfl

theorem Heaped.refill (hw : Heaped w.pages) (r : Refill) : Heaped (w.refill r).pages := by
  by_cases h : w.registers r.want r.found = true
  · obtain ⟨p, hp, hregion⟩ := exists_of_registers h
    rcases hw.pagesFor r.want r.found with hnil | ⟨q, hq, hzero⟩
    · rw [hnil] at hp
      cases hp
    · rw [hq, getElem?_cons_zero, Option.some.injEq] at hp
      subst hp
      rw [Window.refill, page_of_registers h]
      refine .inr ⟨{ q with bytes := pwrite q.bytes 0 (r.read ++ r.rest) }, ?_, ?_⟩
      · show (w.pagesFor r.want r.found).views.modify 0 _ = _
        rw [hq]
        rfl
      · intro hno
        exact absurd (hregion.symm.trans hno) (by simp)
  · rw [pages_refill_of_not_registers hw (Bool.not_eq_true _ ▸ h)]
    exact hw.pagesFor r.want r.found

/-- The state of a window after any sequence of fills. -/
def refills (rs : List Refill) : Window := rs.foldl refill {}

theorem heaped_refills (rs : List Refill) : Heaped (refills rs).pages := by
  suffices h : ∀ w, Heaped w.pages → Heaped (rs.foldl refill w).pages from
    h {} (.inl rfl)
  induction rs with
  | nil => exact fun w hw => hw
  | cons r rs ih => exact fun w hw => ih (w.refill r) (hw.refill r)

/-- Where the memory is not registered, a fill is read back as zeros. -/
theorem bytes_refill_of_not_registers (hw : Heaped w.pages) (h : w.registers r.want r.found = false)
    (hok : r.ok = true) (hfit : r.read.length ≤ r.want) :
    (w.refill r).bytes = List.replicate r.read.length 0 := by
  have hpages := pages_refill_of_not_registers hw h
  have hvalid : (w.refill r).valid = r.read.length := by
    rw [Window.refill, page_of_not_registers hw h, hok]
    rfl
  rw [bytes, hpages, hvalid, pageAt_zero (base_pagesFor w r.want r.found)]
  rcases hw.pagesFor r.want r.found with hnil | ⟨p, hp, hzero⟩
  · have hwant := want_eq_zero hnil
    have hread : r.read.length = 0 := by omega
    rw [AddressSpace.backed, hnil, hread]
    simp
  · have hle := le_pageBytes_pagesFor w r.want r.found
    rw [AddressSpace.backed, hp]
    simp only [isEmpty_cons, Bool.not_false, if_true, getElem?_cons_zero]
    rw [hzero (region_of_not_registers h hp), slice, drop_zero, take_replicate,
      Nat.min_eq_left (by omega)]

theorem valid_refill (w : Window) (r : Refill) :
    (w.refill r).valid = if r.ok then r.read.length else 0 := by
  rw [refill]
  cases (w.page r.want r.found).2 with
  | some cap => rfl
  | none => cases r.ok <;> rfl

theorem bytes_eq_slice_store (w : Window) : w.bytes = slice w.store 0 w.valid := by
  rw [bytes, store]
  split
  · split
    · rfl
    · rw [slice, drop_nil, take_nil]
  · rfl

/-- What is in the memory does not depend on how much of it is valid. -/
theorem store_eq_of_pages {v w : Window} (hp : v.pages = w.pages) (hd : v.data = w.data) :
    v.store = w.store := by
  have hpage : ∀ n m, w.pages.pageAt 0 n = w.pages.pageAt 0 m := by
    intro n m
    rw [AddressSpace.pageAt, AddressSpace.pageAt, AddressSpace.mappingAt, AddressSpace.mappingAt]
    split
    · rfl
    · dsimp only
      split <;> rfl
  rw [store, store, hp, hd, hpage v.valid w.valid]

/-! ### What a window returns -/

/-- **What a window returns.**  After any sequence of fills, whatever the allocator found at each
claim, a successful fill is read back exactly when the window uses registered memory for it, or
when all that was read is zeros. -/
theorem bytes_refill_iff (rs : List Refill) (r : Refill) (hok : r.ok = true)
    (hfit : r.read.length ≤ (refills rs).fits r.want r.found) :
    ((refills rs).refill r).bytes = r.read ↔
      (refills rs).registers r.want r.found = true ∨
        r.read = List.replicate r.read.length 0 := by
  have hw := heaped_refills rs
  cases h : (refills rs).registers r.want r.found with
  | true => exact iff_of_true (bytes_refill_of_registers h hok) (.inl rfl)
  | false =>
    rw [fits, page_of_not_registers hw h, getD_none] at hfit
    rw [bytes_refill_of_not_registers hw h hok hfit]
    exact ⟨fun he => .inr he.symm, fun ho => ho.elim nofun Eq.symm⟩

/-- A page of four bytes, then a fill of eight for which only the heap is left, then one of
three in the same page: the zeros of the heap page are as good as what was read. -/
theorem bytes_refill_iff_zeros_on_heap :
    ((refills [⟨4, some fun _ => 7, [1, 2, 3], [], true⟩, ⟨8, none, [9, 9], [], true⟩]).refill
        ⟨3, none, [0, 0, 0], [], true⟩).bytes = [0, 0, 0] :=
  (bytes_refill_iff _ ⟨3, none, [0, 0, 0], [], true⟩ rfl (by decide)).mpr (.inr rfl)

/-- **Bytes read into a window that fell back to the heap are lost.**  Two bytes are read into
the room of a fresh window whose claim found no registered memory, and the window returns the
zeros of its heap page. -/
theorem heap_window_returns_zeros :
    ¬ ∀ (rs : List Refill) (r : Refill), r.ok = true →
        r.read.length ≤ (refills rs).fits r.want r.found →
        ((refills rs).refill r).bytes = r.read := by
  intro hall
  have h := hall [] ⟨4, none, [1, 2], [], true⟩ rfl (by decide)
  exact absurd h (by decide)

end Window
end Rail.Memory
