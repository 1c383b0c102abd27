import Rail.Foundation.Runs
import Mathlib.Algebra.Group.Nat.Defs
import Mathlib.Data.List.Basic
import Mathlib.Data.Nat.Bitwise

/-!
# Keys of the data channel

A page on the data channel is known by a number alone.  A read or a write uses the id of its
request; a streamed transfer uses `TagBase + At` for the page at file offset `At`, where the base is
the client's `TagCursor` with the top bit set.  After a transfer the cursor moves on by `tagSpan`,
the whole pages of what was transferred and one more.

So the key of a page is the cursor plus the *offset*, while the cursor counts *lengths*: a transfer
that starts further back than an earlier one can come to the same sum.  Going forward cannot: as
long as no transfer starts at a lower offset than one before it, the keys of a transfer are all
above those of the earlier ones (`Sound.below` is the invariant), and below `2 ^ 64` as long as the
sums are, so that the top bit keeps them apart from ids.
-/

namespace Rail.Client.Keys

open List

/-- `kDirectAlignment`. -/
def directAlignment : ℕ := 4096

/-- `kStreamTags`. -/
def streamTags : ℕ := 2 ^ 63

/-- `proto::tagSpan`, in 64 bits. -/
def tagSpan (size pageSize : ℕ) : ℕ :=
  ((size + pageSize - 1) % 2 ^ 64 / pageSize + 1) % 2 ^ 64 * pageSize % 2 ^ 64

/-- The keys of the first `pages` pages of a transfer, from the page at `at_` on: the loops of
`PageReceiver::run` and `PageSender::run`.  A transfer that ends early has used fewer than it
has. -/
def pageKeys (tagBase pageBytes end_ : ℕ) : (pages at_ : ℕ) → List ℕ
  | 0, _ => []
  | pages + 1, at_ =>
    if at_ < end_ then
      (tagBase + at_) % 2 ^ 64 :: pageKeys tagBase pageBytes end_ pages
        (at_ + min pageBytes (end_ - at_))
    else []

/-- A streamed transfer, for the record: where it started and the keys its pages used. -/
structure Transfer where
  offset : ℕ
  keys : List ℕ
  deriving DecidableEq

/-- What of a client decides on keys, and what has been used: the ids of reads and writes, and the
transfers, oldest first. -/
structure State where
  pageBytes : ℕ
  nextId : ℕ := 1
  tagCursor : ℕ := 0
  ids : List ℕ := []
  transfers : List Transfer := []
  deriving DecidableEq

/-- What a caller asks for and how it turns out. -/
inductive Event where
  /-- A request whose id is no key: `stat`, `list`, `sendMeta` and the like. -/
  | request
  | read
  | write
  /-- `fetch` and `fetchThrough`; `reply` is the length the daemon accepted, `none` where the
  request was not sent or not accepted. -/
  | fetch (offset want : ℕ) (reply : Option ℕ) (pages : ℕ)
  /-- `store` and `storeThrough`; `sent` says whether the request went out, and no page is sent
  where the daemon refuses it. -/
  | store (offset length : ℕ) (sent : Bool) (pages : ℕ)
  deriving DecidableEq

namespace State

def start (pageBytes : ℕ) : State := { pageBytes }

variable (s : State)

/-- `P->NextId++`. -/
def takeId : State := { s with nextId := (s.nextId + 1) % 2 ^ 64 }

def tagBase : ℕ := s.tagCursor ||| streamTags

/-- The cursor moves on for a transfer of `length` bytes, and `pages` of its pages use their
keys. -/
def transfer (offset length pages : ℕ) : State :=
  { s with
    tagCursor := (s.tagCursor + tagSpan length s.pageBytes) % 2 ^ 64
    transfers := s.transfers ++ [{
      offset, keys := pageKeys s.tagBase s.pageBytes ((offset + length) % 2 ^ 64) pages offset }] }

def step : Event → Option State
  | .request => some s.takeId
  | .read => some { s.takeId with ids := s.ids ++ [s.nextId] }
  | .write => some { s.takeId with ids := s.ids ++ [s.nextId] }
  | .fetch offset want reply pages =>
    if offset % directAlignment ≠ 0 then some s
    else if want = 0 then some s
    else
      match reply with
      | none => some s.takeId
      | some length => some (s.takeId.transfer offset length pages)
  | .store offset length sent pages =>
    if sent then some (s.takeId.transfer offset length pages) else some s.takeId

end State

/-- The transfer an event makes, if it comes to one. -/
def Event.transfer? : Event → Option (ℕ × ℕ)
  | .fetch offset _ (some length) _ => some (offset, length)
  | .store offset length true _ => some (offset, length)
  | _ => none

/-- Fewer than `2 ^ 63` ids so far. -/
def Event.fewIds (s : State) (_ : Event) : Prop := s.nextId < 2 ^ 63

/-- A transfer starts no further back than any before it, and ends two pages below `2 ^ 63`, counted
from the cursor. -/
def Event.ascending (s : State) (e : Event) : Prop :=
  ∀ offset length, e.transfer? = some (offset, length) →
    (∀ t ∈ s.transfers, t.offset ≤ offset) ∧
      s.tagCursor + offset + length + 2 * s.pageBytes ≤ 2 ^ 63

/-! ## Keys of one transfer -/

variable {pageBytes : ℕ}

theorem mem_pageKeys {tagBase end_ pages at_ k : ℕ} (hpage : 0 < pageBytes)
    (hend : tagBase + end_ ≤ 2 ^ 64) (h : k ∈ pageKeys tagBase pageBytes end_ pages at_) :
    tagBase + at_ ≤ k ∧ k < tagBase + end_ := by
  induction pages generalizing at_ with
  | zero => cases h
  | succ pages ih =>
    rw [pageKeys] at h
    split_ifs at h with hat
    · rcases mem_cons.mp h with rfl | h
      · rw [Nat.mod_eq_of_lt (by omega)]
        omega
      · have := ih h
        omega
    · cases h

/-- Passes beyond those that the transfer has pages for change nothing. -/
theorem pageKeys_congr {tagBase end_ : ℕ} (hpage : 0 < pageBytes) {m n at_ : ℕ}
    (hm : end_ - at_ ≤ m) (hn : end_ - at_ ≤ n) :
    pageKeys tagBase pageBytes end_ m at_ = pageKeys tagBase pageBytes end_ n at_ := by
  induction m generalizing n at_ with
  | zero =>
    cases n with
    | zero => rfl
    | succ n => rw [pageKeys, pageKeys, if_neg (by omega)]
  | succ m ih =>
    cases n with
    | zero => rw [pageKeys, pageKeys, if_neg (by omega)]
    | succ n =>
      rw [pageKeys, pageKeys]
      by_cases hat : at_ < end_
      · rw [if_pos hat, if_pos hat, ih (n := n) (by omega) (by omega)]
      · rw [if_neg hat, if_neg hat]

/-- In 64 bits or not, a span is longer than what was transferred, by less than two pages. -/
theorem tagSpan_bounds {size pageSize : ℕ} (hpage : 0 < pageSize)
    (h : size + 2 * pageSize ≤ 2 ^ 63) :
    size < tagSpan size pageSize ∧ tagSpan size pageSize < size + 2 * pageSize := by
  have hdiv := Nat.div_add_mod (size + pageSize - 1) pageSize
  have hmod := Nat.mod_lt (size + pageSize - 1) hpage
  have hq : (size + pageSize - 1) / pageSize ≤ size + pageSize - 1 := Nat.div_le_self _ _
  have hspan : tagSpan size pageSize = pageSize * ((size + pageSize - 1) / pageSize) +
      pageSize := by
    rw [tagSpan, Nat.mod_eq_of_lt (by omega : size + pageSize - 1 < 2 ^ 64),
      Nat.mod_eq_of_lt (by omega : (size + pageSize - 1) / pageSize + 1 < 2 ^ 64), Nat.succ_mul,
      Nat.mul_comm]
    exact Nat.mod_eq_of_lt (by omega)
  omega

theorem State.tagBase_eq {s : State} (h : s.tagCursor < 2 ^ 63) :
    s.tagBase = 2 ^ 63 + s.tagCursor := by
  rw [State.tagBase, streamTags, Nat.lor_comm]
  have := Nat.two_pow_add_eq_or_of_lt h 1
  rw [Nat.mul_one] at this
  exact this.symm

/-! ## What every step keeps -/

/-- Ids are below the next one; keys have the top bit and lie below where the cursor is now, each
counted from its transfer's offset; and no two transfers share a key. -/
structure Sound (s : State) : Prop where
  page_pos : 0 < s.pageBytes
  ids_lt : ∀ id ∈ s.ids, id < s.nextId
  nextId_le : s.nextId ≤ 2 ^ 63
  tagged : ∀ t ∈ s.transfers, ∀ k ∈ t.keys, 2 ^ 63 ≤ k
  below : ∀ t ∈ s.transfers, ∀ k ∈ t.keys, k < 2 ^ 63 + s.tagCursor + t.offset
  apart : s.transfers.Pairwise fun a b => ∀ k ∈ a.keys, k ∉ b.keys

namespace Sound

variable {s : State}

theorem start (h : 0 < pageBytes) : Sound (State.start pageBytes) where
  page_pos := h
  ids_lt := nofun
  nextId_le := by show 1 ≤ 2 ^ 63; decide
  tagged := nofun
  below := nofun
  apart := .nil

theorem nextId_takeId (hid : s.nextId < 2 ^ 63) : s.takeId.nextId = s.nextId + 1 :=
  Nat.mod_eq_of_lt (by omega)

theorem takeId (hs : Sound s) (hid : s.nextId < 2 ^ 63) : Sound s.takeId := by
  have hnext := nextId_takeId hid
  refine { hs with ids_lt := ?_, nextId_le := ?_ }
  · intro id h
    have := hs.ids_lt id h
    omega
  · omega

/-- A read or a write uses the id it took. -/
theorem useId (hs : Sound s) (hid : s.nextId < 2 ^ 63) :
    Sound { s.takeId with ids := s.ids ++ [s.nextId] } := by
  have hnext := nextId_takeId hid
  refine { hs.takeId hid with
    ids_lt := forall_mem_append.mpr ⟨(hs.takeId hid).ids_lt, forall_mem_singleton.mpr ?_⟩ }
  show s.nextId < s.takeId.nextId
  omega

/-- The keys of a transfer that goes forward: above all earlier ones, and below the cursor after
it. -/
theorem transfer (hs : Sound s) {offset length : ℕ} (pages : ℕ)
    (hforward : ∀ t ∈ s.transfers, t.offset ≤ offset)
    (hroom : s.tagCursor + offset + length + 2 * s.pageBytes ≤ 2 ^ 63) :
    Sound (s.transfer offset length pages) := by
  have hpos := hs.page_pos
  obtain ⟨hlong, hshort⟩ := tagSpan_bounds hpos (by omega : length + 2 * s.pageBytes ≤ 2 ^ 63)
  have hbase : s.tagBase = 2 ^ 63 + s.tagCursor := State.tagBase_eq (by omega)
  have hcursor : (s.transfer offset length pages).tagCursor = s.tagCursor +
    tagSpan length s.pageBytes :=
    Nat.mod_eq_of_lt (by omega)
  have hkeys : ∀ k ∈ pageKeys s.tagBase s.pageBytes ((offset + length) % 2 ^ 64) pages offset,
      2 ^ 63 + s.tagCursor + offset ≤ k ∧ k < 2 ^ 63 + s.tagCursor + offset + length := by
    intro k hk
    rw [Nat.mod_eq_of_lt (by omega)] at hk
    have := mem_pageKeys hpos (by omega) hk
    omega
  refine ⟨hs.page_pos, hs.ids_lt, hs.nextId_le, ?_, ?_, ?_⟩
  · refine forall_mem_append.mpr ⟨hs.tagged, forall_mem_singleton.mpr fun k hk => ?_⟩
    have := (hkeys k hk).1
    omega
  · intro t ht k hk
    rw [hcursor]
    rcases mem_append.mp ht with ht | ht
    · have := hs.below t ht k hk
      omega
    · obtain rfl := mem_singleton.mp ht
      have := (hkeys k hk).2
      show k < 2 ^ 63 + (s.tagCursor + tagSpan length s.pageBytes) + offset
      omega
  · refine pairwise_append.mpr ⟨hs.apart, pairwise_singleton _ _, ?_⟩
    intro a ha b hb k hka hkb
    obtain rfl := mem_singleton.mp hb
    have hlow := hs.below a ha k hka
    have hhigh := (hkeys k hkb).1
    have hoff := hforward a ha
    omega

theorem step (hs : Sound s) {e : Event} {s' : State} (hid : e.fewIds s) (hup : e.ascending s)
    (h : s.step e = some s') : Sound s' := by
  have htake := hs.takeId hid
  cases e with
  | request =>
    cases h
    exact htake
  | read | write =>
    cases h
    exact hs.useId hid
  | fetch offset want reply pages =>
    by_cases halign : offset % directAlignment ≠ 0
    · simp only [State.step, if_pos halign] at h
      cases h
      exact hs
    by_cases hwant : want = 0
    · simp only [State.step, if_neg halign, if_pos hwant] at h
      cases h
      exact hs
    simp only [State.step, if_neg halign, if_neg hwant] at h
    cases reply with
    | none =>
      cases h
      exact htake
    | some length =>
      cases h
      obtain ⟨hforward, hroom⟩ := hup offset length rfl
      exact htake.transfer pages hforward hroom
  | store offset length sent pages =>
    cases sent with
    | false =>
      cases h
      exact htake
    | true =>
      cases h
      obtain ⟨hforward, hroom⟩ := hup offset length rfl
      exact htake.transfer pages hforward hroom

end Sound

/-- **Keys are never reused, as long as transfers go forward.** In every run of a fresh client with
fewer than `2 ^ 63` ids, whatever is read, written, fetched and stored and however it turns out: if
every transfer starts at no lower offset than those before it, no two transfers use one key, and no
transfer uses the id of a read or a write. -/
theorem keys_not_reused (pageBytes : ℕ) (hpage : 0 < pageBytes) (es : List Event) (s : State)
    (hmeets : Runs.Meets State.step (fun s e => e.fewIds s ∧ e.ascending s) (.start pageBytes) es)
    (h : Runs.exec State.step (.start pageBytes) es = some s) :
    (s.transfers.Pairwise fun a b => ∀ k ∈ a.keys, k ∉ b.keys) ∧ ∀ t ∈ s.transfers, ∀ id ∈ s.ids,
    id ∉ t.keys := by
  have hs : Sound s :=
    Runs.exec_invariant (fun hi hok hstep => hi.step hok.1 hok.2 hstep) (Sound.start hpage) hmeets h
  refine ⟨hs.apart, fun t ht id hid hk => ?_⟩
  have hlow := hs.tagged t ht id hk
  have hlt := hs.ids_lt id hid
  have hle := hs.nextId_le
  omega

instance (s : State) (e : Event) : Decidable (e.fewIds s) := inferInstanceAs (Decidable (_ < _))

instance (s : State) (e : Event) : Decidable (e.ascending s) :=
  match h : e.transfer? with
  | none => isTrue fun _ _ ht => by rw [h] at ht; cases ht
  | some (offset, length) =>
    decidable_of_iff ((∀ t ∈ s.transfers, t.offset ≤ offset) ∧
        s.tagCursor + offset + length + 2 * s.pageBytes ≤ 2 ^ 63) <| by
      constructor
      · intro hup o l ho
        rw [h] at ho
        cases ho
        exact hup
      · intro hup
        exact hup offset length h

/-- A read, a fetch of two pages and one further on. -/
theorem keys_not_reused_forward :
    ∃ s, Runs.exec State.step (.start 4096) [.read, .fetch 0 8192 (some 8000) 2,
      .fetch 8192 4096 (some 4096) 1] = some s ∧
      s.transfers.map (·.keys) = [[2 ^ 63, 2 ^ 63 + 4096], [2 ^ 63 + 20480]] ∧ s.ids = [1] ∧
      s.transfers.Pairwise fun a b => ∀ k ∈ a.keys, k ∉ b.keys :=
  Runs.exists_exec rfl fun hs =>
    ⟨by decide, rfl, (keys_not_reused _ (by decide) _ _ (by decide) hs).1⟩

/-- A fetch of one page and another two pages further back: both pages are known by one key. -/
theorem backward_fetch_reuses_key :
    ∃ s, Runs.exec State.step (.start 4096) [.fetch 16384 4096 (some 4096) 1,
      .fetch 8192 4096 (some 4096) 1] = some s ∧
      s.transfers.map (·.keys) = [[2 ^ 63 + 16384], [2 ^ 63 + 16384]] :=
  ⟨_, rfl, by decide⟩

end Rail.Client.Keys
