import Rail.Memory.Window
import Mathlib.Algebra.GroupWithZero.Nat

/-!
# Replies from the pages of a read

`replyFrom` of `src/fuse/mount.cc`.  A range of an `AddressSpace` falls into pages that need not be
adjacent.  Up to `kMaxReplyPages` of them are gathered and go out as they are, spliced; otherwise
the range is copied into the scratch buffer first.  Each way the reply has the bytes of the range
(`replyFrom_bytes`).
-/

namespace Rail.Memory

open List ByteFile

/-- What the kernel is answered: `fuse_reply_buf`, or `fuse_reply_data` with some buffers. -/
inductive Reply where
  | buf (bytes : List UInt8)
  | data (bufs : List (List UInt8))
  deriving DecidableEq

def Reply.bytes : Reply → List UInt8
  | .buf bytes => bytes
  | .data bufs => bufs.flatten

/-- `length` bytes of the memory at `mem`. -/
def replyBytes (splice : Bool) (mem : List UInt8) (length : ℕ) : Reply :=
  if !splice || length = 0 then .buf (slice mem 0 length) else .data [slice mem 0 length]

def kMaxReplyPages : ℕ := 8

namespace AddressSpace

variable (s : AddressSpace)

/-- The memory a mapping points at, to the end of its page. -/
def mem (m : Mapping) : List UInt8 := ((s.views[m.page]?).map Page.bytes).getD [] |>.drop m.offset

def part (m : Mapping) : List UInt8 := slice (s.mem m) 0 m.length

/-- The loops over `at`: what is mapped from `done` on, in at most `n` parts.  Offsets are of 64
bits. -/
def parts (s : AddressSpace) (offset length : ℕ) : (n done : ℕ) → List Mapping
  | 0, _ => []
  | n + 1, done =>
    if done < length then
      match s.mappingAt ((offset + done) % 2 ^ 64) (length - done) with
      | none => []
      | some m => if m.length = 0 then [] else m :: s.parts offset length n (done + m.length)
    else []

def size (ms : List Mapping) : ℕ := (ms.map Mapping.length).sum

/-- Each part is copied behind the one before. -/
def copied (s : AddressSpace) : (scratch : List UInt8) → (i : ℕ) → List Mapping → List UInt8
  | scratch, _, [] => scratch
  | scratch, i, m :: ms => s.copied (pwrite scratch i (s.part m)) (i + m.length) ms

/-- `resize`, where it is too small. -/
def grown (scratch : List UInt8) (length : ℕ) : List UInt8 :=
  if scratch.length < length then truncate scratch length else scratch

def replyFrom (splice : Bool) (scratch : List UInt8) (offset length : ℕ) : Reply :=
  if size (s.parts offset length kMaxReplyPages 0) ≠ length then
    replyBytes splice (s.copied (grown scratch length) 0 (s.parts offset length length 0)) length
  else if splice then .data ((s.parts offset length kMaxReplyPages 0).map s.part)
  else
    match s.parts offset length kMaxReplyPages 0 with
    | [m] => replyBytes splice (s.mem m) length
    | ms => replyBytes splice (s.copied (grown scratch length) 0 ms) length

/-- All the bytes, from `base` on. -/
def content : List UInt8 := s.views.flatMap Page.bytes

/-- Every page has the size the space was claimed with. -/
structure Whole (s : AddressSpace) : Prop where
  pos : 0 < s.pageBytes
  pages : ∀ p ∈ s.views, p.bytes.length = s.pageBytes

variable {s : AddressSpace} {offset length : ℕ}

theorem Whole.claim (s : AddressSpace) {bytes count : ℕ} (hb : bytes ≠ 0) (hc : count ≠ 0)
    (found : Found) (base : ℕ) : ((s.claim bytes count found).rebase base).Whole := by
  rw [AddressSpace.claim, if_neg (by omega)]
  refine ⟨Nat.pos_of_ne_zero hb, fun p hp => ?_⟩
  obtain ⟨i, -, rfl⟩ := List.mem_map.mp hp
  cases found <;> simp [rebase]

/-- Whole pages are passed over at once. -/
theorem drop_content {l : List Page} {b : ℕ} (h : ∀ p ∈ l, p.bytes.length = b) (k : ℕ) :
    (l.flatMap Page.bytes).drop (k * b) = (l.drop k).flatMap Page.bytes := by
  induction l generalizing k with
  | nil => simp
  | cons p l ih =>
    cases k with
    | zero => simp
    | succ k =>
      obtain ⟨rfl, hl⟩ := forall_mem_cons.mp h
      rw [flatMap_cons, Nat.succ_mul, Nat.add_comm, ← drop_drop, drop_left]
      exact ih hl k

theorem copied_eq {ms : List Mapping} (h : ∀ m ∈ ms, (s.part m).length = m.length)
    (scratch : List UInt8) (i : ℕ) :
    s.copied scratch i ms = pwrite scratch i (ms.map s.part).flatten := by
  induction ms generalizing scratch i with
  | nil => rfl
  | cons m ms ih =>
    obtain ⟨hm, hms⟩ := forall_mem_cons.mp h
    rw [copied, ih hms, map_cons, flatten_cons, ← pwrite_append, hm]

theorem bytes_replyBytes (splice : Bool) (mem : List UInt8) (length : ℕ) :
    (replyBytes splice mem length).bytes = slice mem 0 length := by
  rw [replyBytes]
  split_ifs
  · rfl
  · exact append_nil _

section

variable (hs : s.Whole)
include hs

theorem Whole.length_content : s.content.length = s.capacity := by
  simp [content, capacity, length_flatMap, map_congr_left hs.pages]

/-- **Inside the space something is mapped**, and it is what the space has there. -/
theorem Whole.mappingAt (into len : ℕ) (hin : into < s.capacity) (hlen : 0 < len) :
    ∃ m, s.mappingAt (s.base + into) len = some m ∧ 0 < m.length ∧ m.length ≤ len ∧
      s.part m = slice s.content into m.length := by
  have hpos := hs.pos
  have hpage : into / s.pageBytes < s.views.length := (Nat.div_lt_iff_lt_mul hpos).mpr hin
  have hwithin := Nat.mod_lt into hpos
  have hne : ¬ (s.views.isEmpty = true ∨ s.base + into < s.base) := by
    simp [ne_nil_of_length_pos (Nat.zero_lt_of_lt hpage)]
  refine ⟨⟨into / s.pageBytes, into % s.pageBytes, _⟩, ?_, lt_min hlen (Nat.sub_pos_of_lt hwithin),
    min_le_left _ _, ?_⟩
  · simp only [AddressSpace.mappingAt, if_neg hne, Nat.add_sub_cancel_left,
      if_neg (Nat.not_le.mpr hpage)]
  · have hlast := hs.pages _ (getElem_mem hpage)
    have hdrop : s.content.drop into =
        (s.views[into / s.pageBytes].bytes.drop (into % s.pageBytes)) ++
        (s.views.drop (into / s.pageBytes + 1)).flatMap Page.bytes := by
      conv_lhs => rw [← Nat.div_add_mod' into s.pageBytes]
      rw [← drop_drop, content, drop_content hs.pages, drop_eq_getElem_cons hpage, flatMap_cons,
        drop_append_of_le_length (by omega)]
    simp only [part, mem, getElem?_eq_getElem hpage, Option.map_some, Option.getD_some, slice,
      drop_zero, hdrop]
    rw [take_append_of_le_length (by rw [length_drop]; omega)]

variable (hbase : s.base ≤ offset) (hin : offset + length ≤ s.base + s.capacity)
  (h64 : offset + length ≤ 2 ^ 64)
include hbase hin h64

/-- **The parts are the range, in order**; `length` of them are all of it. -/
theorem Whole.parts (n done : ℕ) (hdone : done ≤ length) :
    (length ≤ done + n → done + size (s.parts offset length n done) = length) ∧
      (∀ m ∈ s.parts offset length n done, (s.part m).length = m.length) ∧
      ((s.parts offset length n done).map s.part).flatten =
        slice s.content (offset - s.base + done) (size (s.parts offset length n done)) := by
  induction n generalizing done with
  | zero => simpa [AddressSpace.parts, size] using fun h => by omega
  | succ n ih =>
    rw [AddressSpace.parts]
    split_ifs with hlt
    · obtain ⟨m, hm, hpos, hle, hpart⟩ := hs.mappingAt (offset - s.base + done) (length - done)
        (by omega) (by omega)
      rw [Nat.mod_eq_of_lt (by omega), show offset + done = s.base +
        (offset - s.base + done) by omega, hm]
      simp only [if_neg (Nat.ne_of_gt hpos), size, map_cons, sum_cons, flatten_cons,
        forall_mem_cons]
      obtain ⟨hall, hparts, hflat⟩ := ih (done + m.length) (by omega)
      refine ⟨fun h => ?_, ⟨?_, hparts⟩, ?_⟩
      · have := hall (by omega)
        rwa [Nat.add_assoc] at this
      · rw [hpart, length_slice, hs.length_content]
        omega
      · rw [hpart, hflat, ← Nat.add_assoc, slice_append_slice, size]
    · simpa [size] using fun _ => by omega

theorem Whole.slice_copied {n : ℕ} (hsize : size (s.parts offset length n 0) = length)
    (room : List UInt8) :
    slice (s.copied room 0 (s.parts offset length n 0)) 0 length = slice s.content (offset - s.base)
    length := by
  obtain ⟨-, hparts, hflat⟩ := hs.parts hbase hin h64 n 0 (Nat.zero_le length)
  rw [hsize, Nat.add_zero] at hflat
  have hlen : (slice s.content (offset - s.base) length).length = length := by
    rw [length_slice, hs.length_content]
    omega
  have hself := slice_pwrite_self room 0 (slice s.content (offset - s.base) length)
  rwa [hlen, ← hflat, ← copied_eq hparts, hflat] at hself

/-- **A reply has exactly the bytes of its range**, gathered, spliced or copied. -/
theorem replyFrom_bytes (splice : Bool) (scratch : List UInt8) :
    (s.replyFrom splice scratch offset length).bytes = slice s.content (offset - s.base)
    length := by
  obtain ⟨-, -, hflat⟩ := hs.parts hbase hin h64 kMaxReplyPages 0 (Nat.zero_le length)
  rw [replyFrom]
  split_ifs with hsize hsplice
  · rw [bytes_replyBytes]
    have hall := (hs.parts hbase hin h64 length 0 (Nat.zero_le length)).1 (by omega)
    exact hs.slice_copied hbase hin h64 ((Nat.zero_add _).symm.trans hall) _
  · rw [not_not.mp hsize] at hflat
    exact hflat
  · have hsize := not_not.mp hsize
    split
    · next m hm =>
      rw [hm] at hsize hflat
      rw [bytes_replyBytes]
      simpa [part, size, ← hsize] using hflat
    · rw [bytes_replyBytes]
      exact hs.slice_copied hbase hin h64 hsize _

end

/-- Ten pages of one byte, nine of which are asked for. -/
theorem replyFrom_bytes_nine :
    (((({} : AddressSpace).claim 1 10 (some fun i => .ofNat i)).rebase 5).replyFrom true [] 6
      9).bytes = [1, 2, 3, 4, 5, 6, 7, 8, 9] :=
  replyFrom_bytes (.claim _ (by decide) (by decide) _ _) (by decide) (by decide) (by decide) _ _

end AddressSpace
end Rail.Memory
