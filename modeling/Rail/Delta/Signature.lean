import Rail.Delta.Checksum
import Rail.Foundation.ByteFile

/-!
# Reading a file, and the signature of a basis

`src/fs/reader.cc`, `src/app/signature.cc`: the read loop over `pread`, and the per-block
sums of the basis file the sender matches against.

What the kernel answers is not this program's to decide, so a `FileReader` carries it:
the size taken when the file was opened, and the answer to the `k`-th `pread`.  An
interrupted call is repeated by the loop and leaves no trace, so it is not an answer
here.  `FileReader.Holds r f` says that the file under `r` is `f` and stays so: every
answer is a prefix of the range asked for, and it is empty only where the range is.
From that the loop reads exactly the range (`read_eq_slice`), however short each single
answer was.

`buildSignature` then has one sum for every block of the basis, in order and at its own
place (`buildSums_getElem?`): the block at index `i` is the range of the basis that
`blockLengthAt` and the receiver give to that index.
-/

namespace Rail.Delta

/-- `Digest`: what the strong checksum of a block is stored in. -/
abbrev Digest := Vector UInt8 16

open List ByteFile

/-- How a transfer ends when it does not complete.  `outOfBounds` stands for a read
outside the object it is meant to be in, which the language leaves undefined;
`unfinished` only says that the model stopped following the code. -/
inductive Fault where
  | pread
  | sink
  | outOfBounds
  | unfinished
  deriving DecidableEq

/-! ## `FileReader` -/

/-- An open file: `meta().Size`, and what the `k`-th `pread` made of it answers to a
request for `len` bytes at `off`. -/
structure FileReader where
  size : ℕ
  pread : (k off len : ℕ) → Option (List UInt8)

variable {r : FileReader} {f : List UInt8}

namespace FileReader

/-- The loop of `FileReader::read`, with `k` calls made before it and `left` bytes still
wanted.  It returns what it read and how many calls have been made.  Every pass but the
last one reads at least a byte, so `left` passes are enough. -/
def readLoop (r : FileReader) : (passes k left off : ℕ) → Except Fault (List UInt8 × ℕ)
  | _, k, 0, _ => .ok ([], k)
  | 0, k, _ + 1, _ => .ok ([], k)
  | passes + 1, k, left + 1, off =>
    match r.pread k off (left + 1) with
    | none => .error .pread
    | some bytes =>
      match bytes.take (left + 1) with
      | [] => .ok ([], k + 1)
      | b :: bs =>
        match readLoop r passes (k + 1) (left - bs.length) (off + (bs.length + 1)) with
        | .error e => .error e
        | .ok (more, k') => .ok (b :: bs ++ more, k')

/-- `FileReader::read` into a buffer of `want` bytes. -/
def read (r : FileReader) (k want off : ℕ) : Except Fault (List UInt8 × ℕ) :=
  r.readLoop want k want off

/-- The file is `f`, and it does not change. -/
structure Holds (r : FileReader) (f : List UInt8) : Prop where
  size_eq : r.size = f.length
  pread_prefix : ∀ {k off len bytes}, r.pread k off len = some bytes → bytes <+: slice f off len
  pread_eof : ∀ {k off len}, r.pread k off len = some [] → slice f off len = []

/-- A reader of `f` that answers every request in full. -/
def ofBytes (f : List UInt8) : FileReader where
  size := f.length
  pread _ off len := some (slice f off len)

theorem ofBytes_holds (f : List UInt8) : (ofBytes f).Holds f where
  size_eq := rfl
  pread_prefix h := by
    cases h
    exact prefix_rfl
  pread_eof h := Option.some.inj h

theorem readLoop_eq_slice (hr : r.Holds f) :
    ∀ (passes k left off : ℕ) {bytes : List UInt8} {k' : ℕ}, left ≤ passes →
      r.readLoop passes k left off = .ok (bytes, k') → bytes = slice f off left := by
  intro passes
  induction passes with
  | zero =>
    intro k left off bytes k' hle h
    obtain rfl : left = 0 := by omega
    rw [readLoop] at h
    rw [slice_zero_length]
    exact (congrArg Prod.fst (Except.ok.inj h)).symm
  | succ passes ih =>
    intro k left off bytes k' hle h
    match left with
    | 0 =>
      rw [readLoop] at h
      rw [slice_zero_length]
      exact (congrArg Prod.fst (Except.ok.inj h)).symm
    | left + 1 =>
      rw [readLoop] at h
      split at h
      · cases h
      next got hp =>
      have hpre := hr.pread_prefix hp
      have hlen : got.length ≤ left + 1 := by
        have := hpre.length_le
        rw [length_slice] at this
        omega
      simp only [take_of_length_le hlen] at h
      match got, hpre, hp with
      | [], _, hp =>
        rw [hr.pread_eof hp]
        exact (congrArg Prod.fst (Except.ok.inj h)).symm
      | b :: bs, hpre, _ =>
        simp only at h
        cases hm : r.readLoop passes (k + 1) (left - bs.length) (off + (bs.length + 1)) with
        | error e =>
          rw [hm] at h
          cases h
        | ok res =>
          obtain ⟨more, k''⟩ := res
          rw [hm] at h
          rw [length_cons] at hlen
          -- what was read is the front of the range; the loop reads the rest of it
          have hmore := ih (k + 1) (left - bs.length) (off + (bs.length + 1)) (by omega) hm
          have hfront : b :: bs = slice f off (bs.length + 1) := by
            rw [prefix_iff_eq_take] at hpre
            rw [hpre, length_cons, slice, slice, take_take]
            congr 1
            omega
          have hbytes : bytes = b :: bs ++ more := (congrArg Prod.fst (Except.ok.inj h)).symm
          rw [hbytes, hmore, hfront, slice_append_slice]
          congr 1
          omega

/-- **A read of a file that does not change is the range that was asked for**, cut short
only by the end of the file. -/
theorem read_eq_slice (hr : r.Holds f) {k want off : ℕ} {bytes : List UInt8} {k' : ℕ}
    (h : r.read k want off = .ok (bytes, k')) : bytes = slice f off want :=
  readLoop_eq_slice hr want k want off (le_refl _) h

end FileReader

/-! ## The signature -/

/-- `proto::BlockSum`. -/
structure BlockSum where
  weak : UInt32
  strong : Digest
  deriving DecidableEq

/-- `proto::Signature`. -/
structure Signature where
  blockLength : ℕ
  strongLength : ℕ
  fileLength : ℕ
  sums : List BlockSum
  deriving DecidableEq

/-- `Sig.FileLength - Start` in 64 bits. -/
def sub64 (a b : ℕ) : ℕ := (a + 0x10000000000000000 - b % 0x10000000000000000) % 0x10000000000000000

theorem sub64_of_le {a b : ℕ} (h : b ≤ a) (ha : a < 2 ^ 64) : sub64 a b = a - b := by
  unfold sub64
  omega

/-- `blockLengthAt`: the length of a block, accounting for a short final one. -/
def blockLengthAt (sig : Signature) (index : ℕ) : ℕ :=
  if sig.blockLength = 0 ∨ sig.sums.length ≤ index then 0
  else min (sub64 sig.fileLength (index * sig.blockLength)) sig.blockLength

section Build

variable (strong : List UInt8 → Digest)

/-- The sums of one block. -/
def blockSum (view : List UInt8) : BlockSum := ⟨weakChecksum view, strong view⟩

/-- The loop of `buildSignature` from `offset` on.  A pass that goes on has read at least
a byte, so `fileLength` passes are enough. -/
def buildSums (r : FileReader) (blockLength fileLength : ℕ) :
    (passes k offset : ℕ) → Except Fault (List BlockSum)
  | 0, _, _ => .ok []
  | passes + 1, k, offset =>
    if offset < fileLength then
      match r.read k (min blockLength (fileLength - offset)) offset with
      | .error e => .error e
      | .ok (view, k') =>
        if view.isEmpty then .ok []
        else
          match buildSums r blockLength fileLength passes k' (offset + view.length) with
          | .error e => .error e
          | .ok rest => .ok (blockSum strong view :: rest)
    else .ok []

/-- `buildSignature`. -/
def buildSignature (r : FileReader) (blockLength strongLength : ℕ) : Except Fault Signature :=
  if r.size = 0 ∨ blockLength = 0 then .ok ⟨blockLength, strongLength, r.size, []⟩
  else
    match buildSums strong r blockLength r.size r.size 0 0 with
    | .error e => .error e
    | .ok sums => .ok ⟨blockLength, strongLength, r.size, sums⟩

variable {strong}

/-- The sums from `offset` on are those of the blocks that start there. -/
theorem buildSums_getElem? (hr : r.Holds f) {blockLength : ℕ} (hb : 0 < blockLength) :
    ∀ (passes k offset : ℕ) {sums : List BlockSum}, f.length - offset ≤ passes →
      buildSums strong r blockLength f.length passes k offset = .ok sums →
      ∀ i, sums[i]? = if offset + i * blockLength < f.length then
        some (blockSum strong (slice f (offset + i * blockLength) blockLength)) else none := by
  intro passes
  induction passes with
  | zero =>
    intro k offset sums hle h i
    rw [buildSums] at h
    rw [← Except.ok.inj h, getElem?_nil, if_neg (by omega)]
  | succ passes ih =>
    intro k offset sums hle h i
    rw [buildSums] at h
    split_ifs at h with ho
    · cases hrd : r.read k (min blockLength (f.length - offset)) offset with
      | error e =>
        rw [hrd] at h
        cases h
      | ok res =>
        obtain ⟨view, k'⟩ := res
        rw [hrd] at h
        simp only at h
        have hview : view = slice f offset blockLength := by
          rw [FileReader.read_eq_slice hr hrd, slice, slice, take_eq_take_iff, length_drop]
          omega
        have hlen : view.length = min blockLength (f.length - offset) := by
          rw [hview, length_slice]
        have hne : ¬ view.isEmpty := by
          rw [isEmpty_iff_length_eq_zero]
          omega
        rw [if_neg hne] at h
        split at h
        · cases h
        next rest hrest =>
        rw [← Except.ok.inj h]
        have ihr := ih k' (offset + view.length) (by omega) hrest
        cases i with
        | zero =>
          rw [getElem?_cons_zero, Nat.zero_mul, Nat.add_zero, if_pos ho, hview]
        | succ i =>
          rw [getElem?_cons_succ, ihr i]
          rcases Nat.lt_or_ge (offset + blockLength) f.length with hlt | hge
          · -- a full block: the next one starts one block length on
            have hfull : view.length = blockLength := by omega
            have hidx : offset + view.length + i * blockLength =
                offset + (i + 1) * blockLength := by
              rw [hfull, Nat.succ_mul]
              omega
            rw [hidx]
          · -- the last block: there is no next one, at either index
            have h₁ : ¬ offset + view.length + i * blockLength < f.length := by
              rw [hlen]
              omega
            have h₂ : ¬ offset + (i + 1) * blockLength < f.length := by
              rw [Nat.succ_mul]
              omega
            rw [if_neg h₁, if_neg h₂]
    · rw [← Except.ok.inj h, getElem?_nil, if_neg (by omega)]

/-- What `buildSignature` makes of a file that does not change: the parameters it was
given, the length of the file, and one sum for each block. -/
structure SignatureOf (strong : List UInt8 → Digest) (basis : List UInt8) (sig : Signature) :
    Prop where
  fileLength_eq : sig.fileLength = basis.length
  sums_getElem? : 0 < sig.blockLength → ∀ i, sig.sums[i]? =
    if i * sig.blockLength < basis.length then
      some (blockSum strong (slice basis (i * sig.blockLength) sig.blockLength)) else none

/-- **`buildSignature` describes the basis.** -/
theorem signatureOf_buildSignature {basis : List UInt8} (hr : r.Holds basis)
    {blockLength strongLength : ℕ} {sig : Signature}
    (h : buildSignature strong r blockLength strongLength = .ok sig) :
    SignatureOf strong basis sig ∧ sig.blockLength = blockLength ∧
      sig.strongLength = strongLength := by
  rw [buildSignature, hr.size_eq] at h
  split_ifs at h with h0
  · rw [← Except.ok.inj h]
    refine ⟨⟨rfl, fun hb i => ?_⟩, rfl, rfl⟩
    rcases h0 with h0 | h0
    · rw [getElem?_nil, if_neg (by omega)]
    · exact absurd hb (by rw [h0]; exact Nat.lt_irrefl 0)
  · have hb : 0 < blockLength := by
      rcases Nat.eq_zero_or_pos blockLength with h' | h'
      · exact absurd (.inr h') h0
      · exact h'
    split at h
    · cases h
    next sums hs =>
    rw [← Except.ok.inj h]
    refine ⟨⟨rfl, fun _ i => ?_⟩, rfl, rfl⟩
    have := buildSums_getElem? hr hb basis.length 0 0 (by omega) hs i
    rwa [Nat.zero_add] at this

end Build

/-! ## The block an index names -/

/-- The range of the basis that an index names: what the receiver reads for a copy. -/
def blockAt (sig : Signature) (basis : List UInt8) (index : ℕ) : List UInt8 :=
  slice basis (index * sig.blockLength) (blockLengthAt sig index)

namespace SignatureOf

variable {strong : List UInt8 → Digest} {basis : List UInt8} {sig : Signature}
  {b : BlockSum} {i : ℕ}

section

variable (h : SignatureOf strong basis sig)
include h

theorem lt_of_sums_eq_some (hb : 0 < sig.blockLength) (hi : sig.sums[i]? = some b) :
    i * sig.blockLength < basis.length ∧
      b = blockSum strong (slice basis (i * sig.blockLength) sig.blockLength) := by
  rw [h.sums_getElem? hb i] at hi
  split_ifs at hi with hlt
  exact ⟨hlt, (Option.some.inj hi).symm⟩

section

variable (hl : basis.length < 2 ^ 64)
include hl

section

variable (hb : 0 < sig.blockLength)
include hb

section

variable (hi : sig.sums[i]? = some b)
include hi

/-- An index that has a sum names a block inside the basis, cut short by its end only. -/
theorem blockLengthAt_eq :
    blockLengthAt sig i = min (basis.length - i * sig.blockLength) sig.blockLength := by
  obtain ⟨hlt, -⟩ := h.lt_of_sums_eq_some hb hi
  have hidx : i < sig.sums.length := (List.getElem?_eq_some_iff.mp hi).1
  rw [blockLengthAt, if_neg (by omega), h.fileLength_eq, sub64_of_le (by omega) hl]

theorem blockAt_eq : blockAt sig basis i = slice basis (i * sig.blockLength) sig.blockLength := by
  rw [blockAt, h.blockLengthAt_eq hl hb hi, slice, slice, take_eq_take_iff, length_drop]
  omega

theorem length_blockAt : (blockAt sig basis i).length = blockLengthAt sig i := by
  rw [blockAt, length_slice, h.blockLengthAt_eq hl hb hi]
  omega

/-- The sums stored at an index are those of the block it names. -/
theorem sum_eq_blockSum : b = blockSum strong (blockAt sig basis i) := by
  rw [h.blockAt_eq hl hb hi]
  exact (h.lt_of_sums_eq_some hb hi).2

end

end

end

end

end SignatureOf

end Rail.Delta
