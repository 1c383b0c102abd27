import Mathlib.Algebra.Group.Nat.Defs
import Mathlib.Data.List.GetD
import Mathlib.Order.Lattice

/-!
# The rolling checksum

`src/app/checksum.cc` and `include/rail/app/checksum.h`: rsync's weak sum, a pair of
32-bit sums of which the low halves are kept, and the constant-time update that slides
the block by one byte.

The code computes the pair four bytes at a time while more than four are left, and
then byte by byte.  `weakSums_eq_weakTail` says that this is the byte-by-byte pair, and
the byte-by-byte pair has a closed form (`weakTail_eq`): the plain sum `byteSum`, and
the sum `weightedSum` in which each byte counts once for every byte from it to the end.
The two halves of the weak sum are then rings modulo `2 ^ 16`, and sliding the block is
one identity in each (`rollWeak_weakChecksum`).

The strong checksum is XXH3-128, which is a library outside this repository.  It stays
a parameter wherever it is used.
-/

namespace Rail.Delta

open List

/-! ## Bytes and lengths as the code casts them -/

/-- `static_cast<uint32_t>(Buf[I])` for a `const int8_t *Buf`: bytes are signed. -/
def schar (b : UInt8) : UInt32 := b.toInt8.toInt32.toUInt32

/-- `static_cast<int32_t>(Block.size())` as the bound of a loop that counts up from
zero: a length whose cast is negative bounds no iteration at all. -/
def int32Length (n : ℕ) : ℕ := (Int.bmod n 0x100000000).toNat

theorem bmod_of_lt {n : ℕ} (h : n < 2 ^ 31) : Int.bmod n 0x100000000 = n := by
  rw [Int.bmod_def]
  split_ifs <;> omega

theorem int32Length_of_lt {n : ℕ} (h : n < 2 ^ 31) : int32Length n = n := by
  unfold int32Length
  rw [bmod_of_lt h]
  exact Int.toNat_natCast n

/-! ## The weak sum -/

/-- The second loop of `weakChecksum`, one byte at a time. -/
def weakTail : UInt32 → UInt32 → List UInt8 → UInt32 × UInt32
  | s1, s2, [] => (s1, s2)
  | s1, s2, b :: bs => weakTail (s1 + schar b) (s2 + (s1 + schar b)) bs

/-- Both loops of `weakChecksum`: four bytes at a time while `I < Len - 4`, then the
rest. -/
def weakSums : UInt32 → UInt32 → List UInt8 → UInt32 × UInt32
  | s1, s2, a :: b :: c :: d :: e :: rest =>
    weakSums (s1 + (schar a + schar b + schar c + schar d))
      (s2 + (4 * (s1 + schar a) + 3 * schar b + 2 * schar c + schar d)) (e :: rest)
  | s1, s2, rest => weakTail s1 s2 rest

/-- `weakChecksum`: the low halves of the two sums, packed into one word. -/
def weakChecksum (block : List UInt8) : UInt32 :=
  let s := weakSums 0 0 (block.take (int32Length block.length))
  (s.1 &&& (0xffff : UInt32)) + (s.2 <<< 16)

/-- `rollWeak`: `out` leaves the block, `inc` enters it. -/
def rollWeak (sum : UInt32) (out inc : UInt8) (blockLen : UInt32) : UInt32 :=
  let o := schar out
  let i := schar inc
  let s1 := ((sum &&& (0xffff : UInt32)) - o + i) &&& (0xffff : UInt32)
  let s2 := ((sum >>> 16) - blockLen * o + s1) &&& (0xffff : UInt32)
  s1 ||| (s2 <<< 16)

/-- `weakHash`: both halves of the weak sum, mixed into a bucket index. -/
def weakHash (weak : UInt32) : UInt32 :=
  ((weak >>> 16) + (weak &&& (0xffff : UInt32))) &&& (0xffff : UInt32)

/-! ## The unrolled loop is the plain one -/

theorem weakSums_eq_weakTail (s1 s2 : UInt32) (l : List UInt8) :
    weakSums s1 s2 l = weakTail s1 s2 l := by
  induction s1, s2, l using weakSums.induct with
  | case1 s1 s2 a b c d e rest ih =>
    conv_rhs => rw [weakTail, weakTail, weakTail, weakTail]
    rw [weakSums, ih]
    congr 1
    · grind
    · grind
  | case2 s1 s2 rest h =>
    rw [weakSums]
    exact h

/-- The plain sum of the bytes of a block. -/
def byteSum : List UInt8 → UInt32
  | [] => 0
  | b :: bs => schar b + byteSum bs

/-- Each byte counted once for every byte from it to the end of the block. -/
def weightedSum : List UInt8 → UInt32
  | [] => 0
  | b :: bs => (UInt32.ofNat bs.length + 1) * schar b + weightedSum bs

theorem weakTail_eq (s1 s2 : UInt32) (l : List UInt8) :
    weakTail s1 s2 l = (s1 + byteSum l, s2 + UInt32.ofNat l.length * s1 + weightedSum l) := by
  induction l generalizing s1 s2 with
  | nil => simp [weakTail, byteSum, weightedSum]
  | cons b bs ih =>
    rw [weakTail, ih, byteSum, weightedSum, length_cons, UInt32.ofNat_add]
    refine Prod.ext ?_ ?_
    · show s1 + schar b + byteSum bs = s1 + (schar b + byteSum bs)
      grind
    · show _ = s2 + (UInt32.ofNat bs.length + UInt32.ofNat 1) * s1 + _
      have h1 : UInt32.ofNat 1 = 1 := rfl
      rw [h1]
      grind

theorem byteSum_append_singleton (l : List UInt8) (b : UInt8) :
    byteSum (l ++ [b]) = byteSum l + schar b := by
  induction l with
  | nil => simp [byteSum]
  | cons a l ih => rw [cons_append, byteSum, byteSum, ih]; grind

theorem weightedSum_append_singleton (l : List UInt8) (b : UInt8) :
    weightedSum (l ++ [b]) = weightedSum l + byteSum l + schar b := by
  induction l with
  | nil => simp [byteSum, weightedSum]
  | cons a l ih =>
    have h1 : UInt32.ofNat 1 = 1 := rfl
    rw [cons_append, weightedSum, weightedSum, byteSum, ih, length_append, length_singleton,
      UInt32.ofNat_add, h1]
    grind

/-- The weak sum of a block short enough for its length to survive the cast. -/
theorem weakChecksum_eq {block : List UInt8} (h : block.length < 2 ^ 31) : weakChecksum block =
      (byteSum block &&& (0xffff : UInt32)) + (weightedSum block <<< 16) := by
  rw [weakChecksum, int32Length_of_lt h, take_length, weakSums_eq_weakTail, weakTail_eq]
  simp

/-! ## Rolling -/

theorem toNat_and_ffff (a : UInt32) : (a &&& (0xffff : UInt32)).toNat = a.toNat % 65536 := by
  rw [UInt32.toNat_and]
  exact Nat.and_two_pow_sub_one_eq_mod a.toNat 16

theorem toNat_shiftLeft_16 (b : UInt32) : (b <<< 16).toNat = b.toNat % 65536 * 65536 := by
  have h16 : (16 : UInt32).toNat % 32 = 16 := rfl
  rw [UInt32.toNat_shiftLeft, h16, Nat.shiftLeft_eq]
  omega

/-- The word the two halves are packed into. -/
theorem toNat_pack (a b : UInt32) :
    ((a &&& (0xffff : UInt32)) + (b <<< 16)).toNat = a.toNat % 65536 + b.toNat % 65536 * 65536 := by
  rw [UInt32.toNat_add, toNat_and_ffff, toNat_shiftLeft_16]
  omega

/-- Packing by sum and packing by union agree on halves that fit. -/
theorem pack_or (a b : UInt32) : (a &&& (0xffff : UInt32)) ||| ((b &&& (0xffff : UInt32)) <<< 16) =
      (a &&& (0xffff : UInt32)) + (b <<< 16) := by
  apply UInt32.toNat_inj.mp
  have ha : a.toNat % 65536 < 2 ^ 16 := Nat.mod_lt _ (by decide)
  have hb : b.toNat % 65536 % 65536 * 65536 = (b.toNat % 65536) <<< 16 := by
    rw [Nat.mod_mod, Nat.shiftLeft_eq]
  rw [toNat_pack, UInt32.toNat_or, toNat_and_ffff, toNat_shiftLeft_16, toNat_and_ffff, hb,
    Nat.or_comm, ← Nat.shiftLeft_add_eq_or_of_lt ha, Nat.shiftLeft_eq, Nat.add_comm]

theorem pack_and_ffff (a b : UInt32) :
    ((a &&& (0xffff : UInt32)) + (b <<< 16)) &&& (0xffff : UInt32) = a &&& (0xffff : UInt32) := by
  apply UInt32.toNat_inj.mp
  rw [toNat_and_ffff, toNat_pack, toNat_and_ffff]
  omega

theorem pack_shiftRight (a b : UInt32) :
    ((a &&& (0xffff : UInt32)) + (b <<< 16)) >>> 16 = b &&& (0xffff : UInt32) := by
  apply UInt32.toNat_inj.mp
  have h16 : (16 : UInt32).toNat % 32 = 16 := rfl
  rw [UInt32.toNat_shiftRight, h16, toNat_pack, toNat_and_ffff, Nat.shiftRight_eq_div_pow]
  omega

/-- Arithmetic modulo `2 ^ 16` may drop the high half of an operand at any time. -/
theorem and_ffff_sub_add (a o i : UInt32) :
    ((a &&& (0xffff : UInt32)) - o + i) &&& (0xffff : UInt32) =
    (a - o + i) &&& (0xffff : UInt32) := by
  apply UInt32.toNat_inj.mp
  rw [toNat_and_ffff, toNat_and_ffff]
  simp only [UInt32.toNat_add, UInt32.toNat_sub, toNat_and_ffff]
  omega

theorem and_ffff_sub_add_and (a o i : UInt32) :
    ((a &&& (0xffff : UInt32)) - o + (i &&& (0xffff : UInt32))) &&& (0xffff : UInt32) =
      (a - o + i) &&& (0xffff : UInt32) := by
  apply UInt32.toNat_inj.mp
  rw [toNat_and_ffff, toNat_and_ffff]
  simp only [UInt32.toNat_add, UInt32.toNat_sub, toNat_and_ffff]
  omega

/-- **The rolling checksum rolls.**  Removing the first byte and adding the next one
gives the weak sum of the block one byte further on. -/
theorem rollWeak_weakChecksum (b : UInt8) (bs : List UInt8) (c : UInt8)
    (h : bs.length + 1 < 2 ^ 31) :
    rollWeak (weakChecksum (b :: bs)) b c (UInt32.ofNat (bs.length + 1)) =
      weakChecksum (bs ++ [c]) := by
  have h1 : UInt32.ofNat 1 = 1 := rfl
  rw [weakChecksum_eq (by simpa using h), weakChecksum_eq (by simpa using h)]
  simp only [rollWeak]
  rw [pack_and_ffff, pack_shiftRight, and_ffff_sub_add, and_ffff_sub_add_and, pack_or,
    byteSum_append_singleton, weightedSum_append_singleton]
  have hs : byteSum (b :: bs) - schar b + schar c = byteSum bs + schar c := by
    rw [byteSum]
    grind
  have hw : weightedSum (b :: bs) - UInt32.ofNat (bs.length + 1) * schar b +
      (byteSum bs + schar c) = weightedSum bs + byteSum bs + schar c := by
    rw [weightedSum, UInt32.ofNat_add, h1]
    grind
  rw [hs, hw]

/-- **The weak sum is the pair of plain sums, and rolls.**  The unrolled loops give the pair for
every length; the length of a block has to survive the cast. -/
theorem weak_sum_rolls (b : UInt8) (bs : List UInt8) (c : UInt8) (h : bs.length + 1 < 2 ^ 31) :
    (∀ l, weakSums 0 0 l = (byteSum l, weightedSum l)) ∧
      weakChecksum (b :: bs) = (byteSum (b :: bs) &&& (0xffff : UInt32)) +
      (weightedSum (b :: bs) <<< 16) ∧
      rollWeak (weakChecksum (b :: bs)) b c (UInt32.ofNat (bs.length + 1)) =
      weakChecksum (bs ++ [c]) := by
  refine ⟨fun l => ?_, weakChecksum_eq (by simpa using h), rollWeak_weakChecksum b bs c h⟩
  rw [weakSums_eq_weakTail, weakTail_eq]
  simp

theorem weak_sum_rolls_negative :
    rollWeak (weakChecksum [200, 7, 255, 1, 90]) 200 133 5 = weakChecksum [7, 255, 1, 90, 133] :=
  (weak_sum_rolls 200 [7, 255, 1, 90] 133 (by decide)).2.2

end Rail.Delta
