import Rail.Delta.Bounds
import Rail.Proto.Frame
import Mathlib.Data.Nat.Log
import Mathlib.Tactic.Linarith

/-!
# The size of a signature

`openTarget` of `src/session-receive.cc` answers a file header with the signature of the file that
is already at the destination.  The block length is chosen from the size of the *source*, about its
square root; the number of sums is what it takes to cover the *destination* with blocks of that
length.  The two sizes have nothing to do with each other, and a sum has twenty bytes on the wire.

So whether the answer fits a frame is a matter of both sizes: exactly if the destination is covered
by `frameSums` blocks (`signature_received_iff`).  A source of half a megabyte and a destination of
two gigabytes and a bit do not meet that.
-/

namespace Rail.Delta

open List Option ByteFile Proto

/-! ## The parameters of a signature -/

/-- `kDefaultBlockSize`. -/
def kDefaultBlockSize : UInt32 := 700

/-- `kBlockSumBias`. -/
def kBlockSumBias : ℤ := 10

/-- `for (uint64_t L = FileLength; L >>= 2;) C <<= 1;`, which ends after 32 passes at most. -/
def sizeBit : (passes : ℕ) → UInt64 → UInt32 → UInt32
  | 0, _, c => c
  | passes + 1, l, c => if l >>> 2 = 0 then c else sizeBit passes (l >>> 2) (c <<< 1)

/-- The `do` loop of `chooseBlockLength`, from the bit `c` down; 32 passes are enough. -/
def squareRoot (fileLength : UInt64) : (passes : ℕ) → UInt32 → UInt32 → UInt32
  | 0, _, blength => blength
  | passes + 1, c, blength =>
    let tried := blength ||| c
    let kept := if fileLength < tried.toUInt64 * tried.toUInt64 then tried &&& ~~~c else tried
    if (8 : UInt32) ≤ c >>> 1 then squareRoot fileLength passes (c >>> 1) kept else kept

/-- `chooseBlockLength`. -/
def chooseBlockLength (fileLength : UInt64) (maxBlockSize : UInt32) : UInt32 :=
  if fileLength ≤ kDefaultBlockSize.toUInt64 * kDefaultBlockSize.toUInt64 then kDefaultBlockSize
  else
    let c := sizeBit 32 fileLength 1
    if c = 0 ∨ maxBlockSize ≤ c then maxBlockSize
    else
      let blength := squareRoot fileLength 32 c 0
      if blength < kDefaultBlockSize then kDefaultBlockSize else blength

/-- `for (uint64_t L = FileLength; L >>= 1;) B += 2;` -/
def addBits : (passes : ℕ) → UInt64 → ℤ → ℤ
  | 0, _, b => b
  | passes + 1, l, b => if l >>> 1 = 0 then b else addBits passes (l >>> 1) (b + 2)

/-- `for (uint32_t C = BlockLength; (C >>= 1) && B;) B--;` -/
def dropBits : (passes : ℕ) → UInt32 → ℤ → ℤ
  | 0, _, b => b
  | passes + 1, c, b => if c >>> 1 = 0 ∨ b = 0 then b else dropBits passes (c >>> 1) (b - 1)

/-- `chooseStrongLength`. -/
def chooseStrongLength (fileLength : UInt64) (blockLength : UInt32) : UInt32 :=
  let b := dropBits 32 blockLength (addBits 64 fileLength kBlockSumBias)
  UInt32.ofNat (max 2 (min 16 ((b + 1 - 32 + 7).tdiv 8))).toNat

/-- `MaxBlockSize` of the traits, the same for both channels. -/
def maxBlockSize : UInt32 := 0x400000

/-! ## The square root -/

section Root

/-- No square the search forms overflows. -/
theorem toNat_square (x : UInt32) : (x.toUInt64 * x.toUInt64).toNat = x.toNat * x.toNat := by
  have hx : x.toNat < 2 ^ 32 := x.toNat_lt
  rw [UInt64.toNat_mul, UInt32.toNat_toUInt64, Nat.mod_eq_of_lt]
  nlinarith

theorem toNat_sizeBit {passes j : ℕ} {l : UInt64} {c : UInt32} (hc : c.toNat = 2 ^ j)
    (hp : Nat.log 4 l.toNat ≤ passes) (hj : j + Nat.log 4 l.toNat < 32) :
    (sizeBit passes l c).toNat = 2 ^ (j + Nat.log 4 l.toNat) := by
  induction passes generalizing j l c with
  | zero => rw [sizeBit, Nat.le_zero.mp hp, hc, Nat.add_zero]
  | succ passes ih =>
    have hquarter : (l >>> 2).toNat = l.toNat / 4 := by simp [Nat.shiftRight_eq_div_pow]
    rw [sizeBit]
    split_ifs with hend
    · rw [hend] at hquarter
      rw [hc, Nat.log_of_lt (by simpa using hquarter.symm), Nat.add_zero]
    · have hlarge : 4 ≤ l.toNat := by
        by_contra hlt
        exact hend (UInt64.toNat_inj.mp (hquarter.trans (Nat.div_eq_of_lt (Nat.lt_of_not_le hlt))))
      have hlog := Nat.log_of_one_lt_of_le (by decide) hlarge
      rw [hlog, ← hquarter] at hj ⊢
      rw [hlog, ← hquarter] at hp
      have hdouble : (c <<< 1).toNat = 2 ^ (j + 1) := by
        rw [UInt32.toNat_shiftLeft, hc, Nat.shiftLeft_eq]
        exact Nat.mod_eq_of_lt (Nat.pow_lt_pow_right Nat.one_lt_two (show j + 1 < 32 by omega))
      rw [ih hdouble (by omega) (by omega)]
      congr 1
      omega

/-- `b` is the square root of `l` but for its last `k` bits. -/
def RootAbove (l k b : ℕ) : Prop := 2 ^ k ∣ b ∧ b * b ≤ l ∧ l < (b + 2 ^ k) * (b + 2 ^ k)

variable {l : UInt64} {b c : UInt32} {k : ℕ}

/-- A bit below those of the candidate is set, and taken back. -/
theorem toNat_tried (hc : c.toNat = 2 ^ k) (hb : 2 ^ (k + 1) ∣ b.toNat) :
    (b ||| c).toNat = b.toNat + 2 ^ k ∧ (b ||| c) &&& ~~~c = b := by
  obtain ⟨m, hm⟩ := hb
  constructor
  · rw [UInt32.toNat_or, hc, hm,
      Nat.two_pow_add_eq_or_of_lt (Nat.pow_lt_pow_right Nat.one_lt_two k.lt_succ_self)]
  · apply UInt32.toBitVec_inj.mp
    ext i hi
    have hbits : b.toBitVec[i] = b.toNat.testBit i ∧ c.toBitVec[i] = c.toNat.testBit i := ⟨rfl, rfl⟩
    by_cases hk : k = i
    · simp [hbits, hc, hm, Nat.testBit_two_pow_mul, hk]
    · simp [hbits, hc, hk]

/-- One pass decides one bit. -/
theorem rootAbove_tried (hc : c.toNat = 2 ^ k) (h : RootAbove l.toNat (k + 1) b.toNat) :
    RootAbove l.toNat k (if l < (b ||| c).toUInt64 * (b ||| c).toUInt64 then (b ||| c) &&& ~~~c
      else b ||| c).toNat := by
  obtain ⟨hb, hle, hlt⟩ := h
  obtain ⟨htried, hback⟩ := toNat_tried hc hb
  have hdvd : 2 ^ k ∣ b.toNat := (pow_dvd_pow 2 k.le_succ).trans hb
  split_ifs with hover
  · rw [UInt64.lt_iff_toNat_lt, toNat_square, htried] at hover
    rw [hback]
    exact ⟨hdvd, hle, hover⟩
  · rw [UInt64.lt_iff_toNat_lt, toNat_square, htried] at hover
    rw [htried]
    refine ⟨Nat.dvd_add hdvd (dvd_refl _), Nat.le_of_not_lt hover, ?_⟩
    rwa [Nat.add_assoc, ← Nat.mul_two, ← pow_succ]

/-- The search ends with the last three bits undecided. -/
theorem rootAbove_squareRoot {i n : ℕ} (hp : i < n) (hc : c.toNat = 2 ^ (i + 3))
    (h : RootAbove l.toNat (i + 3 + 1) b.toNat) :
    RootAbove l.toNat 3 (squareRoot l n c b).toNat := by
  induction n generalizing i c b with
  | zero => exact absurd hp (Nat.not_lt_zero i)
  | succ passes ih =>
    have hkept := rootAbove_tried hc h
    have hhalf : (c >>> 1).toNat = 2 ^ (i + 2) := by
      rw [UInt32.toNat_shiftRight, hc, Nat.shiftRight_eq_div_pow, pow_succ]
      exact Nat.mul_div_cancel _ Nat.two_pos
    rw [squareRoot]
    cases i with
    | zero => rwa [if_neg (by rw [UInt32.le_iff_toNat_le, hhalf]; decide)]
    | succ i =>
      have hmore : (8 : UInt32) ≤ c >>> 1 := by
        rw [UInt32.le_iff_toNat_le, hhalf]
        exact Nat.pow_le_pow_right Nat.two_pos (show 3 ≤ i + 1 + 2 by omega)
      rw [if_pos hmore]
      exact ih (Nat.lt_of_succ_lt_succ hp) hhalf hkept

theorem toNat_sizeBit_one (l : UInt64) : (sizeBit 32 l 1).toNat = 2 ^ Nat.log 4 l.toNat := by
  have hlog : Nat.log 4 l.toNat < 32 := Nat.log_lt_of_lt_pow' (by decide) l.toNat_lt
  rw [toNat_sizeBit (j := 0) rfl hlog.le (by omega), Nat.zero_add]

/-- What the search finds, from the leading power of two down. -/
theorem isGreatest_squareRoot (hlarge : 490000 < l.toNat) :
    IsGreatest {m | 8 ∣ m ∧ m * m ≤ l.toNat} (squareRoot l 32 (sizeBit 32 l 1) 0).toNat ∧
      (squareRoot l 32 (sizeBit 32 l 1) 0).toNat < 2 ^ (Nat.log 4 l.toNat + 1) := by
  have hlt : l.toNat < 2 ^ (Nat.log 4 l.toNat + 1) * 2 ^ (Nat.log 4 l.toNat + 1) := by
    rw [← Nat.mul_pow]
    exact Nat.lt_pow_succ_log_self (by decide) l.toNat
  have hlow : 9 ≤ Nat.log 4 l.toNat := Nat.le_log_of_pow_le (by decide) (by omega)
  have hhigh : Nat.log 4 l.toNat < 32 := Nat.log_lt_of_lt_pow' (by decide) l.toNat_lt
  obtain ⟨i, hi⟩ := Nat.exists_eq_add_of_le' ((by decide : 3 ≤ 9).trans hlow)
  obtain ⟨hdvd, hle, hgt⟩ := rootAbove_squareRoot (l := l) (b := 0) (i := i) (n := 32) (by omega)
    (hi ▸ toNat_sizeBit_one l) ⟨dvd_zero _, Nat.zero_le _, by simpa [← hi] using hlt⟩
  refine ⟨⟨⟨hdvd, hle⟩, fun m ⟨hm, hsq⟩ => ?_⟩, Nat.mul_self_lt_mul_self_iff.mp (hle.trans_lt hlt)⟩
  have hclose := Nat.mul_self_lt_mul_self_iff.mp (hsq.trans_lt hgt)
  omega

/-- **Blocks are about as long as the square root of the file.**  The length is within the limit,
and where the leading power of two is below it, the largest multiple of eight whose square is not
longer than the file, or 700. -/
theorem chooseBlockLength_follows_root (fileLength : UInt64) (limit : UInt32) (j : ℕ) (hj : 10 ≤ j)
    (hlimit : limit.toNat = 2 ^ j) :
    chooseBlockLength fileLength limit ≤ limit ∧
      (490000 < fileLength.toNat → 2 ^ Nat.log 4 fileLength.toNat < limit.toNat →
        ∃ m, IsGreatest {m | 8 ∣ m ∧ m * m ≤ fileLength.toNat} m ∧
          (chooseBlockLength fileLength limit).toNat = max 700 m) ∧
      ∀ x : UInt32, (x.toUInt64 * x.toUInt64).toNat = x.toNat * x.toNat := by
  have hdefault : kDefaultBlockSize ≤ limit := by
    rw [UInt32.le_iff_toNat_le, hlimit]
    exact (show 700 ≤ 2 ^ 10 by decide).trans (Nat.pow_le_pow_right Nat.two_pos hj)
  have hlead : (sizeBit 32 fileLength 1 = 0 ∨ limit ≤ sizeBit 32 fileLength 1) ↔
      limit.toNat ≤ 2 ^ Nat.log 4 fileLength.toNat := by
    rw [← UInt32.toNat_inj, UInt32.le_iff_toNat_le, toNat_sizeBit_one]
    exact or_iff_right (Nat.two_pow_pos _).ne'
  rw [chooseBlockLength]
  dsimp only
  split_ifs with hsmall hcut hless
  · exact ⟨hdefault, fun hlarge =>
      absurd hlarge (Nat.not_lt.mpr (UInt64.le_iff_toNat_le.mp hsmall)), toNat_square⟩
  · exact ⟨UInt32.le_refl limit, fun _ hlt => absurd (hlead.mp hcut) (Nat.not_le.mpr hlt),
      toNat_square⟩
  · obtain ⟨hroot, -⟩ := isGreatest_squareRoot (UInt64.lt_iff_toNat_lt.mp (UInt64.not_le.mp hsmall))
    refine ⟨hdefault, fun _ _ => ⟨_, hroot, (Nat.max_eq_left ?_).symm⟩, toNat_square⟩
    exact (UInt32.lt_iff_toNat_lt.mp hless).le
  · obtain ⟨hroot, hlt⟩ :=
      isGreatest_squareRoot (UInt64.lt_iff_toNat_lt.mp (UInt64.not_le.mp hsmall))
    have hbelow := mt hlead.mpr hcut
    refine ⟨?_, fun _ _ => ⟨_, hroot, (Nat.max_eq_right ?_).symm⟩, toNat_square⟩
    · rw [hlimit, Nat.not_le, Nat.pow_lt_pow_iff_right Nat.one_lt_two] at hbelow
      rw [UInt32.le_iff_toNat_le, hlimit]
      exact hlt.le.trans (Nat.pow_le_pow_right Nat.two_pos hbelow)
    · exact UInt32.le_iff_toNat_le.mp (UInt32.not_lt.mp hless)

/-- A file of a million bytes. -/
theorem chooseBlockLength_follows_root_million :
    chooseBlockLength 1000000 maxBlockSize ≤ maxBlockSize ∧
    chooseBlockLength 1000000 maxBlockSize = 1000 :=
  ⟨(chooseBlockLength_follows_root 1000000 maxBlockSize 22 (by decide) rfl).1, by decide⟩

end Root

/-! ## The answer to a file header -/

/-- A signature as it is sent. -/
def Signature.toWire (s : Signature) : Proto.Signature where
  blockLength := UInt32.ofNat s.blockLength
  strongLength := UInt32.ofNat s.strongLength
  fileLength := UInt64.ofNat s.fileLength
  sums := s.sums.map fun b => ⟨b.weak, b.strong.toWire⟩

section Answer

variable (strong : List UInt8 → Digest)

/-- What `openTarget` sends for a source of `size` bytes, where `basis` is the file it found at the
destination. -/
def signatureFor (size : UInt64) (basis : Option FileReader) : Except Fault Proto.Signature :=
  match basis with
  | none => .ok {}
  | some r =>
    if 0 < r.size then
      let block := chooseBlockLength size maxBlockSize
      match buildSignature strong r block.toNat (chooseStrongLength size block).toNat with
      | .error e => .error e
      | .ok sig => .ok sig.toWire
    else .ok {}

/-- How many sums a frame has room for, beside the four fields before them. -/
def frameSums : ℕ := (maxFrame - 20) / 20

variable {strong} {size : UInt64} {basis : List UInt8} {r : FileReader} {target : Option FileReader}
  {sig : Proto.Signature}

theorem chooseBlockLength_pos (size : UInt64) :
    0 < (chooseBlockLength size maxBlockSize).toNat := by
  rw [chooseBlockLength]
  dsimp only
  split_ifs with hsmall hlarge hless
  · decide
  · decide
  · decide
  · exact lt_of_lt_of_le (by decide) (UInt32.le_iff_toNat_le.mp (UInt32.not_lt.mp hless))

theorem length_encode_signature (s : Proto.Signature) :
    (encode (.signature s)).length = 20 + 20 * s.sums.length := by
  have hsums : (Wire.Put.each writeSum s.sums).length = 20 * s.sums.length := by
    induction s.sums with
    | nil => rfl
    | cons b bs ih =>
      rw [Wire.Put.each, flatMap_cons, length_append, length_cons, Nat.mul_succ, Nat.add_comm]
      congr 1
      simp [writeSum, writeHash, b.strong.2]
  simp [encode, hsums]
  omega

/-- The sums cover the destination: there are no more than `n` of them exactly if `n` blocks do. -/
theorem SignatureOf.length_sums_le {s : Signature} (h : SignatureOf strong basis s)
    (hb : 0 < s.blockLength) (n : ℕ) : s.sums.length ≤ n ↔ basis.length ≤ n * s.blockLength := by
  rw [← List.getElem?_eq_none_iff, h.sums_getElem? hb n]
  by_cases hlt : n * s.blockLength < basis.length
  · rw [if_pos hlt]
    exact iff_of_false (some_ne_none _) (Nat.not_le_of_lt hlt)
  · rw [if_neg hlt]
    exact iff_of_true rfl (Nat.le_of_not_lt hlt)

theorem signatureFor_some (hr : r.Holds basis) (h : signatureFor strong size (some r) = .ok sig)
    (n : ℕ) :
    sig.sums.length ≤ n ↔ basis.length ≤ n * (chooseBlockLength size maxBlockSize).toNat := by
  rw [signatureFor, hr.size_eq] at h
  by_cases hpos : 0 < basis.length
  · simp only [if_pos hpos] at h
    cases hb : buildSignature strong r (chooseBlockLength size maxBlockSize).toNat
        (chooseStrongLength size (chooseBlockLength size maxBlockSize)).toNat with
    | error e =>
      rw [hb] at h
      cases h
    | ok s =>
      rw [hb] at h
      cases h
      obtain ⟨hs, hblock, -⟩ := signatureOf_buildSignature hr hb
      have hlen := hs.length_sums_le (by rw [hblock]; exact chooseBlockLength_pos size) n
      rw [hblock] at hlen
      rw [Signature.toWire, length_map]
      exact hlen
  · rw [if_neg hpos] at h
    cases h
    exact iff_of_true (Nat.zero_le _) (by omega)

/-- The answer fits a frame exactly if the destination is covered by as many blocks as a frame has
room for. -/
theorem signature_fits (hholds : ∀ r, target = some r → r.Holds basis)
    (h : signatureFor strong size target = .ok sig) :
    (encode (.signature sig)).length ≤ maxFrame ↔
      target = none ∨ basis.length ≤ frameSums * (chooseBlockLength size maxBlockSize).toNat := by
  have hroom : (encode (.signature sig)).length ≤ maxFrame ↔ sig.sums.length ≤ frameSums := by
    rw [length_encode_signature, frameSums, maxFrame]
    omega
  rw [hroom]
  cases target with
  | none =>
    cases h
    exact iff_of_true (Nat.zero_le _) (.inl rfl)
  | some r =>
    rw [signatureFor_some (hholds r rfl) h]
    exact (or_iff_right (some_ne_none r)).symm

/-- The length of a payload is cut to 32 bits. -/
theorem header_mod (t : UInt16) (n : ℕ) : header t n = header t (n % 2 ^ 32) := by
  have hcut : UInt32.ofNat n = UInt32.ofNat (n % 2 ^ 32) := by
    apply UInt32.toNat_inj.mp
    simp only [UInt32.toNat_ofNat', Nat.mod_mod]
  rw [header, header, hcut]

theorem receive_refused {t : UInt16} {n : ℕ} {w : Wire.Bytes} (hbig : maxFrame < n % 2 ^ 32) :
    receive (header t n ++ w) = .error "frame too large" := by
  obtain ⟨hmagic, -, hnum, -⟩ := header_fields t (Nat.mod_lt n (by decide : 0 < 2 ^ 32)) w
  rw [header_mod, receive, if_neg (by rw [length_append, length_header]; omega),
    if_neg (not_not_intro hmagic)]
  simp only [hnum, if_pos hbig]

/-- A frame over the limit is not read as what was sent: its length field is refused, or was cut to
less than the payload. -/
theorem receive_of_long {t : UInt16} {w rest : Wire.Bytes} {m : Message}
    (hlong : maxFrame < w.length) : receive (header t w.length ++ (w ++ rest)) ≠ .ok (m, rest) := by
  by_cases hbig : maxFrame < w.length % 2 ^ 32
  · rw [receive_refused hbig]
    intro h
    cases h
  · have hcut : w.length % 2 ^ 32 < w.length := by omega
    obtain ⟨hmagic, htype, hnum, hafter⟩ :=
      header_fields t (Nat.mod_lt w.length (by decide : 0 < 2 ^ 32)) (w ++ rest)
    rw [header_mod, receive, if_neg (by rw [length_append, length_header]; omega),
      if_neg (not_not_intro hmagic)]
    simp only [htype, hnum, hafter]
    rw [if_neg hbig, if_neg (by rw [length_append]; omega)]
    intro h
    cases hd : decode t ((w ++ rest).take (w.length % 2 ^ 32)) with
    | error e =>
      rw [hd] at h
      cases h
    | ok m' =>
      rw [hd] at h
      have hdrop : (w ++ rest).drop (w.length % 2 ^ 32) = rest :=
        congrArg Prod.snd (Except.ok.inj h)
      have hlen := congrArg List.length hdrop
      rw [length_drop, length_append] at hlen
      omega

/-- What the other side makes of a frame with a signature: it reads the signature, and goes on after
it, exactly if the payload is within the limit. -/
theorem receive_signature_iff (sig : Proto.Signature) (rest : Wire.Bytes) :
    receive (frame (.signature sig) ++ rest) = .ok (.signature sig, rest) ↔
      (encode (.signature sig)).length ≤ maxFrame := by
  rw [frame, append_assoc]
  constructor
  · intro h
    by_contra hlong
    exact receive_of_long (Nat.lt_of_not_le hlong) h
  · intro hfits
    have hsums : sig.sums.length < 2 ^ 32 := by
      rw [length_encode_signature, maxFrame] at hfits
      omega
    exact receive_header hfits (decode_of_reads (reads_signature sig hsums))

/-- **Which signatures the sender receives.** The answer to a file header is read by the other side
exactly if there was no file at the destination, or one that `frameSums` blocks cover; the blocks
are as long as the size of the source makes them. -/
theorem signature_received_iff (strong : List UInt8 → Digest) (size : UInt64)
    (target : Option FileReader) (basis : List UInt8)
    (hholds : ∀ r, target = some r → r.Holds basis) (sig : Proto.Signature)
    (h : signatureFor strong size target = .ok sig) :
    ((encode (.signature sig)).length ≤ maxFrame ↔
        target = none ∨ basis.length ≤ frameSums * (chooseBlockLength size maxBlockSize).toNat) ∧
      ∀ rest, receive (frame (.signature sig) ++ rest) = .ok (.signature sig, rest) ↔
        target = none ∨ basis.length ≤ frameSums * (chooseBlockLength size maxBlockSize).toNat := by
  have hfits := signature_fits hholds h
  exact ⟨hfits, fun rest => (receive_signature_iff sig rest).trans hfits⟩

/-- A destination of five bytes. -/
theorem signature_received_iff_five :
    ∃ sig, signatureFor zeroPadded 5 (some (.ofBytes [1, 2, 3, 4, 5])) = .ok sig ∧
    sig.sums.length = 1 ∧ receive (frame (.signature sig)) = .ok (.signature sig, []) := by
  have h := signature_received_iff zeroPadded 5 (some (.ofBytes [1, 2, 3, 4, 5])) [1, 2, 3, 4, 5]
    (fun r hr => some.inj hr ▸ FileReader.ofBytes_holds _) _ rfl
  refine ⟨_, rfl, rfl, ?_⟩
  have hreceived := (h.2 []).mpr (.inr (by decide))
  rw [append_nil] at hreceived
  exact hreceived

theorem buildSums_ofBytes (strong : List UInt8 → Digest) (f : List UInt8)
    (block passes k offset : ℕ) :
    ∃ sums, buildSums strong (.ofBytes f) block f.length passes k offset = .ok sums := by
  induction passes generalizing k offset with
  | zero => exact ⟨_, rfl⟩
  | succ passes ih =>
    rw [buildSums]
    by_cases ho : offset < f.length
    · obtain ⟨p, hp⟩ :=
        @readLoop_ok (.ofBytes f) (fun _ _ _ => some_ne_none _) (min block (f.length - offset)) k
        (min block (f.length - offset)) offset
      obtain ⟨rest, hrest⟩ := ih p.2 (offset + p.1.length)
      rw [if_pos ho, FileReader.read, hp]
      dsimp only
      split_ifs with hempty
      · exact ⟨_, rfl⟩
      · rw [hrest]
        exact ⟨_, rfl⟩
    · rw [if_neg ho]
      exact ⟨_, rfl⟩

/-- A destination that is read without an error is always answered. -/
theorem signatureFor_ofBytes (strong : List UInt8 → Digest) (size : UInt64) (f : List UInt8) :
    ∃ sig, signatureFor strong size (some (.ofBytes f)) = .ok sig := by
  obtain ⟨sums, hsums⟩ :=
    buildSums_ofBytes strong f (chooseBlockLength size maxBlockSize).toNat f.length 0 0
  rw [signatureFor, size_ofBytes]
  split_ifs with hpos
  · dsimp only
    rw [buildSignature, size_ofBytes, hsums]
    split_ifs
    all_goals exact ⟨_, rfl⟩
  · exact ⟨_, rfl⟩

/-- A source of 490000 bytes and a destination of a little over two gigabytes: the answer has one
sum more than a frame has room for. -/
theorem large_destination_refused :
    ∃ (basis : List UInt8) (sig : Proto.Signature), basis.length = 2348809401 ∧
      signatureFor zeroPadded 490000 (some (.ofBytes basis)) = .ok sig ∧
      receive (frame (.signature sig)) = .error "frame too large" := by
  let f : List UInt8 := List.replicate 2348809401 0
  have hlen : f.length = 2348809401 := length_replicate
  clear_value f
  obtain ⟨sig, hsig⟩ := signatureFor_ofBytes zeroPadded 490000 f
  have hcount := signatureFor_some (FileReader.ofBytes_holds f) hsig
  have hblock : (chooseBlockLength 490000 maxBlockSize).toNat = 700 := by decide
  have hle : sig.sums.length ≤ 3355443 := (hcount 3355443).mpr (by omega)
  have hgt : ¬ sig.sums.length ≤ 3355442 := fun h => absurd ((hcount 3355442).mp h) (by omega)
  refine ⟨f, sig, hlen, hsig, receive_refused ?_⟩
  rw [length_encode_signature, maxFrame]
  omega

end Answer
end Rail.Delta
