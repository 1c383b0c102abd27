import Rail.Delta.Differ

/-!
# A completed diff rebuilds the source

The receiver's side of a delta transfer (`Receive::applyCopy` of `src/session-receive.cc`,
and the literal bytes that follow an instruction of the other kind), and the theorem that
ties it to the differ: what a completed `diff` handed to its sink, replayed by the
receiver, is the source.

The argument has three parts, each about one piece of the differ's state.

* `Account` is about `Outgoing`: what can be said of the instructions up to a position of
  the source and is kept by the next literal and by the next copy of a block whose sums
  were compared.  `Sent` is one: what has been emitted up to `n` tiles `[0, n)`, replays
  to the first `n` bytes of the source, and is what the report counts.
* `Covers` is about `SourceWindow`: its first `len` bytes are the source's at `base`.
* `lookup_sound` is about the hash table: whatever the table and its chains hold, a block
  is only returned after its sums have been compared with the window's.

A pass of the scan keeps every account (`scanStep_inv`), and so does a whole diff
(`diff_account`).  The table itself plays no part: a wrong entry can only lose a match.
-/

namespace Rail.Delta

open List Option ByteFile

/-! ## The receiver -/

variable (sig : Signature)

/-- `Receive::applyCopy` over a basis whose reads succeed.  `none` is a refusal: an index
out of range, or a block the basis does not hold in full. -/
def applyCopy (basis dst : List UInt8) (blockIndex dstOffset : ℕ) : Option (List UInt8) :=
  let length := blockLengthAt sig blockIndex
  if length = 0 then none
  else
    let scratch := slice basis (blockIndex * sig.blockLength) length
    if scratch.length ≠ length then none else some (pwrite dst dstOffset scratch)

/-- One instruction, as the receiver carries it out. -/
def applyInstruction (source basis dst : List UInt8) (ins : Instruction) : Option (List UInt8) :=
  match ins.kind with
  | .literal => some (pwrite dst ins.dstOffset (slice source ins.srcOffset ins.length))
  | .copy => applyCopy sig basis dst ins.blockIndex ins.dstOffset

/-- All of them in order, into a new file. -/
def replay (source basis : List UInt8) (is : List Instruction) : Option (List UInt8) :=
  is.foldlM (applyInstruction sig source basis) []

theorem replay_append_singleton {sig : Signature} {source basis dst : List UInt8}
    {is : List Instruction} (h : replay sig source basis is = some dst) (ins : Instruction) :
    replay sig source basis (is ++ [ins]) = applyInstruction sig source basis dst ins := by
  rw [replay] at h ⊢
  rw [foldlM_append, h]
  rw [bind_eq_bind, bind_some, foldlM_cons]
  exact bind_fun_some _

/-! ## Tilings -/

/-- The instructions land one after the other, without a gap, from `a` to `b`. -/
def Tiles : (a : ℕ) → List Instruction → (b : ℕ) → Prop
  | a, [], b => a = b
  | a, ins :: is, b => ins.dstOffset = a ∧ 0 < ins.length ∧ Tiles (a + ins.length) is b

variable {n off : ℕ} {o : Outgoing} {ht : HashTable} {rep : Report} {ins : Instruction}
  {weak : UInt32}

theorem Tiles.append_singleton {b : ℕ} (hd : ins.dstOffset = b) (hl : 0 < ins.length) :
    ∀ {a : ℕ} {is : List Instruction}, Tiles a is b → Tiles a (is ++ [ins]) (b + ins.length)
  | _, [], h => by
    obtain rfl : _ = b := h
    exact ⟨hd, hl, rfl⟩
  | _, _ :: _, ⟨h₁, h₂, h₃⟩ => ⟨h₁, h₂, .append_singleton hd hl h₃⟩

/-! ## What a lookup returns -/

section Lookup

variable {strong : List UInt8 → Digest} {sig : Signature}

/-- The sums stored at `i` are those of the window, as far as the code compares them. -/
structure SumsAgree (strong : List UInt8 → Digest) (sig : Signature) (weak : UInt32)
    (win : List UInt8) (i : ℕ) : Prop where
  length_eq : blockLengthAt sig i = win.length
  sum : ∃ s, sig.sums[i]? = some s ∧ s.weak = weak ∧
    (strong win).toList.take sig.strongLength = s.strong.toList.take sig.strongLength

theorem strongMatches_eq_true {a b : Digest} (h : strongMatches a b n = .ok true) :
    a.toList.take n = b.toList.take n := by
  rw [strongMatches] at h
  split_ifs at h
  exact eq_of_beq (Except.ok.inj h)

/-- The walk along a chain returns what it was given or a block whose sums it compared,
whatever the chain holds. -/
theorem lookupChain_sound {wantI : ℤ} {win : List UInt8} :
    ∀ (budget : ℕ) {i best : ℤ} {alarms : ℕ} {res : ℤ × ℕ},
    (0 ≤ best → SumsAgree strong sig weak win best.toNat) →
    lookupChain strong sig ht wantI weak win budget i best alarms = .ok res → 0 ≤ res.1 →
    SumsAgree strong sig weak win res.1.toNat := by
  intro budget
  induction budget with
  | zero =>
    intro i best alarms res hbest h
    rw [lookupChain] at h
    rwa [← Except.ok.inj h]
  | succ budget ih =>
    intro i best alarms res hbest h
    rw [lookupChain] at h
    by_cases hi : i < 0
    · rw [if_pos hi] at h
      rwa [← Except.ok.inj h]
    rw [if_neg hi] at h
    cases hs : sig.sums[i.toNat]? with
    | none =>
      rw [hs] at h
      cases h
    | some s =>
      rw [hs] at h
      simp only at h
      by_cases hw : s.weak ≠ weak
      · rw [if_pos hw] at h
        exact ih hbest h
      rw [if_neg hw] at h
      by_cases hl : blockLengthAt sig i.toNat ≠ win.length
      · rw [if_pos hl] at h
        exact ih hbest h
      rw [if_neg hl] at h
      match hm : strongMatches (strong win) s.strong sig.strongLength with
      | .error e =>
        rw [hm] at h
        cases h
      | .ok false =>
        rw [hm] at h
        exact ih hbest h
      | .ok true =>
        rw [hm] at h
        simp only at h
        have hagree : SumsAgree strong sig weak win i.toNat :=
          ⟨not_not.mp hl, s, hs, not_not.mp hw, strongMatches_eq_true hm⟩
        by_cases hwant : i = wantI
        · rw [if_pos hwant] at h
          rw [← Except.ok.inj h]
          exact fun _ => hagree
        · rw [if_neg hwant] at h
          refine ih (fun hb => ?_) h
          by_cases hneg : best < 0
          · rwa [if_pos hneg]
          · rw [if_neg hneg]
            exact hbest (by omega)

/-- **A block is returned only after its sums have been compared**, and the counters of
bytes are left alone. -/
theorem lookup_sound {maxChainLen : ℕ} {wantI : ℤ} {win : List UInt8} {rep' : Report} {i : ℤ}
    (h : lookup strong sig maxChainLen ht wantI weak win rep = .ok (i, rep')) :
    (0 ≤ i → SumsAgree strong sig weak win i.toNat) ∧
      rep'.literalBytes = rep.literalBytes ∧ rep'.matchedBytes = rep.matchedBytes := by
  rw [lookup] at h
  split_ifs at h with hi
  · obtain ⟨rfl, rfl⟩ := Prod.mk.inj (Except.ok.inj h)
    exact ⟨fun h => absurd h (by decide), rfl, rfl⟩
  · split at h
    · cases h
    · next best alarms hc =>
      obtain ⟨rfl, rfl⟩ := Prod.mk.inj (Except.ok.inj h)
      exact ⟨lookupChain_sound maxChainLen (fun h => absurd h (by decide)) hc, rfl, rfl⟩

/-- No source window and basis block of one length and one weak sum share the part of the
strong checksum that is compared, unless they are equal. -/
def NoCollision (strong : List UInt8 → Digest) (sig : Signature) (source basis : List UInt8) :
    Prop :=
  ∀ off len i, off + len ≤ source.length → i < sig.sums.length →
    (slice source off len).length = (blockAt sig basis i).length →
    weakChecksum (slice source off len) = weakChecksum (blockAt sig basis i) →
    (strong (slice source off len)).toList.take sig.strongLength =
      (strong (blockAt sig basis i)).toList.take sig.strongLength →
    slice source off len = blockAt sig basis i

/-- Where the sums agree, the window is the block. -/
theorem SumsAgree.blockAt_eq {source basis : List UInt8} {len i : ℕ}
    (hcol : NoCollision strong sig source basis) (hsig : SignatureOf strong basis sig)
    (hl : basis.length < 2 ^ 64) (hb : 0 < sig.blockLength) (hend : off + len ≤ source.length)
    (h : SumsAgree strong sig (weakChecksum (slice source off len)) (slice source off len) i) :
    blockAt sig basis i = slice source off len := by
  obtain ⟨s, hs, hweak, hstrong⟩ := h.sum
  have hsum := hsig.sum_eq_blockSum hl hb hs
  rw [hsum, blockSum] at hweak hstrong
  refine (hcol off len i hend (List.getElem?_eq_some_iff.mp hs).1 ?_ hweak.symm hstrong).symm
  rw [hsig.length_blockAt hl hb hs, h.length_eq]

end Lookup

/-! ## The window over the source -/

section Window

variable {source : List UInt8} {src : FileReader}

/-- The first `len` bytes of the window are the source's at `base`. -/
structure Covers (source : List UInt8) (w : SourceWindow) : Prop where
  len_le : w.len ≤ w.window.length
  size_le : w.window.length ≤ kMaxWindow
  slice_eq : slice w.window 0 w.len = slice source w.base w.len

variable {w : SourceWindow}

/-- The window before anything was read. -/
theorem Covers.empty (source : List UInt8) (n : ℕ) :
    Covers source ⟨List.replicate (min kMaxWindow n) 0, 0, 0, 0⟩ where
  len_le := Nat.zero_le _
  size_le := by rw [length_replicate]; exact Nat.min_le_left _ _
  slice_eq := by rw [slice_zero_length, slice_zero_length]

theorem Covers.slice (h : Covers source w) (hoff : w.base ≤ off) (hn : off + n ≤ w.base + w.len) :
    ByteFile.slice w.window (off - w.base) n = ByteFile.slice source off n := by
  have hin : off - w.base + n ≤ w.len := by omega
  have h₁ := @slice_slice _ w.window 0 w.len (off - w.base) n hin
  rw [h.slice_eq, slice_slice source hin, Nat.zero_add, Nat.add_sub_cancel' hoff] at h₁
  exact h₁.symm

/-- A refill covers the source from its offset on, as far as the window reaches. -/
theorem fillWindow_covers (hsrc : src.Holds source) {w' : SourceWindow} (h : Covers source w)
    (hf : fillWindow src source.length w off = .ok w') :
    Covers source w' ∧ w'.base = off ∧ w'.window.length = w.window.length ∧
      w'.len = min w.window.length (source.length - off) := by
  rw [fillWindow] at hf
  cases hr : src.read w.calls (min w.window.length (source.length - off)) off with
  | error e =>
    rw [hr] at hf
    cases hf
  | ok res =>
    obtain ⟨got, calls⟩ := res
    rw [hr] at hf
    rw [← Except.ok.inj hf]
    have hgot := FileReader.read_eq_slice hsrc hr
    have hlen : got.length = min w.window.length (source.length - off) := by
      rw [hgot, length_slice]
      omega
    have hsize : (got ++ w.window.drop got.length).length = w.window.length := by
      rw [length_append, length_drop]
      omega
    refine ⟨⟨?_, ?_, ?_⟩, rfl, hsize, hlen⟩
    · rw [hsize]
      exact hlen.le.trans (Nat.min_le_left _ _)
    · rw [hsize]
      exact h.size_le
    · rw [ByteFile.slice, drop_zero, take_left, hlen]
      exact hgot

/-- After `ensureWindow` a span of the window that is in bounds is the source's block. -/
theorem ensureWindow_covers (hsrc : src.Holds source) {w' : SourceWindow} {block : ℕ}
    (h : Covers source w) (hend : off + block ≤ source.length)
    (hf : ensureWindow src block source.length w off = .ok w') : Covers source w' ∧ w'.base ≤ off ∧
      (off - w'.base + block ≤ w'.window.length → off + block ≤ w'.base + w'.len) := by
  rw [ensureWindow, Nat.min_eq_left hend] at hf
  split_ifs at hf with hin
  · rw [← Except.ok.inj hf]
    exact ⟨h, hin.1, fun _ => hin.2⟩
  · obtain ⟨hc, hbase, hsize, hlen⟩ := fillWindow_covers hsrc h hf
    refine ⟨hc, hbase.le, fun hle => ?_⟩
    omega

end Window

/-! ## What has been sent -/

section Account

variable (strong : List UInt8 → Digest) (sig : Signature) (src : FileReader) (source : List UInt8)
  (sink : List Instruction → Instruction → Bool)

/-- The bytes are as long as a block, and if the source stays as it is they are its next ones and
have the sums of the block. -/
structure Verified (n index : ℕ) (bytes : List UInt8) : Prop where
  pos : 0 < bytes.length
  length_eq : blockLengthAt sig index = bytes.length
  trusted : src.Holds source →
    bytes = slice source n bytes.length ∧ SumsAgree strong sig (weakChecksum bytes) bytes index

/-- What every instruction that the differ sends keeps, about all of them up to a position of the
source. -/
structure Account (P : Outgoing → ℕ → Prop) : Prop where
  /-- The report may change in the counters that are not about bytes. -/
  congr_rep : ∀ {o n rep}, P o n → rep.literalBytes = o.rep.literalBytes →
    rep.matchedBytes = o.rep.matchedBytes → P { o with rep } n
  literal : ∀ {o n m emitted}, P o n → 0 < m → n + m ≤ src.size →
    emit sink o ⟨.literal, 0, n, o.dstCursor, m, []⟩ = .ok emitted →
    P ⟨o.dstCursor + m, { o.rep with literalBytes := o.rep.literalBytes + m }, emitted⟩ (n + m)
  copy : ∀ {o n index bytes emitted}, P o n → Verified strong sig src source n index bytes →
    n + bytes.length ≤ src.size →
    emit sink o ⟨.copy, index, n, o.dstCursor, bytes.length, bytes⟩ = .ok emitted →
    P ⟨o.dstCursor + bytes.length, { o.rep with matchedBytes := o.rep.matchedBytes + bytes.length },
      emitted⟩ (n + bytes.length)

namespace Account

variable {strong sig src source sink} {P : Outgoing → ℕ → Prop} {o o' : Outgoing} {n : ℕ}

section

variable (ha : Account strong sig src source sink P)
include ha

/-- The chunks of a literal, one after the other. -/
theorem emitLiteralLoop {passes length : ℕ} (hle : length ≤ passes)
    (hend : n + length ≤ src.size) (hp : P o n)
    (h : Delta.emitLiteralLoop sink passes n length o = .ok o') : P o' (n + length) := by
  induction passes generalizing length n o with
  | zero =>
    obtain rfl : length = 0 := by omega
    cases h
    exact hp
  | succ passes ih =>
    rw [Delta.emitLiteralLoop] at h
    split_ifs at h with h0
    · cases h
      exact h0 ▸ hp
    · have hk : 0 < kMaxWindow := by decide
      dsimp only at h
      split at h
      · cases h
      next emitted he =>
      have hrest := ih (by omega) (by omega) (ha.literal hp (by omega) (by omega) he) h
      rwa [show n + min length kMaxWindow + (length - min length kMaxWindow) = n +
        length by omega] at hrest

/-- **A literal sends its range.** -/
theorem emitLiteral {length : ℕ} (hp : P o n) (hend : n + length ≤ src.size)
    (h : Delta.emitLiteral sink n length o = .ok o') : P o' (n + length) :=
  ha.emitLiteralLoop (le_refl _) hend hp h

/-- The literal ahead of a match, which may be empty. -/
theorem emitGap {offset : ℕ} (hp : P o n) (hn : n ≤ offset)
    (hend : offset ≤ src.size) (h : Delta.emitGap sink n offset o = .ok o') : P o' offset := by
  rw [Delta.emitGap] at h
  split_ifs at h with hlt
  · have hsent := ha.emitLiteral hp (by omega) h
    rwa [Nat.add_sub_cancel' hn] at hsent
  · cases h
    obtain rfl : n = offset := by omega
    exact hp

/-- **A copy sends the bytes of its block.** -/
theorem emitCopy {index : ℕ} {bytes : List UInt8} (hp : P o n)
    (hv : Verified strong sig src source n index bytes) (hend : n + bytes.length ≤ src.size)
    (h : Delta.emitCopy sink (index : ℤ) n bytes o = .ok o') : P o' (n + bytes.length) := by
  rw [Delta.emitCopy, Int.toNat_natCast] at h
  split at h
  · cases h
  next emitted he =>
  cases h
  exact ha.copy hp hv hend he

end

end Account

end Account

/-! ## The scan -/

section Scan

variable {strong : List UInt8 → Digest} {sig : Signature} {maxChainLen : ℕ} {src : FileReader}
  {sink : List Instruction → Instruction → Bool} {source basis : List UInt8}
  {P : Outgoing → ℕ → Prop}

/-- What holds at the head of the `while` loop. -/
structure ScanInv (sig : Signature) (src : FileReader) (source : List UInt8)
    (P : Outgoing → ℕ → Prop) (c : Scan) : Prop where
  sent : P c.out c.lastMatch
  lastMatch_le : c.lastMatch ≤ c.offset
  le_size : c.lastMatch ≤ src.size
  covers : src.Holds source → Covers source c.win
  weak_eq : src.Holds source → c.stale = false →
    c.weak = weakChecksum (slice source c.offset sig.blockLength)

/-- Rolling the sum over the source. -/
theorem rollWeak_slice {block : ℕ} {leaves enters : UInt8} (hb : 0 < block)
    (hsmall : block < 2 ^ 31) (hl : source[off]? = some leaves)
    (he : source[off + block]? = some enters) :
    rollWeak (weakChecksum (slice source off block)) leaves enters (UInt32.ofNat block) =
      weakChecksum (slice source (off + 1) block) := by
  obtain ⟨n, rfl⟩ : ∃ n, block = n + 1 := ⟨block - 1, by omega⟩
  obtain ⟨hoff, hleaves⟩ := List.getElem?_eq_some_iff.mp hl
  obtain ⟨hend, henters⟩ := List.getElem?_eq_some_iff.mp he
  have hn : (slice source (off + 1) n).length = n := by
    rw [length_slice]
    omega
  -- both windows share their middle: one byte leaves ahead of it, one enters behind it
  have hout : slice source off (n + 1) = leaves :: slice source (off + 1) n := by
    rw [slice_cons_of_lt hoff, hleaves]
  have hin : slice source (off + 1) (n + 1) = slice source (off + 1) n ++ [enters] := by
    have hlast : slice source (off + 1 + n) 1 = [enters] := by
      have hidx : off + 1 + n = off + (n + 1) := by omega
      rw [hidx, slice_cons_of_lt hend, henters, slice_zero_length]
    rw [← slice_append_slice, hlast]
  have hroll := rollWeak_weakChecksum leaves (slice source (off + 1) n) enters (by omega)
  rw [hn] at hroll
  rw [hout, hin, hroll]

variable {c c' : Scan}

section

variable (ha : Account strong sig src source sink P)
include ha

theorem scanMatched_inv {win : SourceWindow} {i : ℤ}
    (hc : ScanInv sig src source P c) (hwin : src.Holds source → Covers source win)
    (hend : c.offset + sig.blockLength ≤ src.size) (hb : 0 < sig.blockLength) (hi : 0 ≤ i)
    (hlen : blockLengthAt sig i.toNat = sig.blockLength)
    (htrusted : src.Holds source → slice win.window (c.offset - win.base) sig.blockLength =
        slice source c.offset sig.blockLength ∧
      SumsAgree strong sig (weakChecksum (slice source c.offset sig.blockLength))
        (slice source c.offset sig.blockLength) i.toNat)
        (hl : rep.literalBytes = c.out.rep.literalBytes)
    (hm : rep.matchedBytes = c.out.rep.matchedBytes)
    (h : scanMatched sig sink c win i rep = .ok c') : ScanInv sig src source P c' := by
  rw [scanMatched] at h
  split at h
  · cases h
  next o hgap =>
  have hs := ha.emitGap (ha.congr_rep hc.sent hl hm) hc.lastMatch_le (by omega) hgap
  simp only [hlen] at h
  split at h
  · cases h
  next bytes hspan =>
  obtain ⟨hfits, hbytes⟩ := span_eq_ok hspan
  have hblen : bytes.length = sig.blockLength := by
    rw [hbytes, length_slice]
    omega
  split at h
  · cases h
  next o' hcopy =>
  cases h
  rw [← Int.toNat_of_nonneg hi] at hcopy
  have hv : Verified strong sig src source c.offset i.toNat bytes := by
    refine ⟨by omega, hlen.trans hblen.symm, fun hsrc => ?_⟩
    obtain ⟨hslice, hagree⟩ := htrusted hsrc
    rw [hblen, hbytes, hslice]
    exact ⟨rfl, hagree⟩
  have hsent := ha.emitCopy hs hv (by omega) hcopy
  rw [hblen] at hsent
  exact ⟨hsent, le_refl _, hend, hwin, nofun⟩

theorem scanMissed_inv {win : SourceWindow} {rep : Report}
    (hc : ScanInv sig src source P c) (hwin : src.Holds source → Covers source win ∧
      win.base ≤ c.offset) (hb : 0 < sig.blockLength)
      (hweak : src.Holds source → weak = weakChecksum (slice source c.offset sig.blockLength))
    (hl : rep.literalBytes = c.out.rep.literalBytes)
    (hm : rep.matchedBytes = c.out.rep.matchedBytes)
    (h : scanMissed sig src src.size c win weak rep = .ok (some c')) :
    ScanInv sig src source P c' := by
  have hsent := ha.congr_rep hc.sent hl hm
  rw [scanMissed] at h
  simp only at h
  split_ifs at h with hlast hpast
  · cases h
  · split at h
    · cases h
    next win' hf =>
    cases h
    refine ⟨hsent, hc.lastMatch_le, hc.le_size, fun hsrc => ?_, nofun⟩
    exact (fillWindow_covers hsrc (hwin hsrc).1 (hsrc.size_eq ▸ hf)).1
  · split at h
    · next leaves enters hleaves henters =>
      cases h
      refine ⟨hsent, hc.lastMatch_le.trans (Nat.le_succ _), hc.le_size, fun hsrc => (hwin hsrc).1,
        fun hsrc _ => ?_⟩
      obtain ⟨hcovers, hbase⟩ := hwin hsrc
      have hsize := hcovers.size_le
      have hlen := hcovers.len_le
      have hk : kMaxWindow < 2 ^ 31 := by decide
      -- both bytes are read from the part of the window that holds the source
      have hread : ∀ j, c.offset - win.base + j < win.len →
          win.window[c.offset - win.base + j]? = source[c.offset + j]? := by
        intro j hj
        have h₁ := @getElem?_slice _ win.window 0 win.len (c.offset - win.base + j) hj
        have h₂ := @getElem?_slice _ source win.base win.len (c.offset - win.base + j) hj
        rw [Nat.zero_add] at h₁
        rw [← h₁, hcovers.slice_eq, h₂]
        congr 1
        omega
      have h₀ := hread 0 (by omega)
      have h₁ := hread sig.blockLength (by omega)
      rw [Nat.add_zero, hleaves] at h₀
      rw [henters] at h₁
      rw [hweak hsrc]
      exact rollWeak_slice hb (by omega) h₀.symm h₁.symm
    · cases h

/-- **One pass of the scan.** -/
theorem scanStep_inv (hb : 0 < sig.blockLength) {r : Scan ⊕ Scan}
    (hc : ScanInv sig src source P c) (hend : c.offset + sig.blockLength ≤ src.size)
    (h : scanStep strong sig maxChainLen src sink ht src.size c = .ok r) :
    ScanInv sig src source P (r.elim id id) := by
  rw [scanStep] at h
  split at h
  · cases h
  next win hens =>
  split at h
  · cases h
  next view hspan =>
  obtain ⟨hfits, hview⟩ := span_eq_ok hspan
  have hvlen : view.length = sig.blockLength := by
    rw [hview, length_slice]
    omega
  have hwin : src.Holds source → Covers source win ∧ win.base ≤ c.offset ∧
      view = slice source c.offset sig.blockLength := by
    intro hsrc
    rw [hsrc.size_eq] at hens hend
    obtain ⟨hcovers, hbase, hreach⟩ := ensureWindow_covers hsrc (hc.covers hsrc) hend hens
    exact ⟨hcovers, hbase, hview.trans (hcovers.slice hbase (hreach hfits))⟩
  dsimp only at h
  generalize hweak : (if c.stale then weakChecksum view else c.weak) = weak at h
  -- rolled or computed, the sum is the one of the window
  have hsum : src.Holds source → weak = weakChecksum (slice source c.offset sig.blockLength) := by
    intro hsrc
    rw [← hweak]
    cases hst : c.stale with
    | true => rw [if_pos rfl, (hwin hsrc).2.2]
    | false => rw [if_neg (by simp), hc.weak_eq hsrc hst]
  split at h
  · cases h
  next i rep hlook =>
  obtain ⟨hagree, hl, hm⟩ := lookup_sound hlook
  split_ifs at h with hneg
  · split at h
    · cases h
    · cases h
      exact { hc with sent := ha.congr_rep hc.sent hl hm, covers := fun hsrc => (hwin hsrc).1 }
    · next c' hmiss =>
      cases h
      exact scanMissed_inv ha hc (fun hsrc => ⟨(hwin hsrc).1, (hwin hsrc).2.1⟩) hb hsum hl hm hmiss
  · split at h
    · cases h
    next c' hmatch =>
    cases h
    have hi : 0 ≤ i := by omega
    refine scanMatched_inv ha hc (fun hsrc => (hwin hsrc).1) hend hb hi
      ((hagree hi).length_eq.trans hvlen) (fun hsrc => ?_) hl hm hmatch
    have hthis := hagree hi
    rw [hsum hsrc, (hwin hsrc).2.2] at hthis
    exact ⟨hview ▸ (hwin hsrc).2.2, hthis⟩

/-- **The whole scan**, by induction on the passes it is followed for. -/
theorem scanLoop_inv (hb : 0 < sig.blockLength) {fuel : ℕ}
    (hc : ScanInv sig src source P c)
    (h : scanLoop strong sig maxChainLen src sink ht src.size fuel c = .ok c') :
    ScanInv sig src source P c' := by
  induction fuel generalizing c with
  | zero => cases h
  | succ fuel ih =>
    rw [scanLoop] at h
    split_ifs at h with hend
    · split at h
      · cases h
      · next c₁ hstep =>
        cases h
        exact scanStep_inv ha hb hc hend hstep
      · next c₁ hstep => exact ih (scanStep_inv ha hb hc hend hstep) h
    · cases h
      exact hc

/-! ## After the scan -/

/-- The short final block is copied where the source ends with it, or nothing is done. -/
theorem matchFinalBlock_account {calls : ℕ} {o' : Outgoing} {matched : Bool}
    (hs : P o n) (h : matchFinalBlock strong sig src sink src.size n calls o = .ok (matched, o')) :
    P o' (if matched then src.size else n) := by
  rw [matchFinalBlock] at h
  simp only at h
  -- every way out that reports no match leaves what was sent as it was
  have hnone : ∀ {m} {q}, (.ok (false, o) : Except Fault (Bool × Outgoing)) =
      .ok (m, q) → P q (if m then src.size else n) := by
    intro m q hq
    obtain ⟨rfl, rfl⟩ := Prod.mk.inj (Except.ok.inj hq)
    exact hs
  generalize (sig.sums.length - 1) % 0x100000000 = lastIdx at h
  split_ifs at h with hshort hfrom
  · exact hnone h
  · exact hnone h
  split at h
  · cases h
  next view _ hread =>
  split_ifs at h with hlen
  · exact hnone h
  have hvlen : view.length = blockLengthAt sig lastIdx := not_not.mp hlen
  split at h
  · cases h
  next s hsum =>
  split_ifs at h with hweak
  · exact hnone h
  split at h
  · cases h
  · exact hnone h
  next hstrong =>
  split at h
  · cases h
  next o₁ hgap =>
  split at h
  · cases h
  next o₂ hcopy =>
  obtain ⟨rfl, rfl⟩ := Prod.mk.inj (Except.ok.inj h)
  have hv : Verified strong sig src source (src.size - blockLengthAt sig lastIdx) lastIdx view :=
    ⟨by omega, hvlen.symm, fun hsrc => ⟨hvlen.symm ▸ FileReader.read_eq_slice hsrc hread,
      hvlen.symm, s, hsum, (not_not.mp hweak).symm, strongMatches_eq_true hstrong⟩⟩
  have hdone := ha.emitCopy (ha.emitGap hs (by omega) (by omega) hgap) hv (by omega) hcopy
  rw [if_pos rfl]
  rwa [hvlen, Nat.sub_add_cancel (by omega)] at hdone

theorem finish_account (hc : ScanInv sig src source P c)
    (h : finish strong sig src sink src.size c = .ok o) : P o src.size := by
  have hle := hc.le_size
  rw [finish] at h
  split_ifs at h with hlt
  · split at h
    · cases h
    · next o₁ hfin =>
      cases h
      exact matchFinalBlock_account ha hc.sent hfin
    · next o₁ hfin =>
      have hs : P o₁ c.lastMatch := matchFinalBlock_account ha hc.sent hfin
      have hdone := ha.emitLiteral hs (by omega) h
      rwa [Nat.add_sub_cancel' hle] at hdone
  · cases h
    have heq : c.lastMatch = src.size := by omega
    rw [← heq]
    exact hc.sent

/-- **A completed diff has kept every account up to the end of the source.** -/
theorem diff_account {fuel : ℕ} (hzero : P ⟨0, rep, []⟩ 0)
    (h : diff strong sig maxChainLen src sink rep fuel = .ok o) : P o src.size := by
  rw [diff] at h
  simp only at h
  split_ifs at h with hfast
  · have hdone := ha.emitLiteral hzero (by omega) h
    rwa [Nat.zero_add] at hdone
  · split at h
    · cases h
    next win hfill =>
    split at h
    · cases h
    next c hscan =>
    refine finish_account ha (scanLoop_inv ha (by omega) ?_ hscan) h
    refine ⟨hzero, le_refl _, Nat.zero_le _, fun hsrc => ?_, nofun⟩
    rw [hsrc.size_eq] at hfill
    exact (fillWindow_covers hsrc (Covers.empty source _) hfill).1

end

end Scan

/-! ## What the receiver makes of it -/

section Sent

variable (sig : Signature) (source basis : List UInt8) (counted : ℕ)

/-- The first `n` bytes of the source are on their way; `counted` is what the report held
before. -/
structure Sent (o : Outgoing) (n : ℕ) : Prop where
  cursor_eq : o.dstCursor = n
  le_length : n ≤ source.length
  tiles : Tiles 0 o.emitted n
  replay_eq : replay sig source basis o.emitted = some (source.take n)
  report_eq : o.rep.literalBytes + o.rep.matchedBytes = counted + n

variable {sig source basis counted} {sink : List Instruction → Instruction → Bool}

theorem emit_eq_ok {emitted : List Instruction} (h : emit sink o ins = .ok emitted) :
    emitted = o.emitted ++ [ins] := by
  rw [emit] at h
  split_ifs at h
  exact (Except.ok.inj h).symm

/-- Bytes of the source put where the destination ends extend the copy of the source. -/
theorem pwrite_take_slice {m : ℕ} (h : n ≤ source.length) :
    pwrite (source.take n) n (slice source n m) = source.take (n + m) := by
  have hlen : (source.take n).length = n := by
    rw [length_take]
    omega
  have hput := pwrite_length (source.take n) (slice source n m)
  rw [hlen] at hput
  rw [hput, take_append_slice]

/-- An instruction that puts the source's next `m` bytes at the cursor moves it by `m`. -/
theorem Sent.step {o' : Outgoing} {m : ℕ} (h : Sent sig source basis counted o n) (hm : 0 < m)
    (hle : n + m ≤ source.length) (hemit : o'.emitted = o.emitted ++ [ins])
    (hdst : ins.dstOffset = n) (hlen : ins.length = m)
    (happly : applyInstruction sig source basis (source.take n) ins =
      some (pwrite (source.take n) n (slice source n m))) (hcur : o'.dstCursor = o.dstCursor + m)
      (hrep : o'.rep.literalBytes + o'.rep.matchedBytes = o.rep.literalBytes + o.rep.matchedBytes +
      m) :
    Sent sig source basis counted o' (n + m) where
  cursor_eq := by rw [hcur, h.cursor_eq]
  le_length := hle
  tiles := by
    rw [hemit, ← hlen]
    exact h.tiles.append_singleton hdst (by omega)
  replay_eq := by
    rw [hemit, replay_append_singleton h.replay_eq, happly, pwrite_take_slice h.le_length]
  report_eq := by rw [hrep, h.report_eq, Nat.add_assoc]

/-- What the differ is given: a signature of the basis, and a source that stays as it is. -/
structure Inputs (strong : List UInt8 → Digest) (sig : Signature) (src : FileReader)
    (source basis : List UInt8) : Prop where
  holds : src.Holds source
  signatureOf : SignatureOf strong basis sig
  basis_lt : basis.length < 2 ^ 64
  noCollision : NoCollision strong sig source basis

/-- A literal is the source's next bytes, and so is a copy, since no other block has its sums. -/
theorem sent_account {strong : List UInt8 → Digest} {src : FileReader}
    (hin : Inputs strong sig src source basis) :
    Account strong sig src source sink (Sent sig source basis counted) where
  congr_rep h hl hm :=
    ⟨h.cursor_eq, h.le_length, h.tiles, h.replay_eq, by rw [hl, hm]; exact h.report_eq⟩
  literal hs hm hend he := by
    rw [hin.holds.size_eq] at hend
    refine hs.step hm hend (emit_eq_ok he) hs.cursor_eq rfl ?_ rfl ?_
    · rw [applyInstruction, hs.cursor_eq]
    · exact Nat.add_right_comm _ _ _
  copy := by
    intro o n index bytes emitted hs hv hend he
    obtain ⟨hbytes, hagree⟩ := hv.trusted hin.holds
    have hpos := hv.pos
    have hb : 0 < sig.blockLength := by
      refine Nat.pos_of_ne_zero fun hzero => ?_
      rw [← hv.length_eq, blockLengthAt, if_pos (Or.inl hzero)] at hpos
      exact Nat.lt_irrefl 0 hpos
    rw [hin.holds.size_eq] at hend
    rw [hbytes] at hagree
    have hblock := hagree.blockAt_eq hin.noCollision hin.signatureOf hin.basis_lt hb hend
    refine hs.step hpos hend (emit_eq_ok he) hs.cursor_eq rfl ?_ rfl ?_
    · rw [blockAt, hv.length_eq, ← hbytes] at hblock
      rw [applyInstruction, applyCopy, hv.length_eq, if_neg (by omega), hblock, if_neg (by simp),
        hs.cursor_eq, ← hbytes]
    · exact (Nat.add_assoc _ _ _).symm

end Sent

/-! ## The transfer -/

/-- **Delta transfer rebuilds the source.**  Whatever the block length, the strong length,
the bound on chains and the sink's answers: when `diff` completes on a signature that
`buildSignature` made of the basis, its instructions tile the source's length, they replay
to the source, and the report counts every byte once. -/
theorem diff_reconstructs_source (strong : List UInt8 → Digest) {basis source : List UInt8}
    {basisReader src : FileReader} (hbasis : basisReader.Holds basis) (hsrc : src.Holds source)
    (hlt : basis.length < 2 ^ 64) {blockLength strongLength : ℕ} {sig : Signature}
    (hsig : buildSignature strong basisReader blockLength strongLength = .ok sig)
    (hcol : NoCollision strong sig source basis) {maxChainLen fuel : ℕ}
    {sink : List Instruction → Instruction → Bool} {o : Outgoing}
    (h : diff strong sig maxChainLen src sink {} fuel = .ok o) :
    Tiles 0 o.emitted source.length ∧ replay sig source basis o.emitted = some source ∧
      o.rep.literalBytes + o.rep.matchedBytes = source.length := by
  have hin : Inputs strong sig src source basis :=
    ⟨hsrc, (signatureOf_buildSignature hbasis hsig).1, hlt, hcol⟩
  have hs : Sent sig source basis 0 o src.size :=
    diff_account (sent_account hin) ⟨rfl, Nat.zero_le _, rfl, rfl, rfl⟩ h
  rw [hsrc.size_eq] at hs
  refine ⟨hs.tiles, ?_, ?_⟩
  · rw [hs.replay_eq, take_length]
  · exact hs.report_eq.trans (Nat.zero_add _)

/-- A checksum that keeps the bytes of a block of up to sixteen of them. -/
def zeroPadded (bytes : List UInt8) : Digest := Vector.ofFn fun i => bytes.getD i 0

/-- What `buildSignature` makes of `1 2 3 4 5` with blocks of two bytes. -/
def fiveByteSignature : Signature :=
  ⟨2, 16, 5, [blockSum zeroPadded [1, 2], blockSum zeroPadded [3, 4], blockSum zeroPadded [5]]⟩

/-- What `diff` sends of `9 3 4 5` against it: a literal, a copy that the scan found and
the short final block. -/
def fourByteDelta : Outgoing :=
  ⟨4, ⟨1, 3, 1, 0⟩, [⟨.literal, 0, 0, 0, 1, []⟩, ⟨.copy, 1, 1, 1, 2, [3, 4]⟩,
    ⟨.copy, 2, 3, 3, 1, [5]⟩]⟩

theorem diff_reconstructs_source_nine_three_four_five :
    diff zeroPadded fiveByteSignature 32 (.ofBytes [9, 3, 4, 5]) (fun _ _ => true) {} 8 =
        .ok fourByteDelta ∧
      Tiles 0 fourByteDelta.emitted 4 ∧
      replay fiveByteSignature [9, 3, 4, 5] [1, 2, 3, 4, 5] fourByteDelta.emitted =
        some [9, 3, 4, 5] ∧
      fourByteDelta.rep.literalBytes + fourByteDelta.rep.matchedBytes = 4 := by
  have hdiff : diff zeroPadded fiveByteSignature 32 (.ofBytes [9, 3, 4, 5]) (fun _ _ => true) {} 8 =
      .ok fourByteDelta := by decide +kernel
  have hsig : buildSignature zeroPadded (.ofBytes [1, 2, 3, 4, 5]) 2 16 =
      .ok fiveByteSignature := by decide +kernel
  have hcol : ∀ off < 5, ∀ len < 5, ∀ i < 3,
      weakChecksum (slice [9, 3, 4, 5] off len) =
        weakChecksum (blockAt fiveByteSignature [1, 2, 3, 4, 5] i) →
      (slice [9, 3, 4, 5] off len : List UInt8) =
        blockAt fiveByteSignature [1, 2, 3, 4, 5] i := by decide +kernel
  refine ⟨hdiff, diff_reconstructs_source zeroPadded (FileReader.ofBytes_holds [1, 2, 3, 4, 5])
    (FileReader.ofBytes_holds [9, 3, 4, 5]) (by decide) hsig (fun off len i hend hi _ hw _ => ?_)
    hdiff⟩
  have hend' : off + len ≤ 4 := hend
  exact hcol off (by omega) len (by omega) i hi hw

end Rail.Delta
