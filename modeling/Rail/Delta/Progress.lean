import Rail.Delta.Sizing

/-!
# Does the differ come to an end?

A pass of the scan that does not find a block either moves on by a byte or, where the byte that
enters lies past the window, reads the window again at the same offset and goes round.  That is
progress only if the new window is longer than a block: then the next pass finds the block or moves
on, so two passes are made for each offset at most (`rank`).  A pass that gets no more than a block
is made in vain (`VainPass`), and nothing but such passes can keep the differ from its end
(`diff_finishes_iff`).

There are none when there is nothing to roll over, and none when the source is not read short and a
block is shorter than the window can be.  But the block length that `chooseBlockLength` gives a
source of sixteen terabytes is the whole window, and a source that was cut after it was opened is
read short for ever.
-/

namespace Rail.Delta

open List ByteFile

/-! ## Faults that are not the model's -/

/-- The code has been followed to its end. -/
def Ended {α : Type} : Except Fault α → Prop
  | .ok _ => True
  | .error e => e ≠ .unfinished

theorem readLoop_ended (r : FileReader) (passes k left off : ℕ) :
    Ended (r.readLoop passes k left off) := by
  fun_induction FileReader.readLoop with grind [Ended]

theorem fillWindow_ended (src : FileReader) (n : ℕ) (w : SourceWindow) (off : ℕ) :
    Ended (fillWindow src n w off) := by
  have hread := readLoop_ended src
  grind [Ended, fillWindow, FileReader.read]

section Emit

variable (sink : List Instruction → Instruction → Bool)

theorem emitLiteralLoop_ended (passes offset length : ℕ) (o : Outgoing) :
    Ended (emitLiteralLoop sink passes offset length o) := by
  fun_induction emitLiteralLoop with grind [Ended, emit]

theorem emitGap_ended (lastMatch offset : ℕ) (o : Outgoing) :
    Ended (emitGap sink lastMatch offset o) := by
  have hliteral := emitLiteralLoop_ended sink
  grind [Ended, emitGap, emitLiteral]

theorem emitCopy_ended (i : ℤ) (off : ℕ) (bytes : List UInt8) (o : Outgoing) :
    Ended (emitCopy sink i off bytes o) := by
  grind [Ended, emitCopy, emit]

end Emit

section Scan

variable {strong : List UInt8 → Digest} {sig : Signature} {maxChainLen : ℕ} {src : FileReader}
  {sink : List Instruction → Instruction → Bool} {ht : HashTable} {n : ℕ}

theorem lookup_ended (wantI : ℤ) (weak : UInt32) (win : List UInt8) (rep : Report) :
    Ended (lookup strong sig maxChainLen ht wantI weak win rep) := by
  have hchain : ∀ budget i best alarms,
      Ended (lookupChain strong sig ht wantI weak win budget i best alarms) := by
    intro budget i best alarms
    fun_induction lookupChain with grind [Ended, strongMatches]
  grind [Ended, lookup]

theorem scanStep_ended (c : Scan) : Ended (scanStep strong sig maxChainLen src sink ht n c) := by
  have hfill := fillWindow_ended src n
  have hlook : ∀ weak win rep, Ended (lookup strong sig maxChainLen ht c.wantI weak win rep) :=
    lookup_ended c.wantI
  have hgap := emitGap_ended sink c.lastMatch c.offset
  have hcopy := emitCopy_ended sink
  have hensure : Ended (ensureWindow src sig.blockLength n c.win c.offset) := by
    grind [Ended, ensureWindow]
  have hmissed : ∀ win weak rep, Ended (scanMissed sig src n c win weak rep) := by
    grind [Ended, scanMissed]
  have hmatched : ∀ win i rep, Ended (scanMatched sig sink c win i rep) := by
    grind [Ended, scanMatched, span]
  rw [scanStep]
  dsimp only
  generalize (fun view => if c.stale then weakChecksum view else c.weak) = weakOf
  repeat' split
  all_goals grind [Ended, span]

theorem finish_ended (c : Scan) : Ended (finish strong sig src sink n c) := by
  have hread := readLoop_ended src
  have hgap := emitGap_ended sink c.lastMatch
  have hcopy := emitCopy_ended sink
  have hliteral := emitLiteralLoop_ended sink
  have hfinal : Ended (matchFinalBlock strong sig src sink n c.lastMatch c.win.calls c.out) := by
    rw [matchFinalBlock]
    generalize (sig.sums.length - 1) % 0x100000000 = lastIdx
    dsimp only
    split_ifs
    · trivial
    · trivial
    split
    · grind [Ended, FileReader.read]
    next view calls hview =>
    generalize weakChecksum view = weak
    split_ifs
    · trivial
    split
    · exact Fault.noConfusion
    split_ifs
    · trivial
    split
    · grind [Ended, strongMatches]
    · trivial
    split
    · grind [Ended]
    split
    · grind [Ended]
    · trivial
  grind [Ended, finish, emitLiteral]

/-! ## A pass makes progress -/

/-- The passes that are still to come, at most: two for each offset, one where the window has just
been read there. -/
def rank (b n : ℕ) (c : Scan) : ℕ := 2 * (n - c.offset) + if c.win.base = c.offset ∧
  b < c.win.len then 0 else 1

theorem rank_le (b n : ℕ) (c : Scan) : rank b n c ≤ 2 * (n - c.offset) + 1 := by
  rw [rank]
  split <;> omega

variable {size : ℕ} {c c' : Scan}

/-- What a pass without a match can do and go round: read the window again, or move on. -/
theorem scanMissed_some {win : SourceWindow} {weak : UInt32} {rep : Report}
    (h : scanMissed sig src n c win weak rep = .ok (some c')) : c.offset + sig.blockLength < n ∧
      (win.len ≤ c.offset - win.base + sig.blockLength ∧ fillWindow src n win c.offset =
      .ok c'.win ∧ c'.offset = c.offset ∨ c'.win = win ∧ c'.offset = c.offset + 1) := by
  rw [scanMissed] at h
  dsimp only at h
  split_ifs at h with hlast hshort
  · cases h
  · split at h
    · cases h
    next win' hfill =>
    cases h
    exact ⟨Nat.lt_of_not_le hlast, .inl ⟨hshort, hfill, rfl⟩⟩
  · split at h
    · cases h
      exact ⟨Nat.lt_of_not_le hlast, .inr ⟨rfl, rfl⟩⟩
    · cases h

theorem scanMatched_ok {win : SourceWindow} {i : ℤ} {rep : Report}
    (h : scanMatched sig sink c win i rep = .ok c') :
    c'.win = win ∧ c'.offset = c.offset + blockLengthAt sig i.toNat := by
  rw [scanMatched] at h
  split at h
  · cases h
  dsimp only at h
  split at h
  · cases h
  split at h
  · cases h
  cases h
  exact ⟨rfl, rfl⟩

/-- The pass has read the window again where it stood, and there is no more than a block in it. -/
def InVain (b : ℕ) (c c' : Scan) : Prop := c'.offset = c.offset ∧ c'.win.len ≤ b

/-- **Every pass that goes round has brought the end nearer**, unless it was made in vain; and it is
not if the window it has read is longer than a block. -/
theorem scanStep_rank (hb : 0 < sig.blockLength) (hw : Held size c.win)
    (hend : c.offset + sig.blockLength ≤ n)
    (h : scanStep strong sig maxChainLen src sink ht n c = .ok (.inr c')) :
    Held size c'.win ∧ (¬ InVain sig.blockLength c c' →
      rank sig.blockLength n c' < rank sig.blockLength n c) ∧
      ((∀ w w', c.offset + sig.blockLength < n → Held size w → fillWindow src n w c.offset =
      .ok w' → sig.blockLength < w'.len) → ¬ InVain sig.blockLength c c') := by
  have hheld : ∀ {w w' off}, Held size w → fillWindow src n w off = .ok w' → Held size w' ∧
      w'.base = off := by
    intro w w' off hw hf
    have hin : Within _ (fillWindow src n w off) := fillWindow_within hw
    rwa [hf] at hin
  have hfar : ∀ {c'}, c.offset < c'.offset →
      rank sig.blockLength n c' < rank sig.blockLength n c := by
    intro c' hlt
    refine (rank_le _ _ _).trans_lt ?_
    rw [rank]
    omega
  rw [scanStep] at h
  split at h
  · cases h
  next win hensure =>
  -- a window that was just read here is not read again
  have hwin : Held size win ∧ (c.win.base = c.offset ∧ sig.blockLength < c.win.len →
      win = c.win) := by
    rw [ensureWindow, Nat.min_eq_left hend] at hensure
    split_ifs at hensure with hin
    · cases hensure
      exact ⟨hw, fun _ => rfl⟩
    · exact ⟨(hheld hw hensure).1, fun hfresh => absurd ⟨hfresh.1.le, by omega⟩ hin⟩
  split at h
  · cases h
  next view hspan =>
  obtain ⟨hfits, hview⟩ := span_eq_ok hspan
  dsimp only at h
  generalize (if c.stale then weakChecksum view else c.weak) = weak at h
  split at h
  · cases h
  next i rep hlook =>
  split_ifs at h with hneg
  · split at h
    · cases h
    · cases h
    next c'' hmissed =>
    cases h
    obtain ⟨hleft, ⟨hshort, hfill, hoff⟩ | ⟨hsame, hoff⟩⟩ := scanMissed_some hmissed
    · have hnew := hheld hwin.1 hfill
      refine ⟨hnew.1, fun hgain => ?_, fun hroomy hvain => ?_⟩
      · have hlen : sig.blockLength < c'.win.len := Nat.lt_of_not_le fun hle => hgain ⟨hoff, hle⟩
        rw [rank, rank, if_pos ⟨hnew.2.trans hoff.symm, hlen⟩, if_neg fun hfresh => ?_, hoff]
        · exact Nat.lt_succ_self _
        · rw [hwin.2 hfresh] at hshort
          omega
      · exact absurd hvain.2 (Nat.not_le_of_lt (hroomy win c'.win hleft hwin.1 hfill))
    · exact ⟨hsame ▸ hwin.1, fun _ => hfar (by omega), fun _ hvain => by have := hvain.1; omega⟩
  · split at h
    · cases h
    next c'' hmatched =>
    cases h
    obtain ⟨hsame, hoff⟩ := scanMatched_ok hmatched
    have hlen : blockLengthAt sig i.toNat = sig.blockLength := by
      rw [((lookup_sound hlook).1 (by omega)).length_eq, hview, length_slice]
      omega
    exact ⟨hsame ▸ hwin.1, fun _ => hfar (by omega), fun _ hvain => by have := hvain.1; omega⟩

/-! ## The passes of a scan -/

variable (strong sig maxChainLen src sink)

/-- The scan after `k` passes from `c` on, unless it has come to an end before. -/
def passes (ht : HashTable) (n : ℕ) : (k : ℕ) → Scan → Option Scan
  | 0, c => some c
  | k + 1, c =>
    if c.offset + sig.blockLength ≤ n then
      match scanStep strong sig maxChainLen src sink ht n c with
      | .ok (.inr c') => passes ht n k c'
      | _ => none
    else none

/-- The scan of `diff` after `k` passes, where it makes so many and goes round. -/
def scanAfter (rep : Report) (k : ℕ) : Option Scan :=
  if sig.sums.isEmpty ∨ sig.blockLength = 0 ∨ src.size < sig.blockLength then none
  else
    match fillWindow src src.size ⟨List.replicate (min kMaxWindow src.size) 0, 0, 0, 0⟩ 0 with
    | .error _ => none
    | .ok win =>
      passes strong sig maxChainLen src sink (buildHashTable sig) src.size k
        ⟨0, 0, 0, true, 0, win, ⟨0, rep, []⟩⟩

/-- Pass `k` goes round, and was made in vain. -/
def VainPass (rep : Report) (k : ℕ) : Prop :=
  ∃ c c', scanAfter strong sig maxChainLen src sink rep k = some c ∧
    scanAfter strong sig maxChainLen src sink rep (k + 1) = some c' ∧ InVain sig.blockLength c c'

variable {strong sig maxChainLen src sink}

/-- One more pass, of a scan that has not ended. -/
theorem passes_succ {k : ℕ} (h : passes strong sig maxChainLen src sink ht n (k + 1) c = some c') :
    ∃ d, passes strong sig maxChainLen src sink ht n k c = some d ∧
      d.offset + sig.blockLength ≤ n ∧
      scanStep strong sig maxChainLen src sink ht n d = .ok (.inr c') := by
  induction k generalizing c with
  | zero =>
    rw [passes] at h
    split_ifs at h with hend
    split at h
    · next c₁ hstep =>
      cases h
      exact ⟨c, rfl, hend, hstep⟩
    · cases h
  | succ k ih =>
    rw [passes] at h ⊢
    split_ifs at h ⊢ with hend
    split at h
    · exact ih h
    · cases h

theorem ended_scanLoop_iff (fuel : ℕ) (c : Scan) :
    Ended (scanLoop strong sig maxChainLen src sink ht n fuel c) ↔
      passes strong sig maxChainLen src sink ht n fuel c = none := by
  induction fuel generalizing c with
  | zero => exact iff_of_false (fun h => h rfl) (Option.some_ne_none c)
  | succ fuel ih =>
    have hstep : Ended (scanStep strong sig maxChainLen src sink ht n c) := scanStep_ended c
    rw [scanLoop, passes]
    split_ifs
    · cases heq : scanStep strong sig maxChainLen src sink ht n c with
      | error e =>
        rw [heq] at hstep
        exact iff_of_true hstep rfl
      | ok r =>
        cases r with
        | inl c' => exact iff_of_true trivial rfl
        | inr c' => exact ih c'
    · exact iff_of_true trivial rfl

/-- **The code has come to its end, with a result or with a failure of its own, when the scan makes
no further pass.** -/
theorem ended_diff_iff (rep : Report) (fuel : ℕ) :
    Ended (diff strong sig maxChainLen src sink rep fuel) ↔
      scanAfter strong sig maxChainLen src sink rep fuel = none := by
  rw [diff, scanAfter]
  split_ifs with hliteral
  · exact iff_of_true (emitLiteralLoop_ended _ _ _ _ _) rfl
  have hfill := fillWindow_ended src src.size ⟨List.replicate (min kMaxWindow src.size) 0,
    0, 0, 0⟩ 0
  dsimp only
  cases heq : fillWindow src src.size ⟨List.replicate (min kMaxWindow src.size) 0, 0, 0, 0⟩ 0 with
  | error e =>
    rw [heq] at hfill
    exact iff_of_true hfill rfl
  | ok win =>
    dsimp only
    rw [← ended_scanLoop_iff]
    split
    · next e hloop =>
      rw [hloop]
      exact Iff.rfl
    · next c hloop =>
      rw [hloop]
      exact iff_of_true (finish_ended c) trivial

section After

variable {rep : Report} {k : ℕ}

/-- What a pass of `diff` starts from, and what it does. -/
theorem scanAfter_succ (h : scanAfter strong sig maxChainLen src sink rep (k + 1) = some c') :
    0 < sig.blockLength ∧ ∃ c, scanAfter strong sig maxChainLen src sink rep k = some c ∧
      c.offset + sig.blockLength ≤ src.size ∧
      scanStep strong sig maxChainLen src sink (buildHashTable sig) src.size c = .ok (.inr c') := by
  rw [scanAfter] at h ⊢
  split_ifs at h ⊢ with hliteral
  split at h
  · cases h
  · exact ⟨by omega, passes_succ h⟩

theorem scanAfter_held (h : scanAfter strong sig maxChainLen src sink rep k = some c) :
    Held (min kMaxWindow src.size) c.win := by
  induction k generalizing c with
  | zero =>
    rw [scanAfter] at h
    split_ifs at h
    have hin : Within _ (fillWindow src src.size
        ⟨List.replicate (min kMaxWindow src.size) 0, 0, 0, 0⟩ 0) :=
      fillWindow_within ⟨length_replicate, Nat.zero_le _⟩
    split at h
    · cases h
    · next win hfill =>
      rw [hfill] at hin
      cases h
      exact hin.1
  | succ k ih =>
    obtain ⟨hb, c₀, hc₀, hend, hstep⟩ := scanAfter_succ h
    exact (scanStep_rank hb (ih hc₀) hend hstep).1

theorem scanAfter_none (h : scanAfter strong sig maxChainLen src sink rep k = none) (j : ℕ) :
    scanAfter strong sig maxChainLen src sink rep (k + j) = none := by
  induction j with
  | zero => exact h
  | succ j ih =>
    refine Option.eq_none_iff_forall_ne_some.mpr fun c hc => ?_
    obtain ⟨-, d, hd, -⟩ := scanAfter_succ hc
    cases ih.symm.trans hd

/-- From a pass on after which none is made in vain, the rank goes down to the end. -/
theorem rank_scanAfter (hgain : ∀ j ≥ k, ¬ VainPass strong sig maxChainLen src sink rep j)
    (hc : scanAfter strong sig maxChainLen src sink rep k = some c) (j : ℕ)
    (hc' : scanAfter strong sig maxChainLen src sink rep (k + j) = some c') :
    rank sig.blockLength src.size c' + j ≤ rank sig.blockLength src.size c := by
  induction j generalizing c' with
  | zero =>
    obtain rfl := Option.mem_unique hc hc'
    exact le_refl _
  | succ j ih =>
    obtain ⟨hb, d, hd, hend, hstep⟩ := scanAfter_succ hc'
    have hrank := (scanStep_rank hb (scanAfter_held hd) hend hstep).2.1 fun hvain =>
      hgain (k + j) (Nat.le_add_right _ _) ⟨d, c', hd, hc', hvain⟩
    have hle := ih hd
    omega

end After

end Scan

/-! ## Passes without end -/

/-- From some number of passes on, the code has come to its end. -/
def Finishes (strong : List UInt8 → Digest) (sig : Signature) (maxChainLen : ℕ) (src : FileReader)
    (sink : List Instruction → Instruction → Bool) (rep : Report) : Prop :=
  ∃ passes, ∀ fuel ≥ passes, Ended (diff strong sig maxChainLen src sink rep fuel)

/-- A file of zeros that is read in full, or one that turns out to be empty. -/
def zeroReader (n : ℕ) : (full : Bool) → FileReader
  | true => .ofBytes (List.replicate n 0)
  | false => ⟨n, fun _ _ _ => some []⟩

theorem size_zeroReader (n : ℕ) (full : Bool) : (zeroReader n full).size = n := by
  cases full with
  | true => exact length_replicate
  | false => rfl

/-- No read comes back short of what there is. -/
def FileReader.Full (src : FileReader) : Prop :=
  ∀ k want off got k', src.read k want off = .ok (got, k') → min want (src.size - off) ≤ got.length

theorem read_zeroReader (n : ℕ) (full : Bool) (k want off : ℕ) :
    ∃ k', (zeroReader n full).read k want off =
    .ok (List.replicate (if full then min want (n - off) else 0) 0, k') := by
  cases full with
  | true =>
    obtain ⟨⟨got, k'⟩, hread⟩ :=
      @readLoop_ok (.ofBytes (List.replicate n 0)) (fun _ _ _ => Option.some_ne_none _) want k
      want off
    have hgot := FileReader.read_eq_slice (FileReader.ofBytes_holds _) hread
    rw [slice, drop_replicate, take_replicate] at hgot
    exact ⟨k', hgot ▸ hread⟩
  | false => cases want <;> exact ⟨_, rfl⟩

theorem ofBytes_full (f : List UInt8) : (FileReader.ofBytes f).Full := by
  intro k want off got k' h
  rw [FileReader.read_eq_slice (FileReader.ofBytes_holds f) h, length_slice, size_ofBytes]

section Endless

variable (strong : List UInt8 → Digest) {b n : ℕ} {full : Bool}

/-- One sum, which is not that of a block of zeros. -/
def otherSignature (b : ℕ) : Signature :=
  ⟨b, 0, b, [⟨weakChecksum (List.replicate b 0) + 1, strong []⟩]⟩

theorem lookup_otherSignature (maxChainLen : ℕ) (wantI : ℤ) (rep : Report) :
    ∃ rep', lookup strong (otherSignature strong b) maxChainLen
      (buildHashTable (otherSignature strong b)) wantI (weakChecksum (List.replicate b 0))
      (List.replicate b 0) rep = .ok (-1, rep') := by
  refine lookup_uncompared (buildHashTable_below _) ?_ wantI rep
  rintro k - ⟨-, s, hs, hweak⟩
  have hother : ∀ w : UInt32, w + 1 ≠ w := by grind
  have hmem := List.mem_of_getElem? hs
  rw [otherSignature, mem_singleton] at hmem
  rw [hmem] at hweak
  exact hother _ hweak

/-- The scan stands at the start of the file, with nothing but zeros in the window and no more of
them than a block. -/
structure Stuck (b n : ℕ) (c : Scan) : Prop where
  offset_eq : c.offset = 0
  stale_eq : c.stale = true
  base_eq : c.win.base = 0
  window_eq : c.win.window = List.replicate (min kMaxWindow n) 0
  len_le : c.win.len ≤ b

theorem fillWindow_zeroReader (hfew : full = true → b = kMaxWindow) {w : SourceWindow}
    (hw : w.window = List.replicate (min kMaxWindow n) 0) :
    ∃ w', fillWindow (zeroReader n full) n w 0 = .ok w' ∧ w'.base = 0 ∧
      w'.window = List.replicate (min kMaxWindow n) 0 ∧ w'.len ≤ b := by
  obtain ⟨k', hread⟩ := read_zeroReader n full w.calls (min w.window.length (n - 0)) 0
  have hlen : w.window.length = min kMaxWindow n := by rw [hw, length_replicate]
  obtain ⟨m, hm⟩ : ∃ m, m = if full then min (min w.window.length (n - 0)) (n - 0) else 0 :=
    ⟨_, rfl⟩
  have hle : m ≤ min kMaxWindow n := by
    rw [hm, hlen]
    split <;> omega
  rw [← hm] at hread
  rw [fillWindow, hread]
  refine ⟨_, rfl, rfl, ?_, ?_⟩
  · show List.replicate m 0 ++ w.window.drop (List.replicate m 0).length = _
    rw [hw, length_replicate, drop_replicate, replicate_append_replicate, Nat.add_sub_cancel' hle]
  · show (List.replicate m (0 : UInt8)).length ≤ b
    rw [length_replicate]
    cases full with
    | false => exact hm ▸ Nat.zero_le b
    | true => exact hle.trans (hfew rfl ▸ Nat.min_le_left _ _)

/-- It reads the window again, and stands where it stood. -/
theorem Stuck.scanStep (hb : b ≤ kMaxWindow) (hn : b < n) (hfew : full = true → b = kMaxWindow)
    {c : Scan} (hc : Stuck b n c) (maxChainLen : ℕ) (sink : List Instruction → Instruction → Bool) :
    ∃ c', Delta.scanStep strong (otherSignature strong b) maxChainLen (zeroReader n full) sink
      (buildHashTable (otherSignature strong b)) n c = .ok (.inr c') ∧ Stuck b n c' := by
  have hensure : ∃ w, ensureWindow (zeroReader n full) b n c.win 0 = .ok w ∧ w.base = 0 ∧
      w.window = List.replicate (min kMaxWindow n) 0 ∧ w.len ≤ b := by
    rw [ensureWindow]
    split_ifs
    · exact ⟨c.win, rfl, hc.base_eq, hc.window_eq, hc.len_le⟩
    · exact fillWindow_zeroReader hfew hc.window_eq
  obtain ⟨w, hw, hbase, hwindow, hlen⟩ := hensure
  have hview : span w.window (0 - w.base) b = .ok (List.replicate b 0) := by
    have hfits : 0 + b ≤ min kMaxWindow n := by omega
    rw [span, hbase, Nat.sub_self, hwindow, length_replicate, if_pos hfits, slice, drop_zero,
      take_replicate, Nat.min_eq_left (by omega)]
  obtain ⟨rep', hlook⟩ := lookup_otherSignature (b := b) strong maxChainLen c.wantI c.out.rep
  obtain ⟨w', hw', hbase', hwindow', hlen'⟩ := fillWindow_zeroReader (n := n) hfew hwindow
  let again : Scan :=
    ⟨c.offset, c.lastMatch, weakChecksum (List.replicate b 0), true, c.wantI, w',
      { c.out with rep := rep' }⟩
  have hmissed : scanMissed (otherSignature strong b) (zeroReader n full) n c w
      (weakChecksum (List.replicate b 0)) rep' = .ok (some again) := by
    rw [scanMissed]
    simp only [hc.offset_eq, show (otherSignature strong b).blockLength = b from rfl]
    rw [if_neg (by omega), if_pos (by omega), hw']
    simp only [again, hc.offset_eq]
  refine ⟨again, ?_, hc.offset_eq, rfl, hbase', hwindow', hlen'⟩
  simp only [Delta.scanStep, show (otherSignature strong b).blockLength = b from rfl, hc.offset_eq,
    hw, hview, hc.stale_eq, if_true, hlook, show (-1 : ℤ) < 0 by decide, hmissed]

/-- **However many passes are made, there is another one.** -/
theorem diff_endless (hb : 0 < b) (hwindow : b ≤ kMaxWindow) (hn : b < n)
    (hfew : full = true → b = kMaxWindow) (maxChainLen : ℕ) (sink : List Instruction → Instruction →
      Bool) (rep : Report) (fuel : ℕ) :
    diff strong (otherSignature strong b) maxChainLen (zeroReader n full) sink rep fuel =
    .error .unfinished := by
  have hloop : ∀ fuel c, Stuck b n c → scanLoop strong (otherSignature strong b) maxChainLen
      (zeroReader n full) sink
        (buildHashTable (otherSignature strong b)) n fuel c = .error .unfinished := by
    intro fuel
    induction fuel with
    | zero => exact fun c _ => rfl
    | succ fuel ih =>
      intro c hc
      obtain ⟨c', hstep, hc'⟩ := hc.scanStep strong hwindow hn hfew maxChainLen sink
      have hmore : c.offset + (otherSignature strong b).blockLength ≤ n := by
        rw [hc.offset_eq, Nat.zero_add]
        exact hn.le
      rw [scanLoop, if_pos hmore, hstep]
      exact ih c' hc'
  have hscan : ¬ ((otherSignature strong b).sums.isEmpty ∨
      (otherSignature strong b).blockLength = 0 ∨
        n < (otherSignature strong b).blockLength) := by
    rintro (h | h | h)
    · cases h
    · exact Nat.ne_of_gt hb h
    · exact Nat.lt_asymm hn h
  obtain ⟨w, hfill, hbase, hzeros, hlen⟩ := fillWindow_zeroReader (n := n)
    (w := ⟨List.replicate (min kMaxWindow n) 0, 0, 0, 0⟩) hfew rfl
  rw [diff]
  simp only [size_zeroReader, if_neg hscan, hfill]
  rw [hloop fuel _ ⟨rfl, rfl, hbase, hzeros, hlen⟩]

theorem not_finishes (hb : 0 < b) (hwindow : b ≤ kMaxWindow) (hn : b < n)
    (hfew : full = true → b = kMaxWindow) (maxChainLen : ℕ) (sink : List Instruction → Instruction →
      Bool) (rep : Report) :
    ¬ Finishes strong (otherSignature strong b) maxChainLen (zeroReader n full) sink rep := by
  rintro ⟨passes, hends⟩
  have hend := hends passes (le_refl _)
  rw [diff_endless strong hb hwindow hn hfew] at hend
  exact hend rfl

end Endless

/-! ## When the differ finishes -/

section Finishes

variable {strong : List UInt8 → Digest} {sig : Signature} {maxChainLen : ℕ} {src : FileReader}
  {sink : List Instruction → Instruction → Bool} {rep : Report}

/-- The rank of the first pass after the last vain one bounds the passes that follow. -/
theorem finishes_of_gain {first : ℕ}
    (hgain : ∀ k ≥ first, ¬ VainPass strong sig maxChainLen src sink rep k) :
    Finishes strong sig maxChainLen src sink rep := by
  cases hc : scanAfter strong sig maxChainLen src sink rep first with
  | none =>
    refine ⟨first, fun fuel hfuel => (ended_diff_iff rep fuel).mpr ?_⟩
    rw [← Nat.add_sub_cancel' hfuel]
    exact scanAfter_none hc _
  | some c =>
    refine ⟨first + (rank sig.blockLength src.size c + 1), fun fuel hfuel =>
      (ended_diff_iff rep fuel).mpr (Option.eq_none_iff_forall_ne_some.mpr fun c' hc' => ?_)⟩
    rw [← Nat.add_sub_cancel' ((Nat.le_add_right _ _).trans hfuel)] at hc'
    have hrank := rank_scanAfter hgain hc _ hc'
    omega

theorem not_vainPass (hcases : sig.sums = [] ∨ sig.blockLength = 0 ∨ src.size ≤ sig.blockLength ∨
    sig.blockLength < kMaxWindow ∧ src.Full) (k : ℕ) :
    ¬ VainPass strong sig maxChainLen src sink rep k := by
  rintro ⟨c, c', hc, hc', hvain⟩
  obtain ⟨hb, d, hd, hend, hstep⟩ := scanAfter_succ hc'
  obtain rfl := Option.mem_unique hc hd
  refine (scanStep_rank hb (scanAfter_held hc) hend hstep).2.2 (fun w w' hleft hw hfill => ?_) hvain
  have hsums : sig.sums ≠ [] := by
    intro hnil
    rw [scanAfter, hnil] at hc
    simp at hc
  obtain ⟨hlt, hfull⟩ :=
    ((hcases.resolve_left hsums).resolve_left (by omega)).resolve_left (by omega)
  rw [fillWindow] at hfill
  split at hfill
  · cases hfill
  next got calls hread =>
  cases hfill
  have hgot := hfull _ _ _ _ _ hread
  have hsize := hw.size_eq
  show sig.blockLength < got.length
  omega

end Finishes

end Rail.Delta
