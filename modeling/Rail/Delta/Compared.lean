import Rail.Delta.Progress
import Rail.Delta.Unchanged

/-!
# Which signatures stay in bounds against which sources

`Rail.Delta.Bounds` has the lengths that are safe whatever the source is.  This module settles the
others, for one signature and one source at a time.

A source that is not scanned is not read at all.  A block that does not fit the window is read past
its end by the first pass.  A strong length of more than sixteen does no harm until two digests are
compared, and that depends on the weak sums: as long as no block of the chain has the sum of the
bytes at the offset, the scan passes over them (`Passing`), so it comes to the first block that is
compared or to the end of the source, where the short final block has a comparison of its own.
`Uncompared` says that there is no such place, and `diff_in_bounds_iff` puts the cases together.

A block as long as the window is a case of its own.  If the source is longer the scan never leaves
its first offset, so nothing is compared after it.
-/

namespace Rail.Delta

open List ByteFile

/-! ## Digests that are compared -/

/-- A lookup of these bytes comes to a block whose digest it compares. -/
def Looked (sig : Signature) (maxChainLen : ℕ) (win : List UInt8) : Prop :=
  ∃ k ∈ (buildHashTable sig).walked maxChainLen (weakChecksum win), Compares sig win k

/-- `matchFinalBlock` of a source without a match compares the digest of the final block. -/
def FinalCompared (sig : Signature) (f : List UInt8) : Prop :=
  let len := blockLengthAt sig (lastIndex sig)
  0 < len ∧ len < sig.blockLength ∧ Compares sig (slice f (f.length - len) len) (lastIndex sig)

/-- Nowhere in the source a digest is compared: not where the scan comes to, and not at its end. -/
structure Uncompared (sig : Signature) (maxChainLen : ℕ) (f : List UInt8) : Prop where
  scanned : ∀ off, off + sig.blockLength ≤ f.length → off = 0 ∨ sig.blockLength < kMaxWindow →
    ¬ Looked sig maxChainLen (slice f off sig.blockLength)
  final : sig.blockLength < kMaxWindow ∨ f.length = sig.blockLength → ¬ FinalCompared sig f

section Compared

variable {strong : List UInt8 → Digest} {sig : Signature} {maxChainLen : ℕ} {src : FileReader}
  {sink : List Instruction → Instruction → Bool} {f : List UInt8} {c : Scan}

/-- By induction on the walk: the first comparison it makes leaves the digest. -/
theorem lookup_compared (hstrong : 16 < sig.strongLength) {win : List UInt8}
    (h : Looked sig maxChainLen win) (wantI : ℤ) (rep : Report) :
    lookup strong sig maxChainLen (buildHashTable sig) wantI (weakChecksum win) win rep =
      .error .outOfBounds := by
  have hht := buildHashTable_below sig
  rw [Looked, HashTable.walked] at h
  rw [lookup]
  generalize buildHashTable sig = ht at h hht ⊢
  have hchain : ∀ budget (i best : ℤ) alarms, i < sig.sums.length →
      (∃ k ∈ walk ht.chain budget i, Compares sig win k) →
      lookupChain strong sig ht wantI (weakChecksum win) win budget i best alarms =
        .error .outOfBounds := by
    intro budget
    induction budget with
    | zero =>
      rintro i best alarms - ⟨k, hk, -⟩
      exact absurd hk not_mem_nil
    | succ budget ih =>
      rintro i best alarms hi hsome
      by_cases hneg : i < 0
      · rw [walk, if_pos hneg] at hsome
        obtain ⟨k, hk, -⟩ := hsome
        exact absurd hk not_mem_nil
      rw [walk, if_neg hneg, exists_mem_cons_iff] at hsome
      have hget : sig.sums[i.toNat]? = some sig.sums[i.toNat] := getElem?_eq_getElem (by omega)
      have hrest := fun best alarms hnot =>
        ih (ht.chain i.toNat) best alarms (hht.chain_lt _) (hsome.resolve_left hnot)
      rw [lookupChain, if_neg hneg, hget]
      dsimp only
      by_cases hweak : sig.sums[i.toNat].weak ≠ weakChecksum win
      · rw [if_pos hweak]
        refine hrest _ _ ?_
        rintro ⟨-, s, hs, heq⟩
        exact hweak (Option.mem_unique hget hs ▸ heq)
      rw [if_neg hweak]
      by_cases hlen : blockLengthAt sig i.toNat ≠ win.length
      · rw [if_pos hlen]
        exact hrest _ _ fun hcmp => hlen hcmp.1
      rw [if_neg hlen, strongMatches, if_neg (Nat.not_le_of_lt hstrong)]
  split_ifs with hneg
  · obtain ⟨k, hk, -⟩ := h
    cases maxChainLen with
    | zero => exact absurd hk not_mem_nil
    | succ n =>
      rw [walk, if_pos hneg] at hk
      exact absurd hk not_mem_nil
  · rw [hchain _ _ _ _ (hht.table_lt _) h]

/-! ## The scan passes over the source -/

theorem true_account : Account strong sig src f sink fun _ _ => True where
  congr_rep _ _ _ := trivial
  literal _ _ _ _ := trivial
  copy _ _ _ _ := trivial

/-- Nothing has matched yet, and if the blocks are as long as the window the scan has not moved. -/
structure Passing (sig : Signature) (src : FileReader) (f : List UInt8) (c : Scan) : Prop where
  inv : ScanInv sig src f (fun _ _ => True) c
  unmatched : c.lastMatch = 0
  window_eq : c.win.window.length = min kMaxWindow f.length
  reached : c.offset = 0 ∨ sig.blockLength < kMaxWindow

/-- What a pass over bytes that are not compared comes to; only a read can fail in it. -/
def PassedOver (sig : Signature) (src : FileReader) (f : List UInt8) (c : Scan) :
    Except Fault (Scan ⊕ Scan) → Prop
  | .ok (.inl c') => c'.lastMatch = 0 ∧ f.length ≤ c.offset + sig.blockLength
  | .ok (.inr c') => Passing sig src f c' ∧ c'.offset ≤ c.offset + 1
  | .error e => e = .pread ∧ ¬ src.Sound

variable (hsrc : src.Holds f) (hb : 0 < sig.blockLength) (hwindow : sig.blockLength ≤ kMaxWindow)
include hsrc hwindow

/-- The bytes that a pass looks up, and their sum. -/
theorem Passing.view (hc : Passing sig src f c) (hend : c.offset + sig.blockLength ≤ f.length) :
    (∃ e, ensureWindow src sig.blockLength f.length c.win c.offset = .error e ∧
      e = .pread ∧ ¬ src.Sound) ∨
    ∃ win, ensureWindow src sig.blockLength f.length c.win c.offset = .ok win ∧ Covers f win ∧
      win.window.length = min kMaxWindow f.length ∧
      span win.window (c.offset - win.base) sig.blockLength =
        .ok (slice f c.offset sig.blockLength) ∧
      (if c.stale then weakChecksum (slice f c.offset sig.blockLength) else c.weak) =
        weakChecksum (slice f c.offset sig.blockLength) := by
  have hfits : sig.blockLength ≤ c.win.window.length := by
    rw [hc.window_eq]
    omega
  have hwin : Carried (Sure src fun _ _ => true) _ (ensureWindow src _ f.length c.win c.offset) :=
    ensureWindow_carried hsrc (hc.inv.covers hsrc) hfits hend
  cases hensure : ensureWindow src sig.blockLength f.length c.win c.offset with
  | error e =>
    rw [ensureWindow] at hensure
    split_ifs at hensure
    exact .inl ⟨e, rfl, fillWindow_error hensure⟩
  | ok win =>
    rw [hensure] at hwin
    obtain ⟨hcovers, hsize, hview⟩ := hwin
    refine .inr ⟨win, rfl, hcovers, hsize.trans hc.window_eq, hview, ?_⟩
    cases hstale : c.stale with
    | true => rfl
    | false => exact hc.inv.weak_eq hsrc hstale

variable (strong sink)

/-- A pass over bytes that are compared leaves the digest, if it comes to them at all. -/
theorem scanStep_compared (hstrong : 16 < sig.strongLength) (hc : Passing sig src f c)
    (hend : c.offset + sig.blockLength ≤ f.length)
    (hlooked : Looked sig maxChainLen (slice f c.offset sig.blockLength)) :
    ∃ e, scanStep strong sig maxChainLen src sink (buildHashTable sig) f.length c = .error e ∧
      (e = .outOfBounds ∨ e = .pread ∧ ¬ src.Sound) := by
  rw [scanStep]
  obtain ⟨e, hensure, hfail⟩ | ⟨win, hensure, -, -, hview, hweak⟩ := hc.view hsrc hwindow hend
  · rw [hensure]
    exact ⟨e, rfl, .inr hfail⟩
  · rw [hensure]
    dsimp only
    rw [hview]
    dsimp only
    rw [hweak, lookup_compared hstrong hlooked]
    exact ⟨_, rfl, .inl rfl⟩

include hb

/-- **One pass over bytes that are not compared.** -/
theorem scanStep_passing (hc : Passing sig src f c) (hend : c.offset + sig.blockLength ≤ f.length)
    (hno : ¬ Looked sig maxChainLen (slice f c.offset sig.blockLength)) :
    PassedOver sig src f c
      (scanStep strong sig maxChainLen src sink (buildHashTable sig) f.length c) := by
  have hinv : ∀ {r}, scanStep strong sig maxChainLen src sink (buildHashTable sig) f.length c =
      .ok r → ScanInv sig src f (fun _ _ => True) (r.elim id id) := by
    intro r hr
    rw [← hsrc.size_eq] at hend hr
    exact scanStep_inv true_account hb hc.inv hend hr
  rw [scanStep] at hinv ⊢
  obtain ⟨e, hensure, hfail⟩ | ⟨win, hensure, hcovers, hsize, hview, hweak⟩ :=
    hc.view hsrc hwindow hend
  · rw [hensure]
    exact hfail
  obtain ⟨rep', hlook⟩ := @lookup_uncompared strong sig (buildHashTable sig) _
    (buildHashTable_below sig) maxChainLen (fun k hk hcmp => hno ⟨k, hk, hcmp⟩) c.wantI c.out.rep
  have hneg : (-1 : ℤ) < 0 := by decide
  simp only [hensure, hview, hweak, hlook, if_pos hneg] at hinv ⊢
  generalize weakChecksum (slice f c.offset sig.blockLength) = weak at hinv ⊢
  rw [scanMissed] at hinv ⊢
  dsimp only at hinv ⊢
  split_ifs at hinv ⊢ with hlast hshort
  · exact ⟨hc.unmatched, hlast⟩
  · cases hfill : fillWindow src f.length win c.offset with
    | error e => exact fillWindow_error hfill
    | ok win' =>
      rw [hfill] at hinv
      obtain ⟨-, -, hsame, -⟩ := fillWindow_covers hsrc hcovers hfill
      exact ⟨⟨hinv rfl, hc.unmatched, hsame.trans hsize, hc.reached⟩, Nat.le_succ _⟩
  · have hlen := hcovers.len_le
    have hmax := hcovers.size_le
    have henters := getElem?_eq_getElem
      (show c.offset - win.base + sig.blockLength < win.window.length by omega)
    have hleaves := getElem?_eq_getElem (show c.offset - win.base < win.window.length by omega)
    rw [henters, hleaves] at hinv ⊢
    exact ⟨⟨hinv rfl, hc.unmatched, hsize, .inr (by omega)⟩, le_refl _⟩

/-- Where a scan can come to: the end of the source, with nothing compared, or a block that is. -/
def Ends (sig : Signature) (maxChainLen : ℕ) (src : FileReader) (f : List UInt8) (from_ : ℕ) :
    Except Fault Scan → Prop
  | .ok c' => c'.lastMatch = 0 ∧ (sig.blockLength < kMaxWindow ∨ f.length = sig.blockLength) ∧
    ∀ off ≥ from_, off + sig.blockLength ≤ f.length →
      ¬ Looked sig maxChainLen (slice f off sig.blockLength)
  | .error e => e = .pread ∧ ¬ src.Sound ∨ e = .unfinished ∨ e = .outOfBounds ∧
    ∃ off, off + sig.blockLength ≤ f.length ∧ (off = 0 ∨ sig.blockLength < kMaxWindow) ∧
      Looked sig maxChainLen (slice f off sig.blockLength)

variable (maxChainLen) in
/-- **The whole scan**, by induction on the passes it is followed for. -/
theorem scanLoop_ends (hstrong : 16 < sig.strongLength) (hfits : sig.blockLength ≤ f.length)
    (hc : Passing sig src f c) (fuel : ℕ) : Ends sig maxChainLen src f c.offset
      (scanLoop strong sig maxChainLen src sink (buildHashTable sig) f.length fuel c) := by
  induction fuel generalizing c with
  | zero => exact .inr (.inl rfl)
  | succ fuel ih =>
    have hreached := hc.reached
    rw [scanLoop]
    split_ifs with hend
    · by_cases hlooked : Looked sig maxChainLen (slice f c.offset sig.blockLength)
      · obtain ⟨e, hstep, hwhy⟩ :=
          scanStep_compared strong sink hsrc hwindow hstrong hc hend hlooked
        rw [hstep]
        exact hwhy.elim (fun h => .inr (.inr ⟨h, c.offset, hend, hreached, hlooked⟩)) .inl
      have hpass := scanStep_passing strong sink hsrc hb hwindow hc hend hlooked
      cases hstep : scanStep strong sig maxChainLen src sink (buildHashTable sig) f.length c with
      | error e =>
        rw [hstep] at hpass
        exact .inl hpass
      | ok r =>
        rw [hstep] at hpass
        cases r with
        | inl c' =>
          obtain ⟨hunmatched, hlast⟩ := hpass
          refine ⟨hunmatched, by omega, fun off hoff hin => ?_⟩
          obtain rfl : off = c.offset := by omega
          exact hlooked
        | inr c' =>
          obtain ⟨hc', hnear⟩ := hpass
          have hends := ih hc'
          dsimp only
          cases hloop : scanLoop strong sig maxChainLen src sink (buildHashTable sig) f.length
            fuel c' with
          | error e =>
            rw [hloop] at hends
            exact hends
          | ok c'' =>
            rw [hloop] at hends
            refine ⟨hends.1, hends.2.1, fun off hoff hin => ?_⟩
            rcases Nat.eq_or_lt_of_le hoff with rfl | hlt
            · exact hlooked
            · exact hends.2.2 off (by omega) hin
    · exact ⟨hc.unmatched, by omega, fun off hoff hin => absurd hin (by omega)⟩

omit hb hwindow

/-! ## What follows the scan -/

variable {strong sink}

theorem finish_uncompared (hsums : sig.sums ≠ []) (hno : ¬ FinalCompared sig f) :
    Within (fun _ => True) (finish strong sig src sink f.length c) := by
  refine finish_within hsums fun view calls' hread hpos hshort hcmp => absurd ?_ hno
  rw [FileReader.read_eq_slice hsrc hread] at hcmp
  exact ⟨hpos, hshort, hcmp⟩

theorem finish_compared (hsound : src.Sound) (hstrong : 16 < sig.strongLength)
    (hfits : sig.blockLength ≤ f.length) (hunmatched : c.lastMatch = 0)
    (hfinal : FinalCompared sig f) :
    finish strong sig src sink f.length c = .error .outOfBounds := by
  obtain ⟨hpos, hshort, hlen, s, hs, hweak⟩ := hfinal
  rw [finish, hunmatched, if_pos (by omega), matchFinalBlock, ← lastIndex]
  generalize lastIndex sig = lastIdx at hpos hshort hlen hs hweak ⊢
  generalize blockLengthAt sig lastIdx = len at hpos hshort hlen hweak ⊢
  obtain ⟨⟨view, calls'⟩, hread⟩ := readLoop_ok hsound len c.win.calls len (f.length - len)
  rw [← FileReader.read_eq_slice hsrc hread] at hlen hweak
  have hskip : ¬ (len = 0 ∨ sig.blockLength ≤ len ∨ f.length < len) := by omega
  dsimp only
  rw [if_neg hskip, if_neg (Nat.not_lt_zero _), FileReader.read, hread]
  simp only [hlen, hs, hweak, ne_eq, not_true_eq_false, if_false, strongMatches,
    if_neg (Nat.not_le_of_lt hstrong)]

/-! ## The whole diff -/

variable {rep : Report}

variable (strong maxChainLen sink rep) in
/-- A source that is scanned: the first window is read, and the scan starts passing. -/
theorem diff_scanned (hscan : ¬ Unscanned sig f.length) (fuel : ℕ) :
    (∃ e, diff strong sig maxChainLen src sink rep fuel = .error e ∧ e = .pread ∧ ¬ src.Sound) ∨
    ∃ win, Passing sig src f ⟨0, 0, 0, true, 0, win, ⟨0, rep, []⟩⟩ ∧
      diff strong sig maxChainLen src sink rep fuel =
        match scanLoop strong sig maxChainLen src sink (buildHashTable sig) f.length fuel
          ⟨0, 0, 0, true, 0, win, ⟨0, rep, []⟩⟩ with
        | .error e => .error e
        | .ok c => finish strong sig src sink f.length c := by
  have hliteral : ¬ (sig.sums.isEmpty ∨ sig.blockLength = 0 ∨ f.length < sig.blockLength) := hscan
  rw [diff, hsrc.size_eq]
  simp only [if_neg hliteral]
  cases hfill : fillWindow src f.length ⟨List.replicate (min kMaxWindow f.length) 0, 0, 0, 0⟩ 0 with
  | error e => exact .inl ⟨e, rfl, fillWindow_error hfill⟩
  | ok win =>
    obtain ⟨hcovers, -, hsize, -⟩ := fillWindow_covers hsrc (Covers.empty f _) hfill
    refine .inr ⟨win, ⟨⟨trivial, le_refl _, Nat.zero_le _, fun _ => hcovers, fun _ h => ?_⟩,
      rfl, ?_, .inl rfl⟩, rfl⟩
    · cases h
    · rw [hsize, length_replicate]

/-- Nothing is compared, so it does not matter how long a digest is said to be. -/
theorem diff_uncompared (hscan : ¬ Unscanned sig f.length)
    (hwindow : sig.blockLength ≤ kMaxWindow) (hstrong : 16 < sig.strongLength)
    (hno : Uncompared sig maxChainLen f) (fuel : ℕ) :
    diff strong sig maxChainLen src sink rep fuel ≠ .error .outOfBounds := by
  obtain ⟨hsums, hb, hfits⟩ : ¬ sig.sums.isEmpty ∧ ¬ sig.blockLength = 0 ∧
    ¬ f.length < sig.blockLength := by rwa [← not_or, ← not_or]
  obtain ⟨e, hdiff, rfl, -⟩ | ⟨win, hc, hdiff⟩ :=
    diff_scanned strong maxChainLen sink hsrc rep hscan fuel
  · rw [hdiff]
    exact fun h => Fault.noConfusion (Except.error.inj h)
  have hends := scanLoop_ends strong maxChainLen sink hsrc (Nat.pos_of_ne_zero hb) hwindow hstrong
    (Nat.le_of_not_lt hfits) hc fuel
  rw [hdiff]
  cases hloop : scanLoop strong sig maxChainLen src sink (buildHashTable sig) f.length fuel _ with
  | error e =>
    rw [hloop] at hends
    obtain ⟨rfl, -⟩ | rfl | ⟨-, off, hin, hreached, hlooked⟩ := hends
    · exact fun h => Fault.noConfusion (Except.error.inj h)
    · exact fun h => Fault.noConfusion (Except.error.inj h)
    · exact absurd hlooked (hno.scanned off hin hreached)
  | ok c =>
    rw [hloop] at hends
    refine (finish_uncompared hsrc (fun hnil => hsums ?_) (hno.final hends.2.1)).ne
    rw [hnil]
    rfl

end Compared

section Outside

variable {strong : List UInt8 → Digest} {sig : Signature} {maxChainLen : ℕ}
  {sink : List Instruction → Instruction → Bool} {f : List UInt8} {rep : Report}

/-- A block that does not fit the window, in its first pass. -/
theorem diff_long_block (hscan : ¬ Unscanned sig f.length) (hlong : kMaxWindow < sig.blockLength) :
    diff strong sig maxChainLen (.ofBytes f) sink rep 1 = .error .outOfBounds := by
  have hsound : (FileReader.ofBytes f).Sound := fun _ _ _ => Option.some_ne_none _
  obtain ⟨-, -, hfits⟩ : ¬ sig.sums.isEmpty ∧ ¬ sig.blockLength = 0 ∧
    ¬ f.length < sig.blockLength := by rwa [← not_or, ← not_or]
  obtain ⟨e, -, -, hfail⟩ | ⟨win, hc, hdiff⟩ :=
    diff_scanned strong maxChainLen sink (FileReader.ofBytes_holds f) rep hscan 1
  · exact absurd hsound hfail
  have hheld : Held (min kMaxWindow f.length) win :=
    ⟨hc.window_eq, hc.window_eq ▸ (hc.inv.covers (FileReader.ofBytes_holds f)).len_le⟩
  have hspan : ∀ w, Held (min kMaxWindow f.length) w → ∀ off,
      span w.window off sig.blockLength = .error .outOfBounds := by
    intro w hw off
    rw [span, if_neg]
    rw [hw.size_eq]
    omega
  obtain ⟨w, hensure, hw⟩ : ∃ w, ensureWindow (.ofBytes f) sig.blockLength f.length win 0 = .ok w ∧
      Held (min kMaxWindow f.length) w := by
    have hwin : Within _ (fillWindow (.ofBytes f) f.length win 0) := fillWindow_within hheld
    rw [ensureWindow]
    split_ifs with hin
    · exact ⟨win, rfl, hheld⟩
    cases hfill : fillWindow (.ofBytes f) f.length win 0 with
    | error e => exact absurd hsound (fillWindow_error hfill).2
    | ok w =>
      rw [hfill] at hwin
      exact ⟨w, rfl, hwin.1⟩
  rw [hdiff, scanLoop, if_pos (show 0 + sig.blockLength ≤ f.length by omega), scanStep]
  simp only [hensure, hspan w hw]

/-- If the reads of a source stay in bounds and its digests are too long, none is compared. -/
theorem uncompared_of_in_bounds (hscan : ¬ Unscanned sig f.length)
    (hwindow : sig.blockLength ≤ kMaxWindow) (hstrong : 16 < sig.strongLength)
    (hin : ∀ fuel, diff strong sig maxChainLen (.ofBytes f) sink rep fuel ≠ .error .outOfBounds) :
    Uncompared sig maxChainLen f := by
  have hsrc := FileReader.ofBytes_holds f
  have hsound : (FileReader.ofBytes f).Sound := fun _ _ _ => Option.some_ne_none _
  obtain ⟨-, hb, hfits⟩ : ¬ sig.sums.isEmpty ∧ ¬ sig.blockLength = 0 ∧
    ¬ f.length < sig.blockLength := by rwa [← not_or, ← not_or]
  have hrun := fun fuel => (diff_scanned strong maxChainLen sink hsrc rep hscan fuel).resolve_left
    fun h => h.choose_spec.2.2 hsound
  -- the first pass alone shows that the first block is not compared
  have hfirst : ¬ Looked sig maxChainLen (slice f 0 sig.blockLength) := by
    intro hlooked
    obtain ⟨win, hc, hdiff⟩ := hrun 1
    obtain ⟨e, hstep, rfl | hfail⟩ := scanStep_compared strong sink hsrc hwindow hstrong hc
      (by show 0 + _ ≤ _; omega) hlooked
    · refine hin 1 ?_
      rw [hdiff, scanLoop, if_pos (show 0 + sig.blockLength ≤ f.length by omega), hstep]
    · exact hfail.2 hsound
  -- a run that comes to its end has passed over everything else
  have hall : sig.blockLength < kMaxWindow ∨ f.length = sig.blockLength →
      (∀ off, off + sig.blockLength ≤ f.length →
        ¬ Looked sig maxChainLen (slice f off sig.blockLength)) ∧ ¬ FinalCompared sig f := by
    intro hshort
    obtain ⟨fuel, hended⟩ : Finishes strong sig maxChainLen (.ofBytes f) sink rep :=
      finishes_of_gain fun k (_ : k ≥ 0) => not_vainPass (.inr (.inr (hshort.symm.imp
        (fun h => h.le) fun h => ⟨h, ofBytes_full f⟩))) k
    have hend := hended fuel (le_refl _)
    have hok := hin fuel
    obtain ⟨win, hc, hdiff⟩ := hrun fuel
    have hends := scanLoop_ends strong maxChainLen sink hsrc (Nat.pos_of_ne_zero hb) hwindow hstrong
      (Nat.le_of_not_lt hfits) hc fuel
    rw [hdiff] at hend hok
    cases hloop : scanLoop strong sig maxChainLen (.ofBytes f) sink (buildHashTable sig) f.length
        fuel _ with
    | error e =>
      rw [hloop] at hends hend hok
      obtain ⟨-, hfail⟩ | rfl | ⟨rfl, -⟩ := hends
      · exact absurd hsound hfail
      · exact absurd rfl hend
      · exact absurd rfl hok
    | ok c =>
      rw [hloop] at hends hok
      refine ⟨fun off => hends.2.2 off (Nat.zero_le _), fun hfinal => hok ?_⟩
      exact finish_compared hsrc hsound hstrong (Nat.le_of_not_lt hfits) hends.1 hfinal
  refine ⟨fun off hoff hreached => ?_, fun hshort => (hall hshort).2⟩
  rcases hreached with rfl | hshort
  · exact hfirst
  · exact (hall (.inl hshort)).1 off hoff

end Outside

/-! ## The signatures that are received -/

section Accepted

open Proto

variable (strong : List UInt8 → Digest)

/-- A signature of one block of `b` zeros. -/
def zerosSignature (b n : UInt32) : Proto.Signature where
  blockLength := b
  strongLength := n
  fileLength := b.toUInt64
  sums := [⟨weakChecksum (List.replicate b.toNat 0), (strong (List.replicate b.toNat 0)).toWire⟩]

theorem decode_zerosSignature (b n : UInt32) :
    decode MsgType.signature.code (encode (.signature (zerosSignature strong b n))) =
      .ok (.signature (zerosSignature strong b n)) :=
  decode_of_reads (reads_signature _ (by show 1 < 2 ^ 32; decide))

end Accepted

end Rail.Delta
