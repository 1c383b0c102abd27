import Rail.Delta.Reconstruct
import Rail.Proto.Codec

/-!
# What the differ reads

The lengths of a signature come from the peer, and `decode` takes any of them.  The differ trusts
two of them: the block length decides how far it reads into the source window, and the strong length
how much of a stored digest it compares.  The window has `kMaxWindow` bytes at most and a digest has
sixteen.

`Within post x` says that `x` did not read outside an object and that its result, where it has one,
satisfies `post`; every function of the differ has one such lemma, for any hash table that stays
inside the sums, any reader and any sink.  Put together: a signature whose block length is at most
`kMaxWindow` and whose strong length is at most sixteen keeps every read in bounds (`diff_within`).
What other signatures do depends on the source, and is left to `Rail.Delta.Compared`.
-/

namespace Rail.Delta

open List Function ByteFile

/-! ## Signatures as they are received -/

/-- A digest of the wire, as the sums hold it. -/
def Digest.ofWire (d : Proto.Digest) : Digest := ⟨d.1.toArray, by rw [List.size_toArray, d.2]⟩

/-- The digest of a block, as it goes over the wire. -/
def Digest.toWire (d : Digest) : Proto.Digest := ⟨d.toList, by rw [Vector.length_toList]⟩

/-- The signature that `Differ` is built from. -/
def Signature.ofWire (s : Proto.Signature) : Signature where
  blockLength := s.blockLength.toNat
  strongLength := s.strongLength.toNat
  fileLength := s.fileLength.toNat
  sums := s.sums.map fun b => ⟨b.weak, Digest.ofWire b.strong⟩

/-! ## Results without a read out of bounds -/

/-- The result satisfies `post`, and a failure is not a read out of bounds. -/
def Within {α : Type} (post : α → Prop) : Except Fault α → Prop
  | .ok a => post a
  | .error e => e ≠ .outOfBounds

theorem Within.mono {α : Type} {p q : α → Prop} {x : Except Fault α} (h : Within p x)
    (hpq : ∀ a, p a → q a) : Within q x := by
  cases x with
  | ok a => exact hpq a h
  | error e => exact h

theorem Within.ne {α : Type} {p : α → Prop} {x : Except Fault α} (h : Within p x) :
    x ≠ .error .outOfBounds := by
  rintro rfl
  exact h rfl

/-- A step that stays in bounds ends with a result or with a failure of its own; what follows it is
shown for both. -/
@[elab_as_elim]
theorem Within.elim {α : Type} {p : α → Prop} {motive : Except Fault α → Prop} {x : Except Fault α}
    (h : Within p x) (ok : ∀ a, p a → motive (.ok a))
    (error : ∀ e, e ≠ .outOfBounds → motive (.error e)) : motive x := by
  cases x with
  | ok a => exact ok a h
  | error e => exact error e h

theorem span_within {w : List UInt8} {off len : ℕ} (h : off + len ≤ w.length) :
    Within (fun v => v.length = len) (span w off len) := by
  rw [span, if_pos h]
  show (slice w off len).length = len
  rw [length_slice]
  omega

/-! ## The reader and the window -/

/-- A read never gives more than was asked for, and it only fails as `pread` does. -/
theorem readLoop_within (r : FileReader) (passes k left off : ℕ) :
    Within (fun p => p.1.length ≤ left) (r.readLoop passes k left off) := by
  induction passes generalizing k left off with
  | zero =>
    cases left with
    | zero | succ left => exact Nat.zero_le _
  | succ passes ih =>
    cases left with
    | zero => exact Nat.zero_le _
    | succ left =>
      rw [FileReader.readLoop]
      cases r.pread k off (left + 1) with
      | none => exact Fault.noConfusion
      | some bytes =>
        have hle : (bytes.take (left + 1)).length ≤ left + 1 := length_take_le _ _
        cases hb : bytes.take (left + 1) with
        | nil =>
          simp only [hb]
          exact Nat.zero_le _
        | cons b bs =>
          rw [hb, length_cons] at hle
          simp only [hb]
          refine (ih (k + 1) (left - bs.length) (off + (bs.length + 1))).elim (fun p hp =>
            ?_) fun _ he => he
          show (b :: bs ++ p.1).length ≤ left + 1
          rw [length_append, length_cons]
          omega

theorem read_within (r : FileReader) (k want off : ℕ) :
    Within (fun p => p.1.length ≤ want) (r.read k want off) :=
  readLoop_within r want k want off

/-- The window keeps the size it was allocated with, and counts no byte past it. -/
structure Held (size : ℕ) (w : SourceWindow) : Prop where
  size_eq : w.window.length = size
  len_le : w.len ≤ size

section Window

variable {src : FileReader} {size block sourceLen off : ℕ} {w : SourceWindow}

theorem fillWindow_within (hw : Held size w) :
    Within (fun w' => Held size w' ∧ w'.base = off) (fillWindow src sourceLen w off) := by
  rw [fillWindow]
  refine (read_within src w.calls _ off).elim (fun p hp => ?_) fun _ he => he
  have hle : p.1.length ≤ size := hp.trans ((Nat.min_le_left _ _).trans hw.size_eq.le)
  refine ⟨⟨?_, hle⟩, rfl⟩
  show (p.1 ++ w.window.drop p.1.length).length = size
  rw [length_append, length_drop, hw.size_eq]
  omega

/-- After `ensureWindow` the block at the offset lies inside the window. -/
theorem ensureWindow_within (hw : Held size w) (hblock : block ≤ size)
    (hend : off + block ≤ sourceLen) :
    Within (fun w' => Held size w' ∧ off - w'.base + block ≤ size)
    (ensureWindow src block sourceLen w off) := by
  rw [ensureWindow, Nat.min_eq_left hend]
  split_ifs with hin
  · have := hw.len_le
    exact ⟨hw, by omega⟩
  · refine (fillWindow_within hw).mono fun w' hw' => ⟨hw'.1, ?_⟩
    rw [hw'.2]
    omega

end Window

/-! ## The hash table and the lookup -/

/-- Every entry of the table and of the chains is below `n`; a negative one ends a chain. -/
structure HashTable.Below (ht : HashTable) (n : ℕ) : Prop where
  table_lt : ∀ t, ht.table t < n
  chain_lt : ∀ i, ht.chain i < n

theorem bmod_le (i m : ℕ) : Int.bmod i m ≤ i := by
  have hmod : (i : ℤ) % m ≤ i := by exact_mod_cast Nat.mod_le i m
  rw [Int.bmod_def]
  split <;> omega

theorem insertSums_lt {tableSize n : ℕ} {sums : List BlockSum} {i : ℕ} {table chain : ℕ → ℤ}
    (hn : i + sums.length ≤ n) (ht : ∀ t, table t < n) (hc : ∀ j, chain j < n) :
    (∀ t, (insertSums tableSize sums i (table, chain)).1 t < n) ∧
      ∀ j, (insertSums tableSize sums i (table, chain)).2 j < n := by
  induction sums generalizing i table chain with
  | nil => exact ⟨ht, hc⟩
  | cons s sums ih =>
    rw [length_cons] at hn
    have hi : int32 i ≤ i := bmod_le i _
    refine ih (by omega) ?_ ?_
    · intro t
      rw [update_apply]
      split
      · omega
      · exact ht t
    · intro j
      rw [update_apply]
      split
      · exact ht _
      · exact hc j

theorem buildHashTable_below (sig : Signature) : (buildHashTable sig).Below sig.sums.length := by
  have hempty : ∀ _ : ℕ, (-1 : ℤ) < sig.sums.length := fun _ => by omega
  obtain ⟨ht, hc⟩ := insertSums_lt (Nat.le_of_eq (Nat.zero_add _)) hempty hempty
  exact ⟨ht, hc⟩

section Lookup

variable {strong : List UInt8 → Digest} {sig : Signature} {ht : HashTable} {wantI : ℤ}
  {weak : UInt32} {win : List UInt8}

theorem lookupChain_within (hht : ht.Below sig.sums.length) (hlen : sig.strongLength ≤ 16)
    {budget : ℕ} {i best : ℤ} {alarms : ℕ} (hi : i < sig.sums.length) :
    Within (fun _ => True) (lookupChain strong sig ht wantI weak win budget i best alarms) := by
  induction budget generalizing i best alarms with
  | zero => trivial
  | succ budget ih =>
    rw [lookupChain]
    by_cases hneg : i < 0
    · rw [if_pos hneg]
      trivial
    rw [if_neg hneg]
    have hget : sig.sums[i.toNat]? = some sig.sums[i.toNat] := getElem?_eq_getElem (by omega)
    have hnext := hht.chain_lt i.toNat
    obtain ⟨same, hsame⟩ : ∃ same,
      strongMatches (strong win) sig.sums[i.toNat].strong sig.strongLength = .ok same :=
      ⟨_, by rw [strongMatches, if_pos hlen]⟩
    rw [hget]
    simp only [hsame]
    by_cases hweak : sig.sums[i.toNat].weak ≠ weak
    · rw [if_pos hweak]
      exact ih hnext
    rw [if_neg hweak]
    by_cases hblock : blockLengthAt sig i.toNat ≠ win.length
    · rw [if_pos hblock]
      exact ih hnext
    rw [if_neg hblock]
    cases same with
    | false => exact ih hnext
    | true =>
      by_cases hwant : i = wantI
      · simp only [if_pos hwant]
        trivial
      · simp only [if_neg hwant]
        exact ih hnext

theorem lookup_within (hht : ht.Below sig.sums.length) (hlen : sig.strongLength ≤ 16)
    (maxChainLen : ℕ) (rep : Report) :
    Within (fun p => 0 ≤ p.1 → blockLengthAt sig p.1.toNat = win.length)
      (lookup strong sig maxChainLen ht wantI weak win rep) := by
  have hin : Within (fun _ => True) (lookup strong sig maxChainLen ht wantI weak win rep) := by
    rw [lookup]
    split_ifs with hneg
    · trivial
    · exact (lookupChain_within hht hlen (hht.table_lt _)).elim (fun _ _ => trivial) fun _ he => he
  cases h : lookup strong sig maxChainLen ht wantI weak win rep with
  | error e =>
    rw [h] at hin
    exact hin
  | ok p => exact fun hp => ((lookup_sound h).1 hp).length_eq

/-- The blocks that a walk along a chain looks at, from this entry on. -/
def walk (chain : ℕ → ℤ) : (budget : ℕ) → (i : ℤ) → List ℕ
  | 0, _ => []
  | budget + 1, i => if i < 0 then [] else i.toNat :: walk chain budget (chain i.toNat)

/-- The blocks that `lookup` looks at for this sum: the chain of its bucket, up to the limit. -/
def HashTable.walked (ht : HashTable) (maxChainLen : ℕ) (weak : UInt32) : List ℕ :=
  walk ht.chain maxChainLen (ht.table ((weakHash weak).toNat % ht.tableSize))

/-- Block `k` has the length and the weak sum of these bytes, so that the digests are compared. -/
def Compares (sig : Signature) (win : List UInt8) (k : ℕ) : Prop :=
  blockLengthAt sig k = win.length ∧ ∃ s, sig.sums[k]? = some s ∧ s.weak = weakChecksum win

/-- Where no digest is compared nothing is found, and it does not matter how long digests are. -/
theorem lookup_uncompared (hht : ht.Below sig.sums.length) {maxChainLen : ℕ}
    (hno : ∀ k ∈ ht.walked maxChainLen (weakChecksum win), ¬ Compares sig win k)
    (wantI : ℤ) (rep : Report) :
    ∃ rep', lookup strong sig maxChainLen ht wantI (weakChecksum win) win rep = .ok (-1, rep') := by
  have hchain : ∀ budget (i : ℤ), i < sig.sums.length →
      (∀ k ∈ walk ht.chain budget i, ¬ Compares sig win k) →
      lookupChain strong sig ht wantI (weakChecksum win) win budget i (-1) 0 = .ok (-1, 0) := by
    intro budget
    induction budget with
    | zero => exact fun _ _ _ => rfl
    | succ budget ih =>
      intro i hi hno
      rw [lookupChain]
      by_cases hneg : i < 0
      · rw [if_pos hneg]
      rw [walk, if_neg hneg, forall_mem_cons] at hno
      have hget : sig.sums[i.toNat]? = some sig.sums[i.toNat] := getElem?_eq_getElem (by omega)
      rw [if_neg hneg, hget]
      dsimp only
      by_cases hweak : sig.sums[i.toNat].weak ≠ weakChecksum win
      · rw [if_pos hweak]
        exact ih _ (hht.chain_lt _) hno.2
      have hlen : blockLengthAt sig i.toNat ≠ win.length :=
        fun heq => hno.1 ⟨heq, _, hget, not_not.mp hweak⟩
      rw [if_neg hweak, if_pos hlen]
      exact ih _ (hht.chain_lt _) hno.2
  rw [lookup]
  split_ifs
  · exact ⟨rep, rfl⟩
  · rw [hchain _ _ (hht.table_lt _) hno]
    exact ⟨_, rfl⟩

end Lookup

/-! ## Emitting -/

section Emit

variable {sink : List Instruction → Instruction → Bool}

theorem emit_within (o : Outgoing) (ins : Instruction) :
    Within (fun _ => True) (emit sink o ins) := by
  rw [emit]
  split_ifs with h
  · trivial
  · exact Fault.noConfusion

theorem emitLiteralLoop_within (passes offset length : ℕ) (o : Outgoing) :
    Within (fun _ => True) (emitLiteralLoop sink passes offset length o) := by
  induction passes generalizing offset length o with
  | zero => trivial
  | succ passes ih =>
    rw [emitLiteralLoop]
    split_ifs with h
    · trivial
    · dsimp only
      exact (emit_within o _).elim (fun _ _ => ih _ _ _) fun _ he => he

theorem emitGap_within (lastMatch offset : ℕ) (o : Outgoing) :
    Within (fun _ => True) (emitGap sink lastMatch offset o) := by
  rw [emitGap]
  split_ifs with h
  · exact emitLiteralLoop_within _ _ _ _
  · trivial

theorem emitCopy_within (index : ℤ) (srcOffset : ℕ) (bytes : List UInt8) (o : Outgoing) :
    Within (fun _ => True) (emitCopy sink index srcOffset bytes o) := by
  rw [emitCopy]
  exact (emit_within o _).elim (fun _ _ => trivial) fun _ he => he

end Emit

/-! ## The scan -/

section Scan

variable {strong : List UInt8 → Digest} {sig : Signature} {maxChainLen : ℕ} {src : FileReader}
  {sink : List Instruction → Instruction → Bool} {ht : HashTable} {size sourceLen : ℕ} {c : Scan}
  {win : SourceWindow}

theorem scanMatched_within (hw : Held size win) (hin : c.offset - win.base + sig.blockLength ≤ size)
    {i : ℤ} (hmatch : blockLengthAt sig i.toNat = sig.blockLength) (rep : Report) :
    Within (fun c' => Held size c'.win) (scanMatched sig sink c win i rep) := by
  have hspan : c.offset - win.base + blockLengthAt sig i.toNat ≤ win.window.length := by
    rw [hmatch, hw.size_eq]
    exact hin
  rw [scanMatched]
  refine (emitGap_within c.lastMatch c.offset _).elim (fun o _ => ?_) fun _ he => he
  dsimp only
  refine (span_within hspan).elim (fun bytes _ => ?_) fun _ he => he
  dsimp only
  exact (emitCopy_within i c.offset bytes o).elim (fun _ _ => hw) fun _ he => he

theorem scanMissed_within (hw : Held size win) (weak : UInt32) (rep : Report) :
    Within (fun next => ∀ c', next = some c' → Held size c'.win)
    (scanMissed sig src sourceLen c win weak rep) := by
  rw [scanMissed]
  by_cases hend : sourceLen ≤ c.offset + sig.blockLength
  · rw [if_pos hend]
    intro c' h
    cases h
  rw [if_neg hend]
  by_cases hrefill : win.len ≤ c.offset - win.base + sig.blockLength
  · rw [if_pos hrefill]
    refine (fillWindow_within hw).elim (fun w hheld c' h => ?_) fun _ he => he
    cases h
    exact hheld.1
  · -- the byte that enters is one the window counts, so both bytes are there
    rw [if_neg hrefill]
    have hlt : c.offset - win.base + sig.blockLength < win.window.length := by
      have := hw.len_le
      rw [hw.size_eq]
      omega
    rw [getElem?_eq_getElem hlt, getElem?_eq_getElem (by omega)]
    intro c' h
    cases h
    exact hw

theorem scanStep_within (hht : ht.Below sig.sums.length) (hlen : sig.strongLength ≤ 16)
    (hblock : sig.blockLength ≤ size) (hw : Held size c.win)
    (hend : c.offset + sig.blockLength ≤ sourceLen) :
    Within (fun next => Held size (next.elim (·.win) (·.win)))
      (scanStep strong sig maxChainLen src sink ht sourceLen c) := by
  rw [scanStep]
  refine (ensureWindow_within hw hblock hend).elim (fun win hwin => ?_) fun _ he => he
  obtain ⟨hheld, hin⟩ := hwin
  have hspan : c.offset - win.base + sig.blockLength ≤ win.window.length := by
    rw [hheld.size_eq]
    exact hin
  dsimp only
  refine (span_within hspan).elim (fun view hview => ?_) fun _ he => he
  dsimp only
  refine (lookup_within hht hlen maxChainLen c.out.rep).elim (fun found hfound => ?_) fun _ he => he
  obtain ⟨i, rep⟩ := found
  by_cases hi : i < 0
  · simp only [if_pos hi]
    refine (scanMissed_within hheld _ rep).elim (fun next hnext => ?_) fun _ he => he
    cases next with
    | none => exact hheld
    | some c' => exact hnext c' rfl
  · simp only [if_neg hi]
    have hmatch : blockLengthAt sig i.toNat = sig.blockLength := (hfound (by omega)).trans hview
    exact (scanMatched_within hheld hin hmatch rep).elim (fun _ h => h) fun _ he => he

theorem scanLoop_within (hht : ht.Below sig.sums.length) (hlen : sig.strongLength ≤ 16)
    (hblock : sig.blockLength ≤ size) {fuel : ℕ} (hw : Held size c.win) :
    Within (fun _ => True) (scanLoop strong sig maxChainLen src sink ht sourceLen fuel c) := by
  induction fuel generalizing c with
  | zero => exact Fault.noConfusion
  | succ fuel ih =>
    rw [scanLoop]
    split_ifs with hend
    · refine (scanStep_within hht hlen hblock hw hend).elim (fun next hnext => ?_) fun _ he => he
      cases next with
      | inl c' => trivial
      | inr c' => exact ih hnext
    · trivial

/-- The index that `matchFinalBlock` gives the final block. -/
def lastIndex (sig : Signature) : ℕ := (sig.sums.length - 1) % 0x100000000

/-- The digests of the final block are compared only if they are not too long. -/
theorem matchFinalBlock_within (hsums : sig.sums ≠ []) {from_ calls : ℕ}
    (hlen : ∀ view calls', src.read calls (blockLengthAt sig (lastIndex sig))
      (sourceLen - blockLengthAt sig (lastIndex sig)) = .ok (view, calls') →
      0 < blockLengthAt sig (lastIndex sig) → blockLengthAt sig (lastIndex sig) < sig.blockLength →
      Compares sig view (lastIndex sig) → sig.strongLength ≤ 16) (o : Outgoing) :
    Within (fun _ => True) (matchFinalBlock strong sig src sink sourceLen from_ calls o) := by
  have hidx : lastIndex sig < sig.sums.length := by
    have := length_pos_iff.mpr hsums
    have := Nat.mod_le (sig.sums.length - 1) 0x100000000
    rw [lastIndex]
    omega
  rw [matchFinalBlock, ← lastIndex]
  generalize lastIndex sig = lastIdx at hidx hlen ⊢
  dsimp only
  by_cases hskip : blockLengthAt sig lastIdx = 0 ∨ sig.blockLength ≤ blockLengthAt sig lastIdx ∨
      sourceLen < blockLengthAt sig lastIdx
  · rw [if_pos hskip]
    trivial
  rw [if_neg hskip]
  split_ifs with hbefore
  · trivial
  cases hread : src.read calls (blockLengthAt sig lastIdx)
    (sourceLen - blockLengthAt sig lastIdx) with
  | error e =>
    have hin := read_within src calls (blockLengthAt sig lastIdx)
      (sourceLen - blockLengthAt sig lastIdx)
    rw [hread] at hin
    exact hin
  | ok p =>
    obtain ⟨view, calls'⟩ := p
    dsimp only
    split_ifs with hshort
    · trivial
    rw [getElem?_eq_getElem hidx]
    dsimp only
    generalize hsum : weakChecksum view = weak
    split_ifs with hweak
    · trivial
    have hstrong := hlen view calls' hread (by omega) (by omega)
      ⟨(not_not.mp hshort).symm, _, getElem?_eq_getElem hidx, (hsum.trans (not_not.mp hweak)).symm⟩
    rw [strongMatches, if_pos hstrong]
    cases (strong view).toList.take sig.strongLength ==
        sig.sums[lastIdx].strong.toList.take sig.strongLength with
    | false => trivial
    | true =>
      dsimp only
      refine (emitGap_within from_ _ o).elim (fun o' _ => ?_) fun _ he => he
      dsimp only
      exact (emitCopy_within _ _ view o').elim (fun _ _ => trivial) fun _ he => he

theorem finish_within (hsums : sig.sums ≠ [])
    (hlen : ∀ view calls', src.read c.win.calls (blockLengthAt sig (lastIndex sig))
      (sourceLen - blockLengthAt sig (lastIndex sig)) = .ok (view, calls') →
      0 < blockLengthAt sig (lastIndex sig) → blockLengthAt sig (lastIndex sig) < sig.blockLength →
      Compares sig view (lastIndex sig) → sig.strongLength ≤ 16) :
    Within (fun _ => True) (finish strong sig src sink sourceLen c) := by
  rw [finish]
  split_ifs with hlast
  · refine (matchFinalBlock_within hsums hlen _).elim (fun p _ => ?_) fun _ he => he
    obtain ⟨matched, o⟩ := p
    cases matched with
    | true => trivial
    | false => exact emitLiteralLoop_within _ _ _ _
  · trivial

/-- **A block that fits the window and a strong length that fits a digest keep every read in
bounds**, whatever else the signature says and whatever the source is. -/
theorem diff_within (hblock : sig.blockLength ≤ kMaxWindow) (hlen : sig.strongLength ≤ 16)
    (rep : Report) (fuel : ℕ) :
    Within (fun _ => True) (diff strong sig maxChainLen src sink rep fuel) := by
  rw [diff]
  split_ifs with hliteral
  · exact emitLiteralLoop_within _ _ _ _
  obtain ⟨hsums, hrest⟩ := not_or.mp hliteral
  have hfits : sig.blockLength ≤ min kMaxWindow src.size :=
    le_min hblock (Nat.le_of_not_lt (not_or.mp hrest).2)
  have hheld : Held (min kMaxWindow src.size) ⟨List.replicate (min kMaxWindow src.size) 0, 0,
    0, 0⟩ :=
    ⟨length_replicate, Nat.zero_le _⟩
  dsimp only
  refine (fillWindow_within hheld).elim (fun win hwin => ?_) fun _ he => he
  dsimp only
  refine (scanLoop_within (buildHashTable_below sig) hlen hfits hwin.1).elim (fun c _ =>
    ?_) fun _ he => he
  exact finish_within (fun h => hsums (by rw [h]; rfl)) fun _ _ _ _ _ _ => hlen

/-- There are no blocks, they have no length, or the source is shorter than one: it is sent as it
is. -/
def Unscanned (sig : Signature) (n : ℕ) : Prop :=
  sig.sums.isEmpty ∨ sig.blockLength = 0 ∨ n < sig.blockLength

theorem diff_of_unscanned (h : Unscanned sig src.size) (rep : Report) (fuel : ℕ) :
    diff strong sig maxChainLen src sink rep fuel = emitLiteral sink 0 src.size ⟨0, rep, []⟩ :=
  if_pos h

end Scan

/-! ## Reads that do not fail -/

theorem size_ofBytes (f : List UInt8) : (FileReader.ofBytes f).size = f.length := rfl

/-- No read fails. -/
def FileReader.Sound (r : FileReader) : Prop := ∀ k off len, r.pread k off len ≠ none

theorem readLoop_error {r : FileReader} {passes k left off : ℕ} {e : Fault}
    (h : r.readLoop passes k left off = .error e) : e = .pread ∧ ¬ r.Sound := by
  fun_induction FileReader.readLoop with grind [FileReader.Sound]

theorem readLoop_ok {r : FileReader} (h : r.Sound) (passes k left off : ℕ) :
    ∃ p, r.readLoop passes k left off = .ok p := by
  cases hread : r.readLoop passes k left off with
  | ok p => exact ⟨p, rfl⟩
  | error e => exact absurd h (readLoop_error hread).2

theorem fillWindow_error {r : FileReader} {n off : ℕ} {w : SourceWindow} {e : Fault}
    (h : fillWindow r n w off = .error e) : e = .pread ∧ ¬ r.Sound := by
  rw [fillWindow] at h
  split at h
  · next hread =>
    cases h
    exact readLoop_error hread
  · cases h

end Rail.Delta
