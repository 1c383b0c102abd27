import Rail.Delta.Bounds

/-!
# A file that has not changed costs no literal bytes

The source is the basis.  As long as every pass finds a block, the scan stands on a block boundary
(`Aligned`), and there the window is a block of the basis.  The lookup finds it if the chain of its
bucket is walked to the end: an entry of the table leads to every block of its bucket (`Follows`),
and the bucket is not longer than the walk may be.  What is left is the short final block, which
`matchFinalBlock` looks at by itself.

The entries are `int32_t`.  There are `2 ^ 16` buckets that a weak sum can name, so buckets of at
most `2 ^ 15` blocks keep every index in range.  The program's limit is 32.
-/

namespace Rail.Delta

open List Option Function ByteFile

/-! ## Chains -/

/-- The bucket of a block. -/
def bucketOf (tableSize : ℕ) (s : BlockSum) : ℕ := (weakHash s.weak).toNat % tableSize

/-- From this entry the chain leads through these blocks, and ends. -/
def Follows (chain : ℕ → ℤ) : ℤ → List ℕ → Prop
  | i, [] => i < 0
  | i, k :: l => i = k ∧ Follows chain (chain k) l

theorem Follows.update {chain : ℕ → ℤ} {i x : ℤ} {l : List ℕ} {n : ℕ} (h : Follows chain i l)
    (hl : ∀ k ∈ l, k < n) : Follows (Function.update chain n x) i l := by
  induction l generalizing i with
  | nil => exact h
  | cons k l ih =>
    refine ⟨h.1, ?_⟩
    rw [update_of_ne (Nat.ne_of_lt (hl k mem_cons_self))]
    exact ih h.2 fun j hj => hl j (mem_cons_of_mem _ hj)

theorem insertSums_concat (size : ℕ) (l : List BlockSum) (s : BlockSum) (i : ℕ)
    (tc : (ℕ → ℤ) × (ℕ → ℤ)) : insertSums size (l ++ [s]) i tc =
      (Function.update (insertSums size l i tc).1 (bucketOf size s) (int32 (i + l.length)),
        Function.update (insertSums size l i tc).2 (i + l.length)
        ((insertSums size l i tc).1 (bucketOf size s))) := by
  induction l generalizing i tc with
  | nil => rfl
  | cons s' l ih =>
    rw [cons_append, insertSums, ih, insertSums, length_cons, Nat.add_right_comm]
    rfl

/-- By induction on the sums: the last one is at the front of its bucket's chain. -/
theorem insertSums_follows {size : ℕ} {l : List BlockSum} (hmax : l.length ≤ 2 ^ 31) :
    ∃ buckets : ℕ → List ℕ, ∀ t, Follows (insertSums size l 0 (fun _ => -1, fun _ => -1)).2
    ((insertSums size l 0 (fun _ => -1, fun _ => -1)).1 t) (buckets t) ∧
      (buckets t).length = l.countP (bucketOf size · = t) ∧
        ∀ k, k ∈ buckets t ↔ ∃ s, l[k]? = some s ∧ bucketOf size s = t := by
  induction l using List.reverseRecOn with
  | nil => exact ⟨fun _ => [], fun t => ⟨(by decide : (-1 : ℤ) < 0), rfl, by simp⟩⟩
  | append_singleton l s ih =>
    rw [length_append, length_singleton] at hmax
    obtain ⟨buckets, h⟩ := ih (by omega)
    refine ⟨Function.update buckets (bucketOf size s) (l.length :: buckets (bucketOf size s)),
      fun t => ?_⟩
    obtain ⟨hf, hlen, hmem⟩ := h t
    have hlt : ∀ k ∈ buckets t, k < l.length := by
      intro k hk
      obtain ⟨s', hs', -⟩ := (hmem k).mp hk
      exact (List.getElem?_eq_some_iff.mp hs').1
    rw [insertSums_concat, Nat.zero_add, countP_append, ← hlen]
    dsimp only
    by_cases ht : t = bucketOf size s
    · subst ht
      rw [update_self, update_self]
      refine ⟨⟨bmod_of_lt (by omega), ?_⟩, by simp, fun k => ?_⟩
      · rw [update_self]
        exact hf.update hlt
      · grind
    · rw [update_of_ne ht, update_of_ne ht]
      exact ⟨hf.update hlt, by simp [Ne.symm ht], fun k => by grind⟩

/-- So many buckets hold so many blocks. -/
theorem length_le_of_buckets {size limit : ℕ} (bound : ℕ) {l : List BlockSum}
    (hbound : ∀ s ∈ l, bucketOf size s < bound)
    (hfew : ∀ t, l.countP (bucketOf size · = t) ≤ limit) : l.length ≤ bound * limit := by
  induction bound generalizing l with
  | zero =>
    cases l with
    | nil => exact Nat.zero_le _
    | cons s l => exact absurd (hbound s mem_cons_self) (Nat.not_lt_zero _)
  | succ bound ih =>
    have hrest := @ih (l.filter fun s => ¬ bucketOf size s = bound) (fun s hs => ?_)
      fun t => (filter_sublist.countP_le).trans (hfew t)
    · have hsplit := @length_eq_countP_add_countP _ (bucketOf size · = bound) l
      have hlast := hfew bound
      rw [← countP_eq_length_filter] at hrest
      simp only [decide_eq_true_eq] at hsplit
      rw [Nat.succ_mul]
      omega
    · obtain ⟨hs, hne⟩ := mem_filter.mp hs
      have hlt := hbound s hs
      have hne : bucketOf size s ≠ bound := by simpa using hne
      omega

section Lookup

variable {strong : List UInt8 → Digest} {sig : Signature} {limit : ℕ} {weak : UInt32}
  {win : List UInt8} {wantI : ℤ}

/-- A chain that is walked to its end gives a block, if it has one that agrees. -/
theorem lookupChain_finds {ht : HashTable} (hlen : sig.strongLength ≤ 16) {l : List ℕ}
    {budget alarms : ℕ} {i best : ℤ} (hf : Follows ht.chain i l) (hl : ∀ k ∈ l, k < sig.sums.length)
    (hbudget : l.length ≤ budget) (hhit : 0 ≤ best ∨ ∃ k ∈ l, SumsAgree strong sig weak win k) :
    ∃ r, lookupChain strong sig ht wantI weak win budget i best alarms = .ok r ∧ 0 ≤ r.1 := by
  induction l generalizing budget i best alarms with
  | nil =>
    have hbest : 0 ≤ best :=
      hhit.resolve_right (by simp only [not_mem_nil, false_and, exists_false, not_false_eq_true])
    cases budget with
    | zero => exact ⟨_, rfl, hbest⟩
    | succ budget =>
      rw [lookupChain, if_pos (show i < 0 from hf)]
      exact ⟨_, rfl, hbest⟩
  | cons k l ih =>
    obtain ⟨rfl, hf⟩ := hf
    cases budget with
    | zero => exact absurd hbudget (Nat.not_succ_le_zero _)
    | succ budget =>
      have hk : sig.sums[k]? = some _ := getElem?_eq_getElem (hl k mem_cons_self)
      have hgo := fun {best alarms} => @ih budget alarms (ht.chain k) best hf
        (fun j hj => hl j (mem_cons_of_mem _ hj)) (Nat.le_of_succ_le_succ hbudget)
      have hrest : ¬ SumsAgree strong sig weak win k → 0 ≤ best ∨ ∃ j ∈ l,
          SumsAgree strong sig weak win j := by
        refine fun hnot => hhit.imp_right (Exists.imp fun j h => ⟨?_, h.2⟩)
        obtain ⟨hj, hagree⟩ := h
        exact (mem_cons.mp hj).resolve_left fun heq => hnot (heq ▸ hagree)
      rw [lookupChain, if_neg (by omega), Int.toNat_natCast, hk]
      dsimp only
      split
      next hweak =>
        refine hgo (hrest fun h => ?_)
        obtain ⟨s, hs, hw, -⟩ := h.sum
        exact hweak (mem_unique hk hs ▸ hw)
      split
      next hlength => exact hgo (hrest fun h => hlength h.length_eq)
      rw [strongMatches, if_pos hlen]
      cases hm : (strong win).toList.take sig.strongLength == _ with
      | false =>
        refine hgo (hrest fun h => ?_)
        obtain ⟨s, hs, -, hstrong⟩ := h.sum
        rw [hstrong, ← mem_unique hk hs, beq_self_eq_true] at hm
        cases hm
      | true =>
        dsimp only
        split_ifs
        · exact ⟨_, rfl, Int.natCast_nonneg k⟩
        · exact hgo (.inl (Int.natCast_nonneg k))
        · exact hgo (.inl (by omega))

/-- **A block of a bucket that is short enough is found.** -/
theorem lookup_finds (hsums : sig.sums.length ≤ 2 ^ 31) (hlen : sig.strongLength ≤ 16)
    (hfew : ∀ t, sig.sums.countP (bucketOf (buildHashTable sig).tableSize · = t) ≤ limit) {j : ℕ}
    (hj : SumsAgree strong sig weak win j) (rep : Report) :
    ∃ r, lookup strong sig limit (buildHashTable sig) wantI weak win rep = .ok r ∧ 0 ≤ r.1 := by
  obtain ⟨s, hs, rfl, -⟩ := hj.sum
  obtain ⟨buckets, hbuckets⟩ := @insertSums_follows (buildHashTable sig).tableSize _ hsums
  obtain ⟨hfollows, hlength, hmem⟩ :=
    hbuckets ((weakHash s.weak).toNat % (buildHashTable sig).tableSize)
  have hin := (hmem j).mpr ⟨s, hs, rfl⟩
  have hbelow : ∀ k ∈ buckets _, k < sig.sums.length := fun k hk =>
    have ⟨s, hs, _⟩ := (hmem k).mp hk
    (List.getElem?_eq_some_iff.mp hs).1
  obtain ⟨r, hr, hpos⟩ :=
    @lookupChain_finds strong sig s.weak win wantI (buildHashTable sig) hlen _ limit 0
    ((buildHashTable sig).table _) (-1) hfollows hbelow (hlength.trans_le (hfew _))
      (.inr ⟨j, hin, hj⟩)
  have htable : ¬ (buildHashTable sig).table
      ((weakHash s.weak).toNat % (buildHashTable sig).tableSize) < 0 := by
    intro hneg
    cases hb : buckets ((weakHash s.weak).toNat % (buildHashTable sig).tableSize) with
    | nil =>
      rw [hb] at hin
      exact not_mem_nil hin
    | cons k l =>
      rw [hb] at hfollows
      have hk : (buildHashTable sig).table _ = k := hfollows.1
      omega
  rw [lookup, if_neg htable, hr]
  exact ⟨_, rfl, hpos⟩

end Lookup

/-! ## The scan stays on block boundaries -/

/-- If there is an outcome, this holds of it; and there is one if nothing fails. -/
def Carried {α : Type} (sure : Prop) (post : α → Prop) : Except Fault α → Prop
  | .ok a => post a
  | .error _ => ¬ sure

theorem Carried.mono {α : Type} {sure sure' : Prop} {p q : α → Prop} {x : Except Fault α}
    (h : Carried sure p x) (hp : ∀ a, p a → q a) (hsure : sure' → sure) : Carried sure' q x := by
  cases x with
  | ok a => exact hp a h
  | error e => exact fun hs => h (hsure hs)

@[elab_as_elim]
theorem Carried.elim {α : Type} {sure : Prop} {p : α → Prop} {motive : Except Fault α → Prop}
    {x : Except Fault α} (h : Carried sure p x) (ok : ∀ a, p a → motive (.ok a))
    (error : ∀ e, ¬ sure → motive (.error e)) : motive x := by
  cases x with
  | ok a => exact ok a h
  | error e => exact error e h

/-- No read fails, and the sink takes everything. -/
def Sure (src : FileReader) (sink : List Instruction → Instruction → Bool) : Prop :=
  (∀ k off len, src.pread k off len ≠ none) ∧ ∀ taken ins, sink taken ins = true

/-- Nothing but copies has been emitted. -/
def Copies (rep : Report) (o : Outgoing) : Prop :=
  (∀ ins ∈ o.emitted, ins.kind = .copy) ∧ o.rep.literalBytes = rep.literalBytes

/-- The scan stands at the start of a block, and everything before it has been copied. -/
structure Aligned (sig : Signature) (f : List UInt8) (rep : Report) (j : ℕ) (c : Scan) : Prop where
  offset_eq : j * sig.blockLength = c.offset
  last_eq : c.lastMatch = c.offset
  fits : c.offset ≤ f.length
  stale_eq : c.stale = true
  covers : Covers f c.win
  window_eq : c.win.window.length = min kMaxWindow f.length
  copies : Copies rep c.out

section Scan

variable {strong : List UInt8 → Digest} {sig : Signature} {limit : ℕ} {f : List UInt8}
  {src : FileReader} {sink : List Instruction → Instruction → Bool} {rep : Report}

theorem emitCopy_carried {o : Outgoing} (ho : Copies rep o) (i : ℤ) (off : ℕ) (bytes : List UInt8) :
    Carried (Sure src sink) (Copies rep) (emitCopy sink i off bytes o) := by
  rw [emitCopy, emit]
  by_cases hsink : sink o.emitted ⟨.copy, i.toNat, off, o.dstCursor, bytes.length, bytes⟩ = true
  · rw [if_pos hsink]
    exact ⟨forall_mem_append.mpr ⟨ho.1, forall_mem_singleton.mpr rfl⟩, ho.2⟩
  · rw [if_neg hsink]
    exact fun hsure => hsink (hsure.2 _ _)

variable (hsrc : src.Holds f)
include hsrc

theorem read_carried (k want off : ℕ) :
    Carried (Sure src sink) (fun p => p.1 = slice f off want) (src.read k want off) := by
  cases hread : src.read k want off with
  | ok p => exact FileReader.read_eq_slice hsrc hread
  | error e =>
    intro hsure
    obtain ⟨p, hp⟩ := readLoop_ok hsure.1 want k want off
    rw [FileReader.read, hp] at hread
    cases hread

theorem fillWindow_carried {w : SourceWindow} (hw : Covers f w) (off : ℕ) :
    Carried (Sure src sink) (fun w' => Covers f w' ∧ w'.base = off ∧
      w'.window.length = w.window.length ∧
      w'.len = min w.window.length (f.length - off)) (fillWindow src f.length w off) := by
  cases hfill : fillWindow src f.length w off with
  | ok w' => exact fillWindow_covers hsrc hw hfill
  | error e =>
    have hread : Carried (Sure src sink) _
      (src.read w.calls (min w.window.length (f.length - off)) off) :=
      read_carried hsrc _ _ _
    rw [fillWindow] at hfill
    split at hfill
    · next hr =>
      rw [hr] at hread
      exact hread
    · cases hfill

/-- Over a whole block of the source. -/
theorem ensureWindow_carried {w : SourceWindow} {b off : ℕ} (hw : Covers f w)
    (hsize : b ≤ w.window.length) (hend : off + b ≤ f.length) : Carried (Sure src sink)
      (fun w' => Covers f w' ∧ w'.window.length = w.window.length ∧
      span w'.window (off - w'.base) b =
      .ok (slice f off b)) (ensureWindow src b f.length w off) := by
  rw [ensureWindow, Nat.min_eq_left hend]
  split_ifs with hin
  · have hle := hw.len_le
    refine ⟨hw, rfl, ?_⟩
    rw [span, if_pos (by omega), hw.slice hin.1 hin.2]
  · refine (fillWindow_carried hsrc hw off).mono ?_ id
    rintro w' ⟨hc, hbase, hlength, hlen⟩
    refine ⟨hc, hlength, ?_⟩
    rw [span, if_pos (by omega), hc.slice hbase.le (by omega)]

variable (hf : f.length < 2 ^ 64) (hsig : SignatureOf strong f sig) (hb : 0 < sig.blockLength)
  (hlen : sig.strongLength ≤ 16) (hsums : sig.sums.length ≤ 2 ^ 31)
  (hwindow : sig.blockLength ≤ kMaxWindow)
  (hfew : ∀ t, sig.sums.countP (bucketOf (buildHashTable sig).tableSize · = t) ≤ limit)

include hf hsig hb hlen hsums

variable {c : Scan} {j : ℕ}

/-- The short final block is where the scan ended. -/
theorem finish_aligned (hc : Aligned sig f rep j c) (hend : f.length < c.offset + sig.blockLength) :
    Carried (Sure src sink) (Copies rep) (finish strong sig src sink f.length c) := by
  rw [finish, hc.last_eq]
  split_ifs with hleft
  · have hs := hsig.sums_getElem? hb j
    have hnone := hsig.sums_getElem? hb (j + 1)
    rw [hc.offset_eq, if_pos hleft] at hs
    rw [Nat.succ_mul, hc.offset_eq, if_neg (Nat.not_lt.mpr hend.le)] at hnone
    have hlast : (sig.sums.length - 1) % 0x100000000 = j := by
      have hlt := (List.getElem?_eq_some_iff.mp hs).1
      have hge := List.getElem?_eq_none_iff.mp hnone
      omega
    have hlength : blockLengthAt sig j = f.length - c.offset := by
      rw [hsig.blockLengthAt_eq hf hb hs, hc.offset_eq]
      omega
    have hslice : slice f c.offset (f.length - c.offset) = slice f c.offset sig.blockLength := by
      rw [slice, slice, take_eq_take_iff, length_drop]
      omega
    have hfull : (slice f c.offset sig.blockLength).length = f.length - c.offset := by
      rw [← hslice, length_slice, Nat.min_self]
    have hshort : ¬ (f.length - c.offset = 0 ∨ sig.blockLength ≤ f.length - c.offset ∨
        f.length < f.length - c.offset) := by
      omega
    have hread : Carried (Sure src sink) _ (src.read c.win.calls (f.length - c.offset) c.offset) :=
      read_carried hsrc _ _ _
    rw [matchFinalBlock]
    simp only [hlast, hlength, if_neg hshort, Nat.sub_sub_self hleft.le, lt_self_iff_false,
      if_false]
    refine hread.elim (fun p hp => ?_) fun _ he => he
    obtain ⟨view, calls⟩ := p
    obtain rfl : view = _ := hp.trans hslice
    simp only [hfull, ne_eq, not_true_eq_false, if_false, hs, blockSum, strongMatches, if_pos hlen,
      beq_self_eq_true, emitGap, lt_self_iff_false]
    exact (emitCopy_carried hc.copies _ _ _).elim (fun _ ho => ho) fun _ he => he
  · exact hc.copies

include hwindow hfew

/-- **A pass finds the block it stands on**, and stands on the next one. -/
theorem scanStep_aligned (hc : Aligned sig f rep j c)
    (hend : c.offset + sig.blockLength ≤ f.length) : Carried (Sure src sink)
      (fun next => ∃ c', next = .inr c' ∧ Aligned sig f rep (j + 1) c' ∧
      c'.offset = c.offset +
      sig.blockLength) (scanStep strong sig limit src sink (buildHashTable sig) f.length c) := by
  have hs := hsig.sums_getElem? hb j
  rw [hc.offset_eq, if_pos (by omega)] at hs
  have hfull : (slice f c.offset sig.blockLength).length = sig.blockLength := by
    rw [length_slice]
    omega
  have hagrees : SumsAgree strong sig (weakChecksum (slice f c.offset sig.blockLength))
      (slice f c.offset sig.blockLength) j := by
    refine ⟨?_, _, hs, rfl, rfl⟩
    rw [hsig.blockLengthAt_eq hf hb hs, hfull, hc.offset_eq]
    omega
  rw [scanStep]
  refine (ensureWindow_carried hsrc hc.covers (by rw [hc.window_eq]; omega) hend).elim ?_
    fun _ he => he
  rintro win ⟨hcovers, hsize, hview⟩
  obtain ⟨⟨i, rep'⟩, hlook, hpos⟩ :=
    @lookup_finds strong sig limit _ _ c.wantI hsums hlen hfew j hagrees c.out.rep
  obtain ⟨hagree, hliteral, -⟩ := lookup_sound hlook
  have hlength : blockLengthAt sig i.toNat = sig.blockLength := (hagree hpos).length_eq.trans hfull
  simp only [hview, hc.stale_eq, if_true, hlook, if_neg (not_lt.mpr hpos), scanMatched, hc.last_eq,
    emitGap, lt_self_iff_false, if_false, hlength]
  have hout : Copies rep { c.out with rep := rep' } := ⟨hc.copies.1, hliteral.trans hc.copies.2⟩
  refine (emitCopy_carried hout _ _ _).elim (fun o ho => ?_) fun _ he => he
  refine ⟨_, rfl, ⟨?_, rfl, hend, rfl, hcovers, hsize.trans hc.window_eq, ho⟩, rfl⟩
  rw [Nat.succ_mul, hc.offset_eq]

/-- By induction on the passes. -/
theorem scanLoop_aligned {fuel : ℕ} (hc : Aligned sig f rep j c) :
    Carried (Sure src sink ∧ f.length < c.offset + fuel)
      (fun c' => ∃ j', Aligned sig f rep j' c' ∧ f.length < c'.offset + sig.blockLength)
      (scanLoop strong sig limit src sink (buildHashTable sig) f.length fuel c) := by
  induction fuel generalizing j c with
  | zero => exact fun h => absurd h.2 (Nat.not_lt.mpr hc.fits)
  | succ fuel ih =>
    rw [scanLoop]
    split_ifs with hend
    · refine (scanStep_aligned hsrc hf hsig hb hlen hsums hwindow hfew hc hend).elim ?_
        fun _ he h => he h.1
      rintro _ ⟨c', rfl, hc', hoffset⟩
      refine (ih hc').mono (fun _ h => h) fun h => ⟨h.1, ?_⟩
      rw [hoffset]
      have hpos := h.2
      omega
    · exact ⟨j, hc, by omega⟩

theorem diff_carried (hfits : sig.blockLength ≤ f.length) (fuel : ℕ) :
    Carried (Sure src sink ∧ f.length < fuel) (Copies rep)
    (diff strong sig limit src sink rep fuel) := by
  have hscan : ¬ (sig.sums.isEmpty ∨ sig.blockLength = 0 ∨ f.length < sig.blockLength) := by
    have hs := hsig.sums_getElem? hb 0
    rw [Nat.zero_mul, if_pos (by omega)] at hs
    rintro (h | h)
    · rw [List.isEmpty_iff.mp h] at hs
      cases hs
    · omega
  rw [diff, hsrc.size_eq]
  simp only [if_neg hscan]
  refine (fillWindow_carried hsrc (Covers.empty f _) 0).elim ?_ fun _ he h => he h.1
  rintro win ⟨hcovers, -, hsize, -⟩
  have hstart : Aligned sig f rep 0 ⟨0, 0, 0, true, 0, win, ⟨0, rep, []⟩⟩ :=
    ⟨Nat.zero_mul _, rfl, Nat.zero_le _, rfl, hcovers, by rw [hsize, length_replicate],
      ⟨fun _ h => absurd h not_mem_nil, rfl⟩⟩
  dsimp only
  refine (scanLoop_aligned hsrc hf hsig hb hlen hsums hwindow hfew hstart).elim ?_ fun _ he h => ?_
  · rintro c ⟨j, hc, hend⟩
    exact (finish_aligned hsrc hf hsig hb hlen hsums hc hend).mono (fun _ h => h) fun h => h.1
  · exact he ⟨h.1, h.2.trans_eq (Nat.zero_add _).symm⟩

end Scan

end Rail.Delta
