import Rail.Delta.Reconstruct

/-!
# What a completed diff has counted

The report of a diff and its instructions tell the same: the instructions tile the source, the bytes
of the literals and of the copies are what the report adds for each, and a copy is as long as the
block it names.  None of this rests on the checksums, so it holds whether or not they collide;
whoever follows the instructions counts as the differ did.
-/

namespace Rail.Delta

open List ByteFile

/-- The bytes that the instructions of a kind carry. -/
def bytesOf (kind : Kind) : List Instruction → ℕ
  | [] => 0
  | ins :: is => (if ins.kind = kind then ins.length else 0) + bytesOf kind is

theorem bytesOf_append (kind : Kind) (is js : List Instruction) :
    bytesOf kind (is ++ js) = bytesOf kind is + bytesOf kind js := by
  induction is with
  | nil => exact (Nat.zero_add _).symm
  | cons ins is ih => rw [cons_append, bytesOf, bytesOf, ih, Nat.add_assoc]

/-- The first `n` bytes of the source are sent, counted on top of `before`. -/
structure Tallied (sig : Signature) (before : Report) (o : Outgoing) (n : ℕ) : Prop where
  cursor_eq : o.dstCursor = n
  tiles : Tiles 0 o.emitted n
  copies : ∀ ins ∈ o.emitted, ins.kind = .copy → ins.length = blockLengthAt sig ins.blockIndex
  literal_eq : o.rep.literalBytes = before.literalBytes + bytesOf .literal o.emitted
  matched_eq : o.rep.matchedBytes = before.matchedBytes + bytesOf .copy o.emitted

section Emit

variable {sig : Signature} {before : Report} {sink : List Instruction → Instruction → Bool}
  {o o' : Outgoing} {n : ℕ}

/-- One more instruction at the cursor. -/
theorem Tallied.emitted (h : Tallied sig before o n) {ins : Instruction}
    (hd : ins.dstOffset = o.dstCursor) (hpos : 0 < ins.length)
    (hcopy : ins.kind = .copy → ins.length = blockLengthAt sig ins.blockIndex)
    {emitted : List Instruction} (he : emit sink o ins = .ok emitted) {rep : Report}
    (hl : rep.literalBytes = o.rep.literalBytes + bytesOf .literal [ins])
    (hm : rep.matchedBytes = o.rep.matchedBytes + bytesOf .copy [ins]) :
    Tallied sig before ⟨o.dstCursor + ins.length, rep, emitted⟩ (n + ins.length) := by
  obtain rfl := emit_eq_ok he
  have hat : ins.dstOffset = n := hd.trans h.cursor_eq
  refine ⟨by rw [h.cursor_eq], h.tiles.append_singleton hat hpos,
    forall_mem_append.mpr ⟨h.copies, forall_mem_singleton.mpr hcopy⟩, ?_, ?_⟩
  · rw [hl, h.literal_eq, bytesOf_append, Nat.add_assoc]
  · rw [hm, h.matched_eq, bytesOf_append, Nat.add_assoc]

end Emit

section Diff

variable {strong : List UInt8 → Digest} {sig : Signature} {maxChainLen : ℕ} {src : FileReader}
  {sink : List Instruction → Instruction → Bool} {before : Report}

theorem tallied_account (source : List UInt8) :
    Account strong sig src source sink (Tallied sig before) where
  congr_rep h hl hm :=
    ⟨h.cursor_eq, h.tiles, h.copies, hl.trans h.literal_eq, hm.trans h.matched_eq⟩
  literal h hm _ he :=
    h.emitted rfl hm (fun hk => absurd hk (by simp)) he (by simp [bytesOf]) (by simp [bytesOf])
  copy h hv _ he :=
    h.emitted rfl hv.pos (fun _ => hv.length_eq.symm) he (by simp [bytesOf]) (by simp [bytesOf])

/-- **A completed diff has counted what it sent**, whatever the reader answers and the sums say. -/
theorem diff_tallied {fuel : ℕ} {o : Outgoing}
    (h : diff strong sig maxChainLen src sink before fuel = .ok o) :
    Tallied sig before o src.size :=
  diff_account (tallied_account []) ⟨rfl, rfl, nofun, rfl, rfl⟩ h

end Diff

end Rail.Delta
