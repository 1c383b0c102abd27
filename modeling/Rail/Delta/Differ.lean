import Rail.Delta.Signature

/-!
# The differ

`src/app/differ.cc`: it consumes a signature and a source file and hands instructions to
a sink, in file order.  The object's fields are split by what changes them: the hash
table is fixed once it is built (`HashTable`), a window of the source is refilled by
reads (`SourceWindow`), and the destination cursor, the report and the instructions the
sink has taken change together (`Outgoing`).

Every place where the code can stop without completing is a `Fault`: a failing read, a
sink that refuses an instruction, and a read outside the window or outside a digest,
which the language leaves undefined.  The scan is followed for a given number of passes
(`scanLoop`); a run that needs more is `unfinished`, which is not a completion.
-/

namespace Rail.Delta

open ByteFile

/-- `kMaxWindow`: what of the source is held in memory. -/
def kMaxWindow : ℕ := 0x400000

/-- `Instruction::Kind`. -/
inductive Kind where
  | copy
  | literal
  deriving DecidableEq

/-- `Instruction`. -/
structure Instruction where
  kind : Kind
  blockIndex : ℕ := 0
  srcOffset : ℕ
  dstOffset : ℕ
  length : ℕ
  bytes : List UInt8 := []
  deriving DecidableEq

/-- The counters of `Report` that the differ keeps. -/
structure Report where
  literalBytes : ℕ := 0
  matchedBytes : ℕ := 0
  hashHits : ℕ := 0
  falseAlarms : ℕ := 0
  deriving DecidableEq

/-- `TableSize`, `HashTable` and `Chain`.  Entries are `int32_t`; the vectors are read as
functions, since every index is reduced or checked before it is used. -/
structure HashTable where
  tableSize : ℕ
  table : ℕ → ℤ
  chain : ℕ → ℤ

/-- `Window`, `WindowBase` and `WindowLen`, and the number of `pread` calls made so far. -/
structure SourceWindow where
  window : List UInt8
  base : ℕ
  len : ℕ
  calls : ℕ

/-- `DstCursor`, the report and what the sink has taken, oldest first. -/
structure Outgoing where
  dstCursor : ℕ
  rep : Report
  emitted : List Instruction
  deriving DecidableEq

/-- `{Window.data() + At, Length}`, which must lie inside the vector. -/
def span (w : List UInt8) (off len : ℕ) : Except Fault (List UInt8) :=
  if off + len ≤ w.length then .ok (slice w off len) else .error .outOfBounds

theorem span_eq_ok {w : List UInt8} {off len : ℕ} {v : List UInt8}
    (h : span w off len = .ok v) : off + len ≤ w.length ∧ v = slice w off len := by
  rw [span] at h
  split_ifs at h with hle
  exact ⟨hle, (Except.ok.inj h).symm⟩

/-! ## The hash table -/

/-- `static_cast<int32_t>(I)`. -/
def int32 (i : ℕ) : ℤ := Int.bmod i 0x100000000

/-- The loop of `buildHashTable` over the sums from index `i` on. -/
def insertSums (tableSize : ℕ) : (sums : List BlockSum) → (i : ℕ) →
    (ℕ → ℤ) × (ℕ → ℤ) → (ℕ → ℤ) × (ℕ → ℤ)
  | [], _, tc => tc
  | s :: sums, i, (table, chain) =>
    let t := (weakHash s.weak).toNat % tableSize
    insertSums tableSize sums (i + 1)
      (Function.update table t (int32 i), Function.update chain i (table t))

/-- `buildHashTable`: about 80% load, and never fewer than `2 ^ 16` buckets. -/
def buildHashTable (sig : Signature) : HashTable :=
  let wanted := (sig.sums.length / 8 % 0x100000000 * 10 + 11) % 0x100000000
  let tableSize := if wanted < 0x10000 then 0x10000 else wanted
  let tc := insertSums tableSize sig.sums 0 (fun _ => -1, fun _ => -1)
  ⟨tableSize, tc.1, tc.2⟩

section Lookup

variable (strong : List UInt8 → Digest) (sig : Signature)

/-- `memcmp(Strong, Sums[Idx].Strong, StrongLength) == 0`; comparing past the sixteen
bytes of a digest is out of bounds. -/
def strongMatches (a b : Digest) (strongLength : ℕ) : Except Fault Bool :=
  if strongLength ≤ 16 then .ok (a.toList.take strongLength == b.toList.take strongLength)
  else .error .outOfBounds

/-- The loop of `lookup` from chain entry `i` on, with `budget` entries left of
`MaxChainLen`.  It returns the block and the false alarms it met. -/
def lookupChain (ht : HashTable) (wantI : ℤ) (weak : UInt32) (win : List UInt8) :
    (budget : ℕ) → (i best : ℤ) → (alarms : ℕ) → Except Fault (ℤ × ℕ)
  | 0, _, best, alarms => .ok (best, alarms)
  | budget + 1, i, best, alarms =>
    if i < 0 then .ok (best, alarms)
    else
      match sig.sums[i.toNat]? with
      | none => .error .outOfBounds
      | some s =>
        if s.weak ≠ weak then
          lookupChain ht wantI weak win budget (ht.chain i.toNat) best alarms
        else if blockLengthAt sig i.toNat ≠ win.length then
          lookupChain ht wantI weak win budget (ht.chain i.toNat) best alarms
        else
          match strongMatches (strong win) s.strong sig.strongLength with
          | .error e => .error e
          | .ok false =>
            lookupChain ht wantI weak win budget (ht.chain i.toNat) best (alarms + 1)
          | .ok true =>
            -- the block that continues the previous match wins, else the first one
            if i = wantI then .ok (i, alarms)
            else lookupChain ht wantI weak win budget (ht.chain i.toNat)
              (if best < 0 then i else best) alarms

/-- `Differ::lookup`: the block that matches the window, or `-1`. -/
def lookup (maxChainLen : ℕ) (ht : HashTable) (wantI : ℤ) (weak : UInt32) (win : List UInt8)
    (rep : Report) : Except Fault (ℤ × Report) :=
  let i := ht.table ((weakHash weak).toNat % ht.tableSize)
  if i < 0 then .ok (-1, rep)
  else
    match lookupChain strong sig ht wantI weak win maxChainLen i (-1) 0 with
    | .error e => .error e
    | .ok (best, alarms) =>
      .ok (best, { rep with hashHits := rep.hashHits + 1, falseAlarms := rep.falseAlarms + alarms })

end Lookup

/-! ## The window -/

section Window

variable (src : FileReader)

/-- `Differ::fillWindow`. -/
def fillWindow (sourceLen : ℕ) (w : SourceWindow) (at_ : ℕ) : Except Fault SourceWindow :=
  match src.read w.calls (min w.window.length (sourceLen - at_)) at_ with
  | .error e => .error e
  | .ok (got, calls) => .ok ⟨got ++ w.window.drop got.length, at_, got.length, calls⟩

/-- `Differ::ensureWindow`: refill only when the window no longer covers the block. -/
def ensureWindow (blockLength sourceLen : ℕ) (w : SourceWindow) (at_ : ℕ) :
    Except Fault SourceWindow :=
  let need := min (at_ + blockLength) sourceLen
  if w.base ≤ at_ ∧ need ≤ w.base + w.len then .ok w
  else fillWindow src sourceLen w at_

end Window

/-! ## Emitting -/

section Emit

variable (sink : List Instruction → Instruction → Bool)

/-- Hand one instruction to the sink. -/
def emit (o : Outgoing) (ins : Instruction) : Except Fault (List Instruction) :=
  if sink o.emitted ins then .ok (o.emitted ++ [ins]) else .error .sink

/-- The loop of `emitLiteral`.  Every pass takes at least a byte of `length`, so
`length` passes are enough. -/
def emitLiteralLoop : (passes : ℕ) → (offset length : ℕ) → Outgoing → Except Fault Outgoing
  | 0, _, _, o => .ok o
  | passes + 1, offset, length, o =>
    if length = 0 then .ok o
    else
      let n := min length kMaxWindow
      match emit sink o ⟨.literal, 0, offset, o.dstCursor, n, []⟩ with
      | .error e => .error e
      | .ok emitted =>
        emitLiteralLoop passes (offset + n) (length - n)
          ⟨o.dstCursor + n, { o.rep with literalBytes := o.rep.literalBytes + n }, emitted⟩

/-- `Differ::emitLiteral`. -/
def emitLiteral (offset length : ℕ) (o : Outgoing) : Except Fault Outgoing :=
  emitLiteralLoop sink length offset length o

/-- `Differ::emitCopy`. -/
def emitCopy (index : ℤ) (srcOffset : ℕ) (bytes : List UInt8) (o : Outgoing) :
    Except Fault Outgoing :=
  match emit sink o ⟨.copy, index.toNat, srcOffset, o.dstCursor, bytes.length, bytes⟩ with
  | .error e => .error e
  | .ok emitted =>
    .ok ⟨o.dstCursor + bytes.length,
      { o.rep with matchedBytes := o.rep.matchedBytes + bytes.length }, emitted⟩

end Emit

/-! ## The scan -/

section Diff

variable (strong : List UInt8 → Digest) (sig : Signature) (maxChainLen : ℕ) (src : FileReader)
  (sink : List Instruction → Instruction → Bool)

/-- The locals of the scan and the fields it changes. -/
structure Scan where
  offset : ℕ
  lastMatch : ℕ
  weak : UInt32
  stale : Bool
  wantI : ℤ
  win : SourceWindow
  out : Outgoing

/-- `if (Offset > LastMatch) emitLiteral(...)`. -/
def emitGap (lastMatch offset : ℕ) (o : Outgoing) : Except Fault Outgoing :=
  if lastMatch < offset then emitLiteral sink lastMatch (offset - lastMatch) o else .ok o

/-- The part of a pass after a block has matched. -/
def scanMatched (c : Scan) (win : SourceWindow) (i : ℤ) (rep : Report) : Except Fault Scan :=
  match emitGap sink c.lastMatch c.offset { c.out with rep } with
  | .error e => .error e
  | .ok o =>
    let matched := blockLengthAt sig i.toNat
    match span win.window (c.offset - win.base) matched with
    | .error e => .error e
    | .ok bytes =>
      match emitCopy sink i c.offset bytes o with
      | .error e => .error e
      | .ok o =>
        .ok ⟨c.offset + matched, c.offset + matched, c.weak, true, i + 1, win, o⟩

/-- The part of a pass after nothing has matched: roll one byte, refilling first when
the incoming byte lies past the window.  `none` leaves the loop. -/
def scanMissed (sourceLen : ℕ) (c : Scan) (win : SourceWindow) (weak : UInt32) (rep : Report) :
    Except Fault (Option Scan) :=
  let w := c.offset - win.base
  if sourceLen ≤ c.offset + sig.blockLength then .ok none
  else if win.len ≤ w + sig.blockLength then
    match fillWindow src sourceLen win c.offset with
    | .error e => .error e
    | .ok win => .ok (some ⟨c.offset, c.lastMatch, weak, true, c.wantI, win, { c.out with rep }⟩)
  else
    match win.window[w]?, win.window[w + sig.blockLength]? with
    | some leaves, some enters =>
      .ok (some ⟨c.offset + 1, c.lastMatch,
        rollWeak weak leaves enters (UInt32.ofNat sig.blockLength), false, c.wantI, win,
        { c.out with rep }⟩)
    | _, _ => .error .outOfBounds

/-- One pass of the `while` loop.  `inl` leaves the loop, `inr` goes round it. -/
def scanStep (ht : HashTable) (sourceLen : ℕ) (c : Scan) : Except Fault (Scan ⊕ Scan) :=
  match ensureWindow src sig.blockLength sourceLen c.win c.offset with
  | .error e => .error e
  | .ok win =>
    match span win.window (c.offset - win.base) sig.blockLength with
    | .error e => .error e
    | .ok view =>
      let weak := if c.stale then weakChecksum view else c.weak
      match lookup strong sig maxChainLen ht c.wantI weak view c.out.rep with
      | .error e => .error e
      | .ok (i, rep) =>
        if i < 0 then
          match scanMissed sig src sourceLen c win weak rep with
          | .error e => .error e
          | .ok none => .ok (.inl { c with win, out := { c.out with rep } })
          | .ok (some c) => .ok (.inr c)
        else
          match scanMatched sig sink c win i rep with
          | .error e => .error e
          | .ok c => .ok (.inr c)

/-- The `while` loop, followed for at most `fuel` passes. -/
def scanLoop (ht : HashTable) (sourceLen : ℕ) : (fuel : ℕ) → Scan → Except Fault Scan
  | 0, _ => .error .unfinished
  | fuel + 1, c =>
    if c.offset + sig.blockLength ≤ sourceLen then
      match scanStep strong sig maxChainLen src sink ht sourceLen c with
      | .error e => .error e
      | .ok (.inl c) => .ok c
      | .ok (.inr c) => scanLoop ht sourceLen fuel c
    else .ok c

/-- `Differ::matchFinalBlock`: the short final block of the basis, which can only match
where the remaining source length equals its own.  `true` when it matched. -/
def matchFinalBlock (sourceLen from_ calls : ℕ) (o : Outgoing) : Except Fault (Bool × Outgoing) :=
  let lastIdx := (sig.sums.length - 1) % 0x100000000
  let lastLen := blockLengthAt sig lastIdx
  if lastLen = 0 ∨ sig.blockLength ≤ lastLen ∨ sourceLen < lastLen then .ok (false, o)
  else
    let at_ := sourceLen - lastLen
    if at_ < from_ then .ok (false, o)
    else
      match src.read calls lastLen at_ with
      | .error e => .error e
      | .ok (view, _) =>
        if view.length ≠ lastLen then .ok (false, o)
        else
          match sig.sums[lastIdx]? with
          | none => .error .outOfBounds
          | some s =>
            if weakChecksum view ≠ s.weak then .ok (false, o)
            else
              match strongMatches (strong view) s.strong sig.strongLength with
              | .error e => .error e
              | .ok false => .ok (false, o)
              | .ok true =>
                match emitGap sink from_ at_ o with
                | .error e => .error e
                | .ok o =>
                  match emitCopy sink lastIdx at_ view o with
                  | .error e => .error e
                  | .ok o => .ok (true, o)

/-- What `diff` does after the scan: the final block, then the literal that is left. -/
def finish (sourceLen : ℕ) (c : Scan) : Except Fault Outgoing :=
  if c.lastMatch < sourceLen then
    match matchFinalBlock strong sig src sink sourceLen c.lastMatch c.win.calls c.out with
    | .error e => .error e
    | .ok (true, o) => .ok o
    | .ok (false, o) => emitLiteral sink c.lastMatch (sourceLen - c.lastMatch) o
  else .ok c.out

/-- `Differ::diff`, adding to the report it is handed; its scan is followed for at most
`fuel` passes. -/
def diff (rep : Report) (fuel : ℕ) : Except Fault Outgoing :=
  let sourceLen := src.size
  let o : Outgoing := ⟨0, rep, []⟩
  if sig.sums.isEmpty ∨ sig.blockLength = 0 ∨ sourceLen < sig.blockLength then
    emitLiteral sink 0 sourceLen o
  else
    let ht := buildHashTable sig
    let w : SourceWindow := ⟨List.replicate (min kMaxWindow sourceLen) 0, 0, 0, 0⟩
    match fillWindow src sourceLen w 0 with
    | .error e => .error e
    | .ok win =>
      match scanLoop strong sig maxChainLen src sink ht sourceLen fuel
        ⟨0, 0, 0, true, 0, win, o⟩ with
      | .error e => .error e
      | .ok c => finish strong sig src sink sourceLen c

end Diff

end Rail.Delta
