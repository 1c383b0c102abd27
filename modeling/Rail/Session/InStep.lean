import Rail.Client.Keys
import Rail.Delta.Tally
import Rail.Foundation.Duplex
import Rail.Proto.Message
import Mathlib.Data.List.Nodup

/-!
# A push and its receiver

`Push` of `src/session-push.cc` and `Receive` of `src/session-receive.cc`, as far as they follow
each other over the control channel: the messages, who waits for which, the receipts that are still
to come, and the tag base from which each side counts the keys of the pages.

A push is a list of things to do (`Act`), put together by the functions of the source; where it
waits for a signature, what it does next depends on it.  The receiver goes by the messages.  Neither
is told where the other is: the push reads receipts late, a whole window of them, and each side
advances its own tag base.

Without delays the two pass from item to item with the same tag base, the same keys behind them, and
exactly the receipts under way that the push still awaits (`Level`); `Duplex` carries this over to
all interleavings.
-/

namespace Rail.Session

open List Option
open Delta (Signature Instruction Kind Tiles bytesOf blockLengthAt)
open Client.Keys (tagSpan pageKeys pageKeys_congr)
open Proto (MsgType)
open Duplex (Move Parties Meeting)

/-! ## What is pushed -/

inductive DeltaPolicy where
  | always
  | never
  | auto
  deriving DecidableEq

/-- What of the options and the channel decides on messages and keys. -/
structure Options where
  policy : DeltaPolicy
  isRdma : Bool
  pageSize : ℕ
  page_pos : 0 < pageSize
  /-- Lengths of pages have 32 bits; a page is a run within one region of memory,
  `kDefaultRegionBytes`. -/
  page_lt : pageSize < 2 ^ 32

namespace Options

variable (o : Options)

/-- `Streaming`. -/
def streaming : Bool := o.policy = .never && o.isRdma

def wantSignature : Bool := o.policy ≠ .never

/-- `static_cast<uint32_t>(min(pageSize, Left))`. -/
def pageLength (left : ℕ) : ℕ := min o.pageSize left % 2 ^ 32

theorem pageLength_eq (left : ℕ) : o.pageLength left = min o.pageSize left :=
  Nat.mod_eq_of_lt (lt_of_le_of_lt (Nat.min_le_left _ _) o.page_lt)

theorem pageLength_pos {left : ℕ} (h : 0 < left) : 0 < o.pageLength left := by
  rw [pageLength_eq]
  exact Nat.lt_min.mpr ⟨o.page_pos, h⟩

theorem pageLength_le (left : ℕ) : o.pageLength left ≤ left := by
  rw [pageLength_eq]
  exact Nat.min_le_right _ _

end Options

/-- `proto::Signature{}`. -/
def noSignature : Signature := ⟨0, 0, 0, []⟩

/-- A file that does not change: its size, the signature the receiver makes of what it has at the
destination, and what the differ makes of the file with a signature. -/
structure File where
  size : ℕ
  basis : Signature
  instructions : Signature → List Instruction
  tiles : ∀ sig, Tiles 0 (instructions sig) size
  copies : ∀ sig, ∀ ins ∈ instructions sig, ins.kind = .copy →
    ins.length = blockLengthAt sig ins.blockIndex

/-- One literal for the whole file. -/
def wholeLiteral (size : ℕ) : List Instruction :=
  if size = 0 then [] else [⟨.literal, 0, 0, 0, size, []⟩]

theorem tiles_wholeLiteral (size : ℕ) : Tiles 0 (wholeLiteral size) size := by
  rw [wholeLiteral]
  split_ifs with h
  · exact h.symm
  · exact ⟨rfl, Nat.pos_of_ne_zero h, Nat.zero_add size⟩

theorem kind_of_mem_wholeLiteral {size : ℕ} {ins : Instruction} (h : ins ∈ wholeLiteral size) :
    ins.kind = .literal := by
  rw [wholeLiteral] at h
  split_ifs at h
  · cases h
  · rw [mem_singleton.mp h]

/-- What the differ makes of a file; when it does not come to an end nothing is sent, and the push
fails. -/
def File.ofDiff (strong : List UInt8 → Delta.Digest) (maxChainLen : ℕ) (src : Delta.FileReader)
    (fuel : ℕ) (basis : Signature) : File where
  size := src.size
  basis := basis
  instructions sig :=
    match Delta.diff strong sig maxChainLen src (fun _ _ => true) {} fuel with
    | .ok o => o.emitted
    | .error _ => wholeLiteral src.size
  tiles sig := by
    split
    · next o h => exact (Delta.diff_tallied h).tiles
    · exact tiles_wholeLiteral src.size
  copies sig ins hins hcopy := by
    split at hins
    · next o h => exact (Delta.diff_tallied h).copies ins hins hcopy
    · exact absurd (hcopy.symm.trans (kind_of_mem_wholeLiteral hins)) (by simp)

/-- The bytes of the instructions are what the report of the diff says. -/
theorem File.bytesOf_ofDiff {strong : List UInt8 → Delta.Digest} {maxChainLen : ℕ}
    {src : Delta.FileReader} {fuel : ℕ} {basis sig : Signature} {o : Delta.Outgoing}
    (h : Delta.diff strong sig maxChainLen src (fun _ _ => true) {} fuel = .ok o) :
    bytesOf .literal ((File.ofDiff strong maxChainLen src fuel basis).instructions sig) =
    o.rep.literalBytes ∧
    bytesOf .copy ((File.ofDiff strong maxChainLen src fuel basis).instructions sig) =
    o.rep.matchedBytes := by
  have htallied := Delta.diff_tallied h
  have hemitted : (File.ofDiff strong maxChainLen src fuel basis).instructions sig = o.emitted := by
    simp only [File.ofDiff, h]
  rw [hemitted, htallied.literal_eq, htallied.matched_eq, Nat.zero_add, Nat.zero_add]
  exact ⟨rfl, rfl⟩

theorem File.bytesOf_ofDiff_four :
    bytesOf .literal ((File.ofDiff Delta.zeroPadded 32 (.ofBytes [9, 3, 4, 5]) 8
      Delta.fiveByteSignature).instructions Delta.fiveByteSignature) = 1 :=
  (File.bytesOf_ofDiff (o := Delta.fourByteDelta) (by decide +kernel)).1

inductive Item where
  | directory
  | link
  | file (f : File)

/-! ## Messages -/

/-- `proto::FileHeader`, and which item it is for. -/
structure FileHeader where
  index : ℕ
  size : ℕ := 0
  directory : Bool := false
  link : Bool := false
  wantSignature : Bool := true
  streamed : Bool := false
  deriving DecidableEq

/-- What was moved of a file: `Awaited` on one side and `proto::Receipt` on the other, and which
item it is for. -/
structure Moved where
  index : ℕ
  literalBytes : ℕ
  matchedBytes : ℕ
  deriving DecidableEq

inductive Message where
  | fileHeader (v : FileHeader)
  | signature (v : Signature)
  | copy (blockIndex dstOffset : ℕ)
  | literal (offset length : ℕ)
  | done
  | receipt (v : Moved)
  | ending

def Message.kind : Message → MsgType
  | fileHeader _ => .fileHeader
  | signature _ => .signature
  | copy _ _ => .copy
  | literal _ _ => .literal
  | done => .done
  | receipt _ => .receipt
  | ending => .ending

/-! ## The push -/

/-- `kReceiptWindow`. -/
def receiptWindow : ℕ := 64

inductive Act where
  /-- The counters of the file start again. -/
  | opened (index : ℕ)
  | send (m : Message)
  /-- `reapReceipts(Keep)`. -/
  | reap (keep : ℕ)
  /-- Wait for the signature, and send the file as it says. -/
  | expectSignature (f : File)
  /-- A page leaves under the key `TagBase + Dst`. -/
  | page (dst length : ℕ)
  /-- A block of the basis is used. -/
  | copied (length : ℕ)
  /-- `AwaitingReceipt.push_back`. -/
  | enlist (index : ℕ)
  /-- `TagBase += tagSpan(...)`. -/
  | advance (size : ℕ)

section Acts

variable (o : Options)

/-- The pages of a literal, or of a whole file; every page takes a byte at least.  A streamed page
is not announced. -/
def sendPages (streaming : Bool) : (passes dst left : ℕ) → List Act
  | 0, _, _ => []
  | passes + 1, dst, left =>
    if left = 0 then []
    else
      (if streaming then [] else [Act.send (.literal dst (o.pageLength left))]) ++
        Act.page dst (o.pageLength left) ::
          sendPages streaming passes (dst + o.pageLength left) (left - o.pageLength left)

def sendLiteral (dst length : ℕ) : List Act := sendPages o false length dst length

def sendWholeFile (size : ℕ) : List Act := sendPages o o.streaming size 0 size

/-- The sink of `sendDelta`. -/
def deliver (ins : Instruction) : List Act :=
  match ins.kind with
  | .literal => sendLiteral o ins.dstOffset ins.length
  | .copy => [Act.send (.copy ins.blockIndex ins.dstOffset), Act.copied ins.length]

def sendDelta (is : List Instruction) : List Act := is.flatMap (deliver o)

def shouldUseDelta (sig : Signature) (sourceSize : ℕ) (policy : DeltaPolicy) : Bool :=
  if policy = .never then false
  else if sig.sums.isEmpty || sig.fileLength = 0 then false
  else if policy = .always then true
  else max sourceSize sig.fileLength ≤ min sourceSize sig.fileLength * 2

/-- The part of `pushOne` that the signature decides on. -/
def payload (f : File) (sig : Signature) : List Act :=
  if shouldUseDelta sig f.size o.policy then sendDelta o (f.instructions sig)
  else sendWholeFile o f.size

/-- `exchangeHeader`, and the payload. -/
def exchangeHeader (index : ℕ) (f : File) : List Act :=
  Act.send (.fileHeader
    { index, size := f.size, wantSignature := o.wantSignature, streamed := o.streaming }) ::
    if o.wantSignature then [Act.reap 0, Act.expectSignature f] else payload o f noSignature

def confirm (index : ℕ) : List Act := [Act.send .done, Act.enlist index, Act.reap receiptWindow]

def pushOne (index : ℕ) : Item → List Act
  | .directory => [Act.send (.fileHeader { index, directory := true })]
  | .link => [Act.send (.fileHeader { index, link := true })]
  | .file f =>
      Act.opened index :: (exchangeHeader o index f ++ (confirm index ++ [Act.advance f.size]))

/-- `carry` from an item on. -/
def carry : (index : ℕ) → List Item → List Act
  | _, [] => [Act.reap 0, Act.send .ending]
  | index, it :: items => pushOne o index it ++ carry (index + 1) items

end Acts

structure Push where
  acts : List Act
  /-- `AwaitingReceipt`. -/
  awaiting : List Moved := []
  tagBase : ℕ := 0
  literalBytes : ℕ := 0
  matchedBytes : ℕ := 0
  /-- For the record: the items of which a file was opened, and the tag base then. -/
  starts : List (ℕ × ℕ) := []
  /-- For the record: the keys of the pages sent. -/
  keys : List ℕ := []
  /-- For the record: what was expected and what the receipt said. -/
  compared : List (Moved × Moved) := []

namespace Push

variable (p : Push)

def upTo (acts : List Act) : Push := { p with acts }

def opened (index : ℕ) : Push :=
  { p with literalBytes := 0, matchedBytes := 0, starts := p.starts ++ [(index, p.tagBase)] }

/-- Pages under these keys, with so many bytes, and so many bytes of the basis. -/
def moved (keys : List ℕ) (literal matched : ℕ) : Push :=
  { p with
    keys := p.keys ++ keys, literalBytes := p.literalBytes + literal, matchedBytes :=
      p.matchedBytes + matched }

def enlist (index : ℕ) : Push :=
  { p with awaiting := p.awaiting ++ [⟨index, p.literalBytes, p.matchedBytes⟩] }

def advance (o : Options) (size : ℕ) : Push :=
  { p with tagBase := (p.tagBase + tagSpan size o.pageSize) % 2 ^ 64 }

/-- One receipt of `reapReceipts`. -/
def takeReceipt : Message → Option Push
  | .receipt got =>
    match p.awaiting with
    | [] => none
    | expected :: rest =>
      if got.literalBytes ≠ expected.literalBytes ∨
        got.matchedBytes ≠ expected.matchedBytes then none
      else some { p with awaiting := rest, compared := p.compared ++ [(expected, got)] }
  | _ => none

def takeSignature (o : Options) (f : File) (acts : List Act) : Message → Option Push
  | .signature sig => some (p.upTo (payload o f sig ++ acts))
  | _ => none

/-- What the push does next. -/
def move (o : Options) : Move Push Message Message :=
  match p.acts with
  | [] => .halt
  | .opened index :: acts => .act ((p.opened index).upTo acts) []
  | .send m :: acts => .act (p.upTo acts) [m]
  | .reap keep :: acts =>
      if keep < p.awaiting.length then .await p.takeReceipt else .act (p.upTo acts) []
  | .expectSignature f :: acts => .await (p.takeSignature o f acts)
  | .page dst length :: acts => .act ((p.moved [(p.tagBase + dst) % 2 ^ 64] length 0).upTo acts) []
  | .copied length :: acts => .act ((p.moved [] 0 length).upTo acts) []
  | .enlist index :: acts => .act ((p.enlist index).upTo acts) []
  | .advance size :: acts => .act ((p.advance o size).upTo acts) []

/-- The kind of message that it waits for. -/
def awaits : Option MsgType :=
  match p.acts with
  | .reap keep :: _ => if keep < p.awaiting.length then some .receipt else none
  | .expectSignature _ :: _ => some .signature
  | _ => none

end Push

/-! ## The receiver -/

inductive Mode where
  /-- The loop of `serve`. -/
  | serving
  /-- `receiveStream`, with the pages before `at_` posted. -/
  | streaming (at_ : ℕ)
  /-- `receiveDelta`. -/
  | instructions
  | ended
  deriving DecidableEq

structure Receiver where
  mode : Mode := .serving
  /-- Of the file that is received. -/
  header : FileHeader := { index := 0 }
  sig : Signature := noSignature
  literalBytes : ℕ := 0
  matchedBytes : ℕ := 0
  tagBase : ℕ := 0
  /-- For the record: the items of which a file was opened, and the tag base then. -/
  starts : List (ℕ × ℕ) := []
  /-- For the record: the keys under which pages were posted. -/
  keys : List ℕ := []

namespace Receiver

variable (r : Receiver)

def moved (keys : List ℕ) (literal matched : ℕ) : Receiver :=
  { r with
    keys := r.keys ++ keys, literalBytes := r.literalBytes + literal, matchedBytes :=
      r.matchedBytes + matched }

/-- `receiveFile` up to the payload: `sig` is what `openTarget` has made. -/
def opened (h : FileHeader) (sig : Signature) : Receiver :=
  { r with
    header := h, sig := if h.wantSignature then sig else noSignature, literalBytes :=
      0, matchedBytes := 0,
    starts := r.starts ++ [(h.index, r.tagBase)], mode :=
      if h.streamed then .streaming 0 else .instructions }

variable (o : Options)

/-- `complete`, and the end of `receiveFile`. -/
def complete : Receiver × List Message :=
  ({ r with mode := .serving, tagBase := (r.tagBase + tagSpan r.header.size o.pageSize) % 2 ^ 64 },
    [.receipt ⟨r.header.index, r.literalBytes, r.matchedBytes⟩])

def upTo (at_ : ℕ) : Receiver := { r with mode := .streaming at_ }

/-- `receiveStream` posts its next page, when there is one. -/
def post : Option Receiver :=
  match r.mode with
  | .streaming at_ =>
    if at_ < r.header.size then
      let length := o.pageLength (r.header.size - at_)
      some ((r.moved [(r.tagBase + at_) % 2 ^ 64] length 0).upTo (at_ + length))
    else none
  | _ => none

/-- All the pages that `receiveStream` has still to post. -/
def posted : Receiver :=
  match r.mode with
  | .streaming at_ =>
    (r.moved (pageKeys r.tagBase o.pageSize r.header.size (r.header.size - at_) at_)
      (r.header.size - at_) 0).upTo (max at_ r.header.size)
  | _ => r

/-- What a message does; `none` is the end of the session with an error.  `sigs` is what
`openTarget` makes of the destination of each item. -/
def react (sigs : ℕ → Signature) : Message → Option (Receiver × List Message)
  | .fileHeader h =>
    if r.mode = .serving then
      if h.directory || h.link then some (r, [])
      else some (r.opened h (sigs h.index),
        if h.wantSignature then [.signature (sigs h.index)] else [])
    else none
  | .ending => if r.mode = .serving then some ({ r with mode := .ended }, []) else none
  | .literal offset length =>
    if r.mode = .instructions then
      if o.pageSize < length then none
      else some (r.moved [(r.tagBase + offset) % 2 ^ 64] length 0, [])
    else none
  | .copy blockIndex _ =>
    if r.mode = .instructions then
      let length := blockLengthAt r.sig blockIndex
      if length = 0 then none else some (r.moved [] 0 length, [])
    else none
  | .done =>
    match r.mode with
    | .streaming at_ => if at_ < r.header.size then none else some (r.complete o)
    | .instructions => some (r.complete o)
    | _ => none
  | _ => none

/-- The kinds of message that it waits for. -/
def awaits : List MsgType :=
  match r.mode with
  | .serving => [.fileHeader, .ending]
  | .streaming _ => [.done]
  | .instructions => [.literal, .copy, .done]
  | .ended => []

end Receiver

/-! ## Posting pages -/

theorem Push.moved_moved (p : Push) (ks ls : List ℕ) (a b c d : ℕ) :
    (p.moved ks a b).moved ls c d = p.moved (ks ++ ls) (a + c) (b + d) := by
  simp only [Push.moved, append_assoc, Nat.add_assoc]

theorem Push.moved_nil (p : Push) : p.moved [] 0 0 = p := by
  simp only [Push.moved, append_nil, Nat.add_zero]

theorem Receiver.moved_moved (r : Receiver) (ks ls : List ℕ) (a b c d : ℕ) :
    (r.moved ks a b).moved ls c d = r.moved (ks ++ ls) (a + c) (b + d) := by
  simp only [Receiver.moved, append_assoc, Nat.add_assoc]

theorem Receiver.moved_nil (r : Receiver) : r.moved [] 0 0 = r := by
  simp only [Receiver.moved, append_nil, Nat.add_zero]

variable {end_ index passes tagBase : ℕ} {f : File}

section Posting

variable (o : Options)

/-- The keys of a literal, or of a whole file, from its first page on. -/
theorem pageKeys_of_pos {dst left : ℕ} (h : left ≠ 0) :
    pageKeys tagBase o.pageSize (dst + left) (passes + 1) dst = (tagBase + dst) % 2 ^ 64 ::
        pageKeys tagBase o.pageSize (dst + o.pageLength left + (left - o.pageLength left)) passes
          (dst + o.pageLength left) := by
  have hle := o.pageLength_le left
  rw [pageKeys, if_pos (by omega), Nat.add_sub_cancel_left, ← o.pageLength_eq,
    show dst + o.pageLength left + (left - o.pageLength left) = dst + left by omega]

theorem pageKeys_of_zero {dst : ℕ} : pageKeys tagBase o.pageSize (dst + 0) passes dst = [] := by
  cases passes with
  | zero => rfl
  | succ passes => rw [pageKeys, if_neg (by omega)]

namespace Receiver

variable (r : Receiver)

theorem posted_upTo (at_ : ℕ) : (r.upTo at_).posted o =
    (r.moved (pageKeys r.tagBase o.pageSize r.header.size (r.header.size - at_) at_)
      (r.header.size - at_) 0).upTo (max at_ r.header.size) :=
  rfl

theorem posted_of_mode (h : ∀ at_, r.mode = .streaming at_ → r.header.size ≤ at_) :
    r.posted o = r := by
  rw [posted]
  split
  · next at_ hmode =>
    have hle := h at_ hmode
    rw [Nat.sub_eq_zero_of_le hle, pageKeys, moved_nil, max_eq_left hle, upTo, ← hmode]
  · rfl

theorem posted_of_not_streaming (h : ∀ at_, r.mode ≠ .streaming at_) : r.posted o = r :=
  r.posted_of_mode o fun at_ hmode => absurd hmode (h at_)

theorem posted_of_post_eq_none (h : r.post o = none) : r.posted o = r := by
  refine r.posted_of_mode o fun at_ hmode => Nat.not_lt.mp fun hlt => ?_
  rw [post, hmode] at h
  simp only [if_pos hlt] at h
  cases h

theorem post_posted : (r.posted o).post o = none := by
  cases hmode : r.mode with
  | streaming at_ =>
    rw [posted, hmode, post]
    exact if_neg (Nat.not_lt.mpr (le_max_right at_ r.header.size))
  | serving | instructions | ended => rw [posted, hmode, post, hmode]

theorem posted_of_post {r r' : Receiver} (h : r.post o = some r') : r'.posted o = r.posted o := by
  rw [post] at h
  split at h
  · next at_ hmode =>
    split_ifs at h with hlt
    cases h
    have hpos := o.pageLength_pos (Nat.sub_pos_of_lt hlt)
    have hle := o.pageLength_le (r.header.size - at_)
    have hkeys : pageKeys r.tagBase o.pageSize r.header.size (r.header.size - at_) at_ =
        (r.tagBase + at_) % 2 ^ 64 :: pageKeys r.tagBase o.pageSize r.header.size
          (r.header.size - (at_ + o.pageLength (r.header.size - at_)))
          (at_ + o.pageLength (r.header.size - at_)) := by
      rw [show r.header.size - at_ = r.header.size - at_ - 1 + 1 by omega, pageKeys, if_pos hlt,
        ← o.pageLength_eq, show r.header.size - at_ - 1 + 1 = r.header.size - at_ by omega]
      exact congrArg (List.cons _) (pageKeys_congr o.page_pos (by omega) (le_refl _))
    rw [posted_upTo, posted, hmode]
    dsimp only
    rw [hkeys, moved_moved, singleton_append]
    refine congrArg₂ upTo (congrArg₂ (moved r _) ?_ rfl) ?_
    · exact show _ + (r.header.size - _) = _ by omega
    · exact show max _ r.header.size = _ by omega
  · cases h

end Receiver

end Posting

/-! ## The run without delays -/

/-- The two sides; `sigs` is what the receiver's `openTarget` makes of the destination of each
item. -/
def parties (o : Options) (sigs : ℕ → Signature) : Parties Push Receiver Message Message where
  move p := p.move o
  idle r := r.post o
  settle r := r.posted o
  react r := r.react o sigs
  settle_of_idle := Receiver.posted_of_post o
  settle_of_rest {r} := r.posted_of_post_eq_none o
  idle_settle r := r.post_posted o

section Leads

variable {o : Options} {sigs : ℕ → Signature} {p : Push} {r : Receiver} {acts : List Act}
  {b : List Message}

theorem leads_send {m : Message} {r' : Receiver} {answers : List Message} (hr : r.posted o = r)
    (hreact : r.react o sigs m = some (r', answers)) :
    (parties o sigs).Leads ⟨p.upTo (Act.send m :: acts), r, b⟩
    ⟨p.upTo acts, r'.posted o, b ++ answers⟩ :=
  .say (P := parties o sigs) rfl hr hreact

section

variable (hmode : r.mode = .instructions)
include hmode

theorem settled_of_instructions : r.posted o = r :=
  r.posted_of_not_streaming o fun at_ h => by
    rw [hmode] at h
    cases h

theorem react_done_of_instructions : r.react o sigs .done = some (r.complete o) := by
  rw [Receiver.react, hmode]

/-- A page that is announced is posted under the key it is sent under. -/
theorem leads_literal {dst length : ℕ} (hbase : p.tagBase = r.tagBase)
    (hfits : length ≤ o.pageSize) :
    (parties o sigs).Leads ⟨p.upTo (Act.send (.literal dst length) :: Act.page dst length :: acts),
      r, b⟩ ⟨(p.moved [(r.tagBase + dst) % 2 ^ 64] length 0).upTo acts,
      r.moved [(r.tagBase + dst) % 2 ^ 64] length 0, b⟩ := by
  have hmoved : (r.moved [(r.tagBase + dst) % 2 ^ 64] length 0).posted o =
    r.moved [(r.tagBase + dst) % 2 ^ 64] length 0 :=
    settled_of_instructions hmode
  have hsay : (parties o sigs).Leads
      ⟨p.upTo (.send (.literal dst length) :: .page dst length :: acts), r, b⟩
      ⟨p.upTo (.page dst length :: acts), _, b ++ []⟩ := leads_send (settled_of_instructions hmode)
    (show r.react o sigs (.literal dst length) = _ by
      rw [Receiver.react, if_pos hmode, if_neg (Nat.not_lt.mpr hfits)])
  rw [append_nil, hmoved] at hsay
  refine hsay.trans ?_
  rw [← hbase] at hmoved ⊢
  exact .silent (P := parties o sigs) rfl hmoved

theorem leads_copy {ins : Instruction}
    (hlen : ins.length = blockLengthAt r.sig ins.blockIndex) (hpos : 0 < ins.length) :
    (parties o sigs).Leads
    ⟨p.upTo (Act.send (.copy ins.blockIndex ins.dstOffset) :: Act.copied ins.length :: acts), r, b⟩
    ⟨(p.moved [] 0 ins.length).upTo acts, r.moved [] 0 ins.length, b⟩ := by
  have hmoved : (r.moved [] 0 ins.length).posted o = r.moved [] 0 ins.length :=
    settled_of_instructions hmode
  have hsay : (parties o sigs).Leads
      ⟨p.upTo (.send (.copy ins.blockIndex ins.dstOffset) :: .copied ins.length :: acts), r, b⟩
      ⟨p.upTo (.copied ins.length :: acts), _, b ++ []⟩ :=
        leads_send (settled_of_instructions hmode)
    (show r.react o sigs (.copy ins.blockIndex ins.dstOffset) =
      some (r.moved [] 0 ins.length, []) by
      rw [Receiver.react, if_pos hmode, ← hlen]
      exact if_neg (by omega))
  rw [append_nil, hmoved] at hsay
  exact hsay.trans (.silent (P := parties o sigs) rfl hmoved)

end

/-- The pages of a literal, one after the other. -/
theorem leads_sendPages (passes dst left : ℕ) (hle : left ≤ passes) (hmode : r.mode = .instructions)
    (hbase : p.tagBase = r.tagBase) :
    (parties o sigs).Leads ⟨p.upTo (sendPages o false passes dst left ++ acts), r, b⟩
    ⟨(p.moved (pageKeys r.tagBase o.pageSize (dst + left) passes dst) left 0).upTo acts,
      r.moved (pageKeys r.tagBase o.pageSize (dst + left) passes dst) left 0, b⟩ := by
  induction passes generalizing dst left p r with
  | zero =>
    obtain rfl : left = 0 := by omega
    rw [pageKeys, Push.moved_nil, Receiver.moved_nil]
    exact .refl _
  | succ passes ih =>
    rw [sendPages]
    by_cases hzero : left = 0
    · subst hzero
      rw [if_pos rfl, pageKeys_of_zero, Push.moved_nil, Receiver.moved_nil]
      exact .refl _
    · have hpos := o.pageLength_pos (Nat.pos_of_ne_zero hzero)
      have hpage := o.pageLength_le left
      have hfits : o.pageLength left ≤ o.pageSize := by
        rw [o.pageLength_eq]
        exact Nat.min_le_left _ _
      rw [if_neg hzero, pageKeys_of_pos o hzero]
      refine (leads_literal hmode hbase hfits).trans ?_
      have hrest := ih (dst + o.pageLength left) (left - o.pageLength left)
        (p := p.moved [(r.tagBase + dst) % 2 ^ 64] (o.pageLength left) 0)
        (r := r.moved [(r.tagBase + dst) % 2 ^ 64] (o.pageLength left) 0) (by omega) hmode hbase
      rw [Push.moved_moved, Receiver.moved_moved, Nat.add_sub_cancel' hpage] at hrest
      exact hrest

/-- The pages of a streamed file: the receiver hears nothing of them. -/
theorem leads_streamPages (passes dst left : ℕ) (hle : left ≤ passes) (hr : r.posted o = r) :
    (parties o sigs).Leads ⟨p.upTo (sendPages o true passes dst left ++ acts), r, b⟩
      ⟨(p.moved (pageKeys p.tagBase o.pageSize (dst + left) passes dst) left 0).upTo acts, r,
      b⟩ := by
  induction passes generalizing dst left p with
  | zero =>
    obtain rfl : left = 0 := by omega
    rw [pageKeys, Push.moved_nil]
    exact .refl _
  | succ passes ih =>
    rw [sendPages]
    by_cases hzero : left = 0
    · subst hzero
      rw [if_pos rfl, pageKeys_of_zero, Push.moved_nil]
      exact .refl _
    · have hpos := o.pageLength_pos (Nat.pos_of_ne_zero hzero)
      have hpage := o.pageLength_le left
      rw [if_neg hzero, pageKeys_of_pos o hzero]
      refine .trans (.silent (P := parties o sigs) rfl hr) ?_
      have hrest := ih (dst + o.pageLength left) (left - o.pageLength left)
        (p := p.moved [(p.tagBase + dst) % 2 ^ 64] (o.pageLength left) 0) (by omega)
      rw [Push.moved_moved, Nat.add_sub_cancel' hpage] at hrest
      exact hrest

/-- The keys of the pages that instructions are sent in. -/
def deltaKeys (o : Options) (tagBase : ℕ) : List Instruction → List ℕ
  | [] => []
  | ins :: is =>
    (match ins.kind with
      | .literal =>
          pageKeys tagBase o.pageSize (ins.dstOffset + ins.length) ins.length ins.dstOffset
      | .copy => []) ++ deltaKeys o tagBase is

/-- **Instructions**: both sides count the same, under the same keys. -/
theorem leads_sendDelta {is : List Instruction} {from_ : ℕ} (htiles : Tiles from_ is end_)
    (hcopies : ∀ ins ∈ is, ins.kind = .copy → ins.length = blockLengthAt r.sig ins.blockIndex)
    (hmode : r.mode = .instructions) (hbase : p.tagBase = r.tagBase) :
    (parties o sigs).Leads ⟨p.upTo (sendDelta o is ++ acts), r, b⟩
      ⟨(p.moved (deltaKeys o r.tagBase is) (bytesOf .literal is) (bytesOf .copy is)).upTo acts,
        r.moved (deltaKeys o r.tagBase is) (bytesOf .literal is) (bytesOf .copy is), b⟩ := by
  induction is generalizing from_ p r with
  | nil =>
    rw [deltaKeys, bytesOf, bytesOf, Push.moved_nil, Receiver.moved_nil]
    exact .refl _
  | cons ins is ih =>
    obtain ⟨-, hpos, hrest⟩ := htiles
    have hcons : sendDelta o (ins :: is) ++ acts = deliver o ins ++ (sendDelta o is ++ acts) := by
      rw [sendDelta, flatMap_cons, append_assoc]
      rfl
    rw [hcons, deliver, deltaKeys, bytesOf, bytesOf]
    have hcopies' := fun i hi => hcopies i (mem_cons_of_mem _ hi)
    cases hkind : ins.kind with
    | literal =>
      let keys := pageKeys r.tagBase o.pageSize (ins.dstOffset + ins.length) ins.length
        ins.dstOffset
      have hthen := ih (p := p.moved keys ins.length 0) (r := r.moved keys ins.length 0) hrest
        hcopies' hmode hbase
      rw [Push.moved_moved, Receiver.moved_moved, Nat.zero_add] at hthen
      rw [if_pos rfl, if_neg (by simp), Nat.zero_add]
      exact (leads_sendPages _ _ _ (le_refl _) hmode hbase).trans hthen
    | copy =>
      have hthen := ih (p := p.moved [] 0 ins.length) (r := r.moved [] 0 ins.length) hrest hcopies'
        hmode hbase
      rw [Push.moved_moved, Receiver.moved_moved, Nat.zero_add] at hthen
      rw [if_pos rfl, if_neg (by simp), Nat.zero_add]
      exact (leads_copy hmode (hcopies ins mem_cons_self hkind) hpos).trans hthen

/-- The oldest `n` receipts have come, and said what was expected. -/
def Push.reaped (p : Push) (n : ℕ) : Push :=
  { p with awaiting := p.awaiting.drop n, compared := p.compared ++ (p.awaiting.take n).map fun v =>
    (v, v) }

theorem Push.reaped_zero (p : Push) : p.reaped 0 = p := by
  simp only [Push.reaped, drop_zero, take_zero, map_nil, append_nil]

theorem Push.takeReceipt_cons {v : Moved} {rest : List Moved} (hw : p.awaiting = v :: rest) :
    p.takeReceipt (.receipt v) = some (p.reaped 1) := by
  rw [Push.takeReceipt, hw]
  dsimp only
  rw [if_neg (by simp), Push.reaped, hw]
  rfl

theorem Push.reaped_reaped (p : Push) (m n : ℕ) : (p.reaped m).reaped n = p.reaped (m + n) := by
  simp only [Push.reaped, drop_drop, append_assoc, ← map_append, take_add]

variable (acts : List Act)

/-- Receipts are taken until few enough are awaited. -/
theorem leads_reap (keep : ℕ) {n : ℕ} (hr : r.posted o = r) (hn : n = p.awaiting.length - keep) :
    (parties o sigs).Leads ⟨p.upTo (Act.reap keep :: acts), r, p.awaiting.map .receipt ++ b⟩
      ⟨(p.reaped n).upTo acts, r, (p.reaped n).awaiting.map .receipt ++ b⟩ := by
  induction n generalizing p with
  | zero =>
    have hmove : (parties o sigs).move (p.upTo (.reap keep :: acts)) = .act (p.upTo acts) [] :=
      if_neg (show ¬ keep < p.awaiting.length by omega)
    rw [p.reaped_zero]
    exact .silent hmove hr
  | succ n ih =>
    obtain ⟨v, rest, hw⟩ : ∃ v rest, p.awaiting = v :: rest :=
      exists_cons_of_length_pos (show 0 < p.awaiting.length by omega)
    have hmove : (parties o sigs).move (p.upTo (.reap keep :: acts)) =
        .await (p.upTo (.reap keep :: acts)).takeReceipt :=
        if_pos (show keep < p.awaiting.length by omega)
    have htake : (p.upTo (.reap keep :: acts)).takeReceipt (.receipt v) =
        some ((p.reaped 1).upTo (Act.reap keep :: acts)) := Push.takeReceipt_cons hw
    have hone : (p.reaped 1).awaiting = rest := by
      rw [Push.reaped, hw]
      rfl
    have hrest := ih (p := p.reaped 1) (by rw [hone]; rw [hw, length_cons] at hn; omega)
    rw [p.reaped_reaped, Nat.add_comm 1 n, hone] at hrest
    rw [hw]
    exact (Parties.Leads.hear hmove htake).trans hrest

/-! ### One file -/

/-- The signature that decides on the payload of a file. -/
def File.signature (f : File) (o : Options) : Signature :=
  if o.wantSignature then f.basis else noSignature

def header (o : Options) (index : ℕ) (f : File) : FileHeader :=
  { index, size := f.size, wantSignature := o.wantSignature, streamed := o.streaming }

theorem settled_of_serving (hmode : r.mode = .serving) : r.posted o = r :=
  r.posted_of_not_streaming o fun at_ h => by
    rw [hmode] at h
    cases h

/-- The header, and the signature when it is asked for: every receipt comes before it. -/
theorem leads_exchangeHeader {index : ℕ} {f : File} (hmode : r.mode = .serving)
    (hsig : sigs index = f.basis) : ∃ n, (parties o sigs).Leads
      ⟨p.upTo (Act.opened index :: (exchangeHeader o index f ++ acts)), r, p.awaiting.map .receipt⟩
      ⟨((p.opened index).reaped n).upTo (payload o f (f.signature o) ++ acts),
        (r.opened (header o index f) (sigs index)).posted o,
        ((p.opened index).reaped n).awaiting.map .receipt⟩ := by
  have hr : r.posted o = r := settled_of_serving hmode
  have hopen : ∀ acts,
    (parties o sigs).Leads ⟨p.upTo (.opened index :: acts), r, p.awaiting.map .receipt⟩
      ⟨(p.opened index).upTo acts, r, p.awaiting.map .receipt⟩ := fun acts =>
    .silent (P := parties o sigs) rfl hr
  have hsay : ∀ acts, (parties o sigs).Leads
      ⟨(p.opened index).upTo (.send (.fileHeader (header o index f)) :: acts), r,
      p.awaiting.map .receipt⟩
      ⟨(p.opened index).upTo acts, (r.opened (header o index f) (sigs index)).posted o,
        p.awaiting.map .receipt ++ if o.wantSignature then [.signature (sigs index)] else []⟩ := by
    intro acts
    refine leads_send hr ?_
    rw [Receiver.react, if_pos hmode]
    rfl
  refine (em (o.wantSignature = true)).elim (fun hwant => ?_) fun hwant => ?_
  · refine ⟨p.awaiting.length, (hopen _).trans ?_⟩
    rw [exchangeHeader, if_pos hwant]
    refine (hsay _).trans ?_
    rw [if_pos hwant, File.signature, if_pos hwant]
    have hposted : ((r.opened (header o index f) (sigs index)).posted o).posted o =
        (r.opened (header o index f) (sigs index)).posted o :=
      Receiver.posted_of_post_eq_none _ _ (Receiver.post_posted _ _)
    refine (leads_reap (p := p.opened index) (.expectSignature f :: acts) 0 hposted rfl).trans ?_
    have hnone : ((p.opened index).reaped p.awaiting.length).awaiting = [] := drop_length
    rw [show (p.opened index).awaiting.length - 0 = p.awaiting.length from rfl, hnone]
    refine .hear (P := parties o sigs) (m := .signature (sigs index)) rfl ?_
    rw [hsig]
    rfl
  · refine ⟨0, (hopen _).trans ?_⟩
    rw [exchangeHeader, if_neg hwant]
    refine (hsay _).trans ?_
    rw [if_neg hwant, append_nil, File.signature, if_neg hwant, (p.opened index).reaped_zero]
    exact .refl _

/-- The keys of the pages of a file. -/
def payloadKeys (o : Options) (tagBase : ℕ) (f : File) (sig : Signature) : List ℕ :=
  if shouldUseDelta sig f.size o.policy then deltaKeys o tagBase (f.instructions sig)
  else pageKeys tagBase o.pageSize f.size f.size 0

/-- After the payload the two sides have counted the same. -/
structure Delivered (o : Options) (sigs : ℕ → Signature) (h : FileHeader) (keys : List ℕ)
    (literal matched : ℕ) (r r' : Receiver) : Prop where
  settled : r'.posted o = r'
  completes : r'.react o sigs .done = some (r'.complete o)
  header_eq : r'.header = h
  literal_eq : r'.literalBytes = literal
  matched_eq : r'.matchedBytes = matched
  tagBase_eq : r'.tagBase = r.tagBase
  starts_eq : r'.starts = r.starts ++ [(h.index, r.tagBase)]
  keys_eq : r'.keys = r.keys ++ keys

/-- **The payload**, streamed or announced. -/
theorem leads_payload (hbase : p.tagBase = r.tagBase) (hsig : sigs index = f.basis) :
    ∃ literal matched r', (parties o sigs).Leads
      ⟨p.upTo (payload o f (f.signature o) ++ acts),
      (r.opened (header o index f) (sigs index)).posted o,
      b⟩ ⟨(p.moved (payloadKeys o r.tagBase f (f.signature o)) literal matched).upTo acts, r', b⟩ ∧
      Delivered o sigs (header o index f) (payloadKeys o r.tagBase f (f.signature o)) literal
      matched r r' := by
  have hsig' : (r.opened (header o index f) (sigs index)).sig = f.signature o := by
    rw [hsig]
    rfl
  cases hstream : o.streaming with
  | true =>
    have hpolicy : o.policy = .never := by
      rw [Options.streaming, Bool.and_eq_true, decide_eq_true_eq] at hstream
      exact hstream.1
    have hwhole : shouldUseDelta (f.signature o) f.size o.policy = false := by
      rw [shouldUseDelta, if_pos hpolicy]
    have hupTo : (r.opened (header o index f) (sigs index)) =
        (r.opened (header o index f) (sigs index)).upTo 0 := by
      rw [Receiver.upTo, Receiver.opened, header, hstream]
      rfl
    rw [hupTo, Receiver.posted_upTo, payload, payloadKeys, hwhole]
    simp only [Bool.false_eq_true, if_false]
    rw [sendWholeFile, hstream]
    let r' := ((r.opened (header o index f) (sigs index)).moved
      (pageKeys r.tagBase o.pageSize f.size f.size 0) f.size 0).upTo (max 0 f.size)
    have hsettled : r'.posted o = r' := Receiver.posted_of_mode _ _ fun at_ h => by
      obtain rfl := Mode.streaming.inj h
      exact le_max_right 0 f.size
    refine ⟨f.size, 0, r', ?_, hsettled, ?_, rfl, Nat.zero_add _, rfl, rfl, rfl, rfl⟩
    · have h : (parties o sigs).Leads ⟨p.upTo (sendPages o true f.size 0 f.size ++ acts),
        r', b⟩ _ :=
        leads_streamPages f.size 0 f.size (le_refl f.size) hsettled
      rwa [Nat.zero_add, hbase] at h
    · exact if_neg (Nat.not_lt.mpr (le_max_right 0 f.size))
  | false =>
    have hmode : (r.opened (header o index f) (sigs index)).mode = .instructions := by
      rw [Receiver.opened, header, hstream]
      rfl
    rw [settled_of_instructions hmode, payload, payloadKeys]
    cases hdelta : shouldUseDelta (f.signature o) f.size o.policy with
    | true =>
      refine ⟨_, _, _, leads_sendDelta (f.tiles _) (by rw [hsig']; exact f.copies _) hmode hbase,
        settled_of_instructions hmode, react_done_of_instructions hmode, rfl, Nat.zero_add _,
        Nat.zero_add _, rfl, rfl, rfl⟩
    | false =>
      simp only [Bool.false_eq_true, if_false]
      rw [sendWholeFile, hstream]
      have h : (parties o sigs).Leads ⟨p.upTo (sendPages o false f.size 0 f.size ++ acts),
        _, b⟩ _ :=
        leads_sendPages f.size 0 f.size (le_refl f.size) hmode hbase
      rw [Nat.zero_add] at h
      exact ⟨f.size, 0, _, h, settled_of_instructions hmode, react_done_of_instructions hmode, rfl,
        Nat.zero_add _, rfl, rfl, rfl, rfl⟩

/-- `Done`, and the receipt that it is answered with is among those awaited. -/
theorem leads_confirm (size : ℕ) {index : ℕ} {h : FileHeader} {keys : List ℕ} {r₀ : Receiver}
    (hd : Delivered o sigs h keys p.literalBytes p.matchedBytes r₀ r) (hindex : h.index = index) :
    ∃ n, (parties o sigs).Leads ⟨p.upTo (confirm index ++ Act.advance size :: acts), r,
      p.awaiting.map .receipt⟩ ⟨(((p.enlist index).reaped n).advance o size).upTo acts,
      (r.complete o).1, ((p.enlist index).reaped n).awaiting.map .receipt⟩ := by
  have hserving : (r.complete o).1.posted o = (r.complete o).1 := settled_of_serving rfl
  have hanswer : p.awaiting.map .receipt ++ (r.complete o).2 =
      (p.enlist index).awaiting.map .receipt := by
    rw [Receiver.complete, Push.enlist, map_append, hd.header_eq, hindex, hd.literal_eq,
      hd.matched_eq]
    rfl
  have hdone : (parties o sigs).Leads
      ⟨p.upTo (confirm index ++ .advance size :: acts), r, p.awaiting.map .receipt⟩
      ⟨p.upTo (.enlist index :: .reap receiptWindow :: .advance size :: acts),
        (r.complete o).1.posted o, p.awaiting.map .receipt ++ (r.complete o).2⟩ :=
        leads_send hd.settled hd.completes
  rw [hserving, hanswer] at hdone
  refine ⟨(p.enlist index).awaiting.length - receiptWindow, hdone.trans ?_⟩
  refine .trans (.silent (P := parties o sigs) rfl hserving) ?_
  have hreap : (parties o sigs).Leads ⟨_, _, _ ++ []⟩ ⟨_, _, _ ++ []⟩ :=
    leads_reap (p := p.enlist index) (.advance size :: acts) receiptWindow hserving rfl
  rw [append_nil, append_nil] at hreap
  exact hreap.trans (.silent (P := parties o sigs) rfl hserving)

end Leads

/-! ### From item to item -/

section Items

variable {o : Options} {sigs : ℕ → Signature} {p : Push} {r : Receiver} {acts : List Act}
  {b : List Message}

/-- The tag base after an item. -/
def nextBase (o : Options) (tagBase : ℕ) : Item → ℕ
  | .file f => (tagBase + tagSpan f.size o.pageSize) % 2 ^ 64
  | _ => tagBase

/-- The keys of an item's pages. -/
def itemKeys (o : Options) (tagBase : ℕ) : Item → List ℕ
  | .file f => payloadKeys o tagBase f (f.signature o)
  | _ => []

/-- The keys of all pages from an item on. -/
def pushKeys (o : Options) : (tagBase : ℕ) → List Item → List ℕ
  | _, [] => []
  | tagBase, it :: items => itemKeys o tagBase it ++ pushKeys o (nextBase o tagBase it) items

/-- Between items, the next one being `index`: the two sides agree, and the receipts awaited are
those under way. -/
structure Level (index : ℕ) (p : Push) (r : Receiver) : Prop where
  serving : r.mode = .serving
  tagBase_eq : p.tagBase = r.tagBase
  starts_eq : p.starts = r.starts
  keys_eq : p.keys = r.keys
  compared_eq : ∀ c ∈ p.compared, c.1 = c.2
  starts_lt : ∀ st ∈ p.starts, st.1 < index
  starts_nodup : (p.starts.map Prod.fst).Nodup

/-- A directory or a link changes nothing. -/
theorem Level.leads_bare (hl : Level index p r) {h : FileHeader}
    (hbare : (h.directory || h.link) = true) :
    (parties o sigs).Leads ⟨p.upTo (Act.send (.fileHeader h) :: acts), r, b⟩
    ⟨p.upTo acts, r, b⟩ := by
  have hr : r.posted o = r := settled_of_serving hl.serving
  have hsay : (parties o sigs).Leads ⟨p.upTo (.send (.fileHeader h) :: acts), r, b⟩
      ⟨p.upTo acts, r.posted o, b ++ []⟩ := by
    refine leads_send hr ?_
    rw [Receiver.react, if_pos hl.serving, if_pos hbare]
  rwa [hr, append_nil] at hsay

theorem Level.mono (hl : Level index p r) : Level (index + 1) p r :=
  { hl with starts_lt := fun st hst => Nat.lt_succ_of_lt (hl.starts_lt st hst) }

theorem Push.mem_compared_reaped {n : ℕ} {c : Moved × Moved} (h : c ∈ (p.reaped n).compared)
    (hp : ∀ c ∈ p.compared, c.1 = c.2) : c.1 = c.2 := by
  rcases mem_append.mp h with h | h
  · exact hp c h
  · obtain ⟨v, -, rfl⟩ := List.mem_map.mp h
    rfl

/-- **One file**, from its header to its receipt. -/
theorem Level.leads_file (acts : List Act) (hl : Level index p r) (hsig : sigs index = f.basis) :
    ∃ p' r', (parties o sigs).Leads ⟨p.upTo (pushOne o index (.file f) ++ acts), r,
      p.awaiting.map .receipt⟩ ⟨p'.upTo acts, r', p'.awaiting.map .receipt⟩ ∧
      Level (index + 1) p' r' ∧ p'.tagBase = nextBase o p.tagBase (.file f) ∧
      p'.keys = p.keys ++ itemKeys o p.tagBase (.file f) := by
  obtain ⟨m, hhead⟩ :=
    leads_exchangeHeader (o := o) (p := p) (confirm index ++ (.advance f.size :: acts)) hl.serving
    hsig
  let p₁ := (p.opened index).reaped m
  obtain ⟨literal, matched, r', hload, hd⟩ := leads_payload (o := o) (p := p₁) (r := r)
    (confirm index ++ (.advance f.size :: acts)) (b := p₁.awaiting.map .receipt) hl.tagBase_eq hsig
  let p₂ := p₁.moved (payloadKeys o r.tagBase f (f.signature o)) literal matched
  have hd' : Delivered o sigs (header o index f) (payloadKeys o r.tagBase f (f.signature o))
    p₂.literalBytes p₂.matchedBytes r r' :=
    { hd with literal_eq := hd.literal_eq.trans (Nat.zero_add _).symm
              matched_eq := hd.matched_eq.trans (Nat.zero_add _).symm }
  obtain ⟨n, hdone⟩ := leads_confirm (p := p₂) acts f.size hd' rfl
  refine ⟨((p₂.enlist index).reaped n).advance o f.size, (r'.complete o).1, ?_, ?_, rfl, ?_⟩
  · have hacts : pushOne o index (.file f) ++ acts =
        .opened index ::
        (exchangeHeader o index f ++ (confirm index ++ (.advance f.size :: acts))) := by
      rw [pushOne, cons_append, append_assoc, append_assoc]
      rfl
    rw [hacts]
    exact (hhead.trans hload).trans hdone
  · refine ⟨rfl, ?_, ?_, ?_, ?_, ?_, ?_⟩
    · show (p.tagBase + _) % _ = (r'.tagBase + tagSpan r'.header.size o.pageSize) % _
      rw [hd.tagBase_eq, hd.header_eq, hl.tagBase_eq]
      rfl
    · show p.starts ++ [(index, p.tagBase)] = r'.starts
      rw [hd.starts_eq, hl.starts_eq, hl.tagBase_eq]
      rfl
    · show p.keys ++ _ = r'.keys
      rw [hd.keys_eq, hl.keys_eq]
    · intro c hc
      exact Push.mem_compared_reaped hc fun c hc => Push.mem_compared_reaped hc hl.compared_eq
    · exact forall_mem_append.mpr ⟨fun st hst => Nat.lt_succ_of_lt (hl.starts_lt st hst),
        forall_mem_singleton.mpr (Nat.lt_succ_self index)⟩
    · show ((p.starts ++ [(index, p.tagBase)]).map Prod.fst).Nodup
      rw [map_append, map_singleton]
      refine .append hl.starts_nodup (nodup_singleton _) ?_
      rw [disjoint_singleton]
      intro hmem
      obtain ⟨st, hst, heq⟩ := List.mem_map.mp hmem
      exact absurd (hl.starts_lt st hst) (by rw [heq]; exact Nat.lt_irrefl index)
  · show p.keys ++ _ = _
    rw [hl.tagBase_eq]
    rfl

/-- What holds when both sides are done. -/
structure Settled (keys : List ℕ) (x : Meeting Push Receiver Message) : Prop where
  starts_eq : x.lead.starts = x.peer.starts
  starts_nodup : (x.lead.starts.map Prod.fst).Nodup
  push_keys : x.lead.keys = keys
  receiver_keys : x.peer.keys = keys
  compared_eq : ∀ c ∈ x.lead.compared, c.1 = c.2

/-- **The whole push without delays**, by induction on the items. -/
theorem Level.completes {items : List Item} {index : ℕ} (hl : Level index p r)
    (hsigs : ∀ i f, items[i]? = some (.file f) → sigs (index + i) = f.basis) :
    (parties o sigs).Completes (Settled (p.keys ++ pushKeys o p.tagBase items))
      ⟨p.upTo (carry o index items), r, p.awaiting.map .receipt⟩ := by
  induction items generalizing index p r with
  | nil =>
    have hr : r.posted o = r := settled_of_serving hl.serving
    have hreap : (parties o sigs).Leads ⟨_, _, _ ++ []⟩ ⟨_, _, _ ++ []⟩ :=
      leads_reap (p := p) [Act.send .ending] 0 hr rfl
    have hnone : (p.reaped (p.awaiting.length - 0)).awaiting = [] := drop_length
    have hending : r.react o sigs .ending = some ({ r with mode := .ended }, []) :=
      if_pos hl.serving
    have hsay : (parties o sigs).Leads ⟨(p.reaped (p.awaiting.length - 0)).upTo [Act.send .ending],
      r, []⟩ ⟨(p.reaped (p.awaiting.length - 0)).upTo [], { r with mode := .ended }, []⟩ :=
        leads_send hr hending
    rw [hnone, map_nil, append_nil, append_nil] at hreap
    refine ⟨_, hreap.trans hsay, rfl, hl.starts_eq, hl.starts_nodup, ?_, ?_, fun c hc =>
      Push.mem_compared_reaped hc hl.compared_eq⟩
    · exact (append_nil _).symm
    · exact hl.keys_eq.symm.trans (append_nil _).symm
  | cons it items ih =>
    have hrest : ∀ i f, items[i]? = some (.file f) → sigs (index + 1 + i) = f.basis :=
      fun i f hi => by
      rw [Nat.add_assoc, Nat.add_comm 1 i]
      exact hsigs (i + 1) f hi
    cases it with
    | directory | link => exact (ih hl.mono hrest).of_leads (hl.leads_bare rfl)
    | file f =>
      obtain ⟨p', r', hleads, hl', hbase, hkeys⟩ :=
        hl.leads_file (o := o) (carry o (index + 1) items)
        (hsigs 0 f rfl)
      have h := (ih hl' hrest).of_leads hleads
      rwa [hbase, hkeys, append_assoc] at h

end Items

/-! ## Keys -/

section Keys

variable (o : Options)

/-- `proto::tagSpan` as a number. -/
def span (size : ℕ) : ℕ := ((size + o.pageSize - 1) / o.pageSize + 1) * o.pageSize

/-- The sum of the spans of the files. -/
def spans : List Item → ℕ
  | [] => 0
  | .file f :: items => span o f.size + spans items
  | _ :: items => spans items

theorem lt_span (size : ℕ) : size + o.pageSize - 1 < span o size := by
  have h := Nat.lt_div_mul_add o.page_pos (a := size + o.pageSize - 1)
  rw [span, Nat.succ_mul]
  exact h

theorem tagSpan_eq_span {size : ℕ} (h : span o size < 2 ^ 64) :
    tagSpan size o.pageSize = span o size := by
  have hlt := lt_span o size
  have hq : (size + o.pageSize - 1) / o.pageSize + 1 ≤ span o size :=
    Nat.le_mul_of_pos_right _ o.page_pos
  rw [tagSpan, Nat.mod_eq_of_lt (by omega : size + o.pageSize - 1 < 2 ^ 64),
    Nat.mod_eq_of_lt (by omega : (size + o.pageSize - 1) / o.pageSize + 1 < 2 ^ 64)]
  exact Nat.mod_eq_of_lt h

/-- The keys lie in a range of tags, in ascending order. -/
def Within (lo hi : ℕ) (keys : List ℕ) : Prop :=
  (∀ k ∈ keys, lo ≤ k ∧ k < hi) ∧ keys.Pairwise (· < ·)

variable {o} {hi lo : ℕ}

theorem Within.nil : Within lo hi [] := ⟨nofun, .nil⟩

theorem Within.append {mid : ℕ} {ks ls : List ℕ} (hk : Within lo mid ks) (hl : Within mid hi ls)
    (hlo : lo ≤ mid) (hhi : mid ≤ hi) : Within lo hi (ks ++ ls) := by
  refine ⟨fun k h => ?_, pairwise_append.mpr ⟨hk.2, hl.2, fun a ha b hb => ?_⟩⟩
  · rcases mem_append.mp h with h | h
    · exact ⟨(hk.1 k h).1, lt_of_lt_of_le (hk.1 k h).2 hhi⟩
    · exact ⟨hlo.trans (hl.1 k h).1, (hl.1 k h).2⟩
  · exact lt_of_lt_of_le (hk.1 a ha).2 (hl.1 b hb).1

theorem Within.mono {hi' : ℕ} {ks : List ℕ} (h : Within lo hi ks) (hle : hi ≤ hi') :
    Within lo hi' ks :=
  ⟨fun k hk => ⟨(h.1 k hk).1, lt_of_lt_of_le (h.1 k hk).2 hle⟩, h.2⟩

theorem pageKeys_within {at_ : ℕ} (hend : tagBase + end_ ≤ 2 ^ 64) :
    Within (tagBase + at_) (tagBase + end_) (pageKeys tagBase o.pageSize end_ passes at_) := by
  refine ⟨fun k hk => Client.Keys.mem_pageKeys o.page_pos hend hk, ?_⟩
  induction passes generalizing at_ with
  | zero => exact .nil
  | succ passes ih =>
    rw [pageKeys]
    split_ifs with hat
    · refine .cons (fun k hk => ?_) ih
      have hpos := o.page_pos
      have := (Client.Keys.mem_pageKeys o.page_pos hend hk).1
      rw [Nat.mod_eq_of_lt (by omega)]
      omega
    · exact .nil

/-- Instructions that tile a range of the file have their keys there. -/
theorem deltaKeys_within {from_ : ℕ} {is : List Instruction} (htiles : Tiles from_ is end_)
    (hend : tagBase + end_ ≤ 2 ^ 64) :
    from_ ≤ end_ ∧ Within (tagBase + from_) (tagBase + end_) (deltaKeys o tagBase is) := by
  induction is generalizing from_ with
  | nil =>
    obtain rfl : from_ = end_ := htiles
    exact ⟨le_refl _, .nil⟩
  | cons ins is ih =>
    obtain ⟨hdst, hpos, hrest⟩ := htiles
    obtain ⟨hle, hwithin⟩ := ih hrest
    refine ⟨by omega, ?_⟩
    rw [deltaKeys]
    refine .append ?_ hwithin (by omega) (by omega)
    cases ins.kind with
    | literal =>
      rw [hdst]
      exact pageKeys_within (by omega)
    | copy => exact .nil

theorem payloadKeys_within {sig : Signature} (hend : tagBase + f.size ≤ 2 ^ 64) :
    Within tagBase (tagBase + f.size) (payloadKeys o tagBase f sig) := by
  rw [payloadKeys]
  split_ifs
  · exact (deltaKeys_within (f.tiles sig) hend).2
  · exact pageKeys_within hend

/-- **The keys of a push ascend**, from file to file, while its spans fit. -/
theorem pushKeys_within {items : List Item} (h : tagBase + spans o items < 2 ^ 64) :
    Within tagBase (tagBase + spans o items) (pushKeys o tagBase items) := by
  induction items generalizing tagBase with
  | nil => exact .nil
  | cons it items ih =>
    cases it with
    | directory | link => exact ih h
    | file f =>
      rw [spans] at h ⊢
      have hlt := lt_span o f.size
      have hpos := o.page_pos
      have hnext : nextBase o tagBase (.file f) = tagBase + span o f.size := by
        rw [nextBase, tagSpan_eq_span o (by omega)]
        exact Nat.mod_eq_of_lt (by omega)
      rw [pushKeys, itemKeys, hnext, ← Nat.add_assoc]
      exact .append ((payloadKeys_within (by omega)).mono (by omega)) (ih (by omega))
        (Nat.le_add_right _ _)
        (Nat.le_add_right _ _)

end Keys

/-! ## All interleavings -/

section Main

variable {o : Options} {sigs : ℕ → Signature}

/-- What the records of one state are to those of a later one. -/
structure Extends (x y : Meeting Push Receiver Message) : Prop where
  push_starts : x.lead.starts <+: y.lead.starts
  push_keys : x.lead.keys <+: y.lead.keys
  compared : x.lead.compared <+: y.lead.compared
  receiver_starts : x.peer.starts <+: y.peer.starts
  receiver_keys : x.peer.keys <+: y.peer.keys

theorem Receiver.posted_extends (r : Receiver) :
    r.starts <+: (r.posted o).starts ∧ r.keys <+: (r.posted o).keys := by
  rw [Receiver.posted]
  split <;> simp [Receiver.moved, Receiver.upTo]

variable {p : Push} {m : Message}

theorem Receiver.react_extends {r r' : Receiver} {answers : List Message}
    (h : r.react o sigs m = some (r', answers)) : r.starts <+: r'.starts ∧ r.keys <+: r'.keys := by
  cases m with
  | signature v | receipt v => cases h
  | fileHeader v | ending | literal offset length | copy blockIndex dstOffset | done =>
    rw [Receiver.react] at h
    grind [Receiver.moved, Receiver.opened, Receiver.complete, prefix_append, prefix_refl]

theorem absorb_extends {ms : List Message} {r r' : Receiver} {answers : List Message}
    (h : (parties o sigs).absorb r ms = some (r', answers)) :
    r.starts <+: r'.starts ∧ r.keys <+: r'.keys := by
  induction ms generalizing r answers with
  | nil =>
    obtain ⟨rfl, -⟩ := Prod.mk.inj (some.inj h)
    exact r.posted_extends
  | cons m ms ih =>
    rw [Parties.absorb] at h
    obtain ⟨a, ha, h⟩ := bind_eq_some_iff.mp h
    obtain ⟨c, hc, heq⟩ := map_eq_some_iff.mp h
    obtain ⟨rfl, -⟩ := Prod.mk.inj heq
    have hposted := r.posted_extends (o := o)
    have hreact := Receiver.react_extends ha
    have hrest := ih hc
    exact ⟨(hposted.1.trans hreact.1).trans hrest.1, (hposted.2.trans hreact.2).trans hrest.2⟩

/-- The records of a push, which only grow. -/
def Push.Grows (p q : Push) : Prop := p.starts <+: q.starts ∧ p.keys <+: q.keys ∧
  p.compared <+: q.compared

theorem Push.move_extends {next : Push} {sent : List Message} (h : p.move o = .act next sent) :
    p.Grows next := by
  rw [Push.move] at h
  split at h <;>
    grind [Push.Grows, Push.moved, Push.upTo, Push.opened, Push.enlist, Push.advance, prefix_append,
    prefix_refl]

variable {take : Message → Option Push}

/-- Where a push waits, it waits for a receipt or for a signature. -/
theorem Push.move_await (h : p.move o = .await take) :
    (p.awaits = some .receipt ∧ take = p.takeReceipt) ∨
      ∃ f acts, p.awaits = some .signature ∧ take = p.takeSignature o f acts := by
  rw [Push.move] at h
  split at h <;> grind [Push.awaits]

theorem Push.move_of_awaits {k : MsgType} (h : p.awaits = some k) :
    ∃ take, p.move o = .await take := by
  rw [Push.awaits] at h
  split at h <;> simp_all [Push.move]

theorem Push.acts_of_halt (h : p.move o = .halt) : p.acts = [] := by
  rw [Push.move] at h
  split at h <;> grind

/-- A push that waits takes only messages of the kind it waits for. -/
theorem Push.kind_of_take {next : Push} (h : p.move o = .await take)
    (ht : take m = some next) : p.awaits = some m.kind ∧ p.Grows next := by
  rcases Push.move_await h with ⟨hk, rfl⟩ | ⟨f, acts, hk, rfl⟩ <;> cases m <;>
    grind [Push.takeReceipt, Push.takeSignature, Message.kind, Push.Grows, Push.upTo, prefix_append,
    prefix_refl]

theorem meet_extends {x y : Meeting Push Receiver Message} (h : (parties o sigs).meet x = some y) :
    Extends x y := by
  rw [Parties.meet] at h
  split at h
  · next next sent hmove =>
    obtain ⟨a, ha, rfl⟩ := map_eq_some_iff.mp h
    obtain ⟨h₁, h₂, h₃⟩ := Push.move_extends hmove
    obtain ⟨h₄, h₅⟩ := absorb_extends ha
    exact ⟨h₁, h₂, h₃, h₄, h₅⟩
  · next take hmove =>
    split at h
    · cases h
    · obtain ⟨next, hnext, rfl⟩ := map_eq_some_iff.mp h
      obtain ⟨-, h₁, h₂, h₃⟩ := Push.kind_of_take hmove hnext
      exact ⟨h₁, h₂, h₃, prefix_refl _, prefix_refl _⟩
  · cases h

theorem Extends.trans {x y z : Meeting Push Receiver Message} (hxy : Extends x y)
    (hyz : Extends y z) : Extends x z :=
  ⟨hxy.1.trans hyz.1, hxy.2.trans hyz.2, hxy.3.trans hyz.3, hxy.4.trans hyz.4, hxy.5.trans hyz.5⟩

variable (o : Options)

/-- A message that a receiver takes is of a kind that it waits for, whether or not it has pages to
post first. -/
theorem Receiver.kind_mem_awaits (sigs : ℕ → Signature) {r : Receiver}
    (h : (r.posted o).react o sigs m ≠ none) : m.kind ∈ r.awaits := by
  have hawaits : (r.posted o).awaits = r.awaits := by
    rw [Receiver.posted]
    split <;> simp [Receiver.awaits, Receiver.moved, Receiver.upTo, *]
  rw [← hawaits]
  generalize r.posted o = r' at h
  cases m with
  | signature v | receipt v => exact absurd rfl h
  | fileHeader v | ending | literal offset length | copy blockIndex dstOffset | done =>
    rw [Receiver.react] at h
    grind [Receiver.awaits, Message.kind]

variable (items : List Item)

/-- What the receiver's `openTarget` makes of the destination of each item. -/
def signatures (i : ℕ) : Signature :=
  match items[i]? with
  | some (.file f) => f.basis
  | _ => noSignature

/-- Both sides after they have negotiated. -/
def start : Duplex.State Push Receiver Message Message :=
  { lead := { acts := carry o 0 items }, peer := {} }

/-- The system of the two sides, for a list of items. -/
abbrev session : Parties Push Receiver Message Message := parties o (signatures items)

/-- What the receiver answers to the messages under way to it. -/
def replies (s : Duplex.State Push Receiver Message Message) : List Message :=
  (((session o items).absorb s.peer s.out).map Prod.snd).getD []

theorem start_views :
    ∃ x, (session o items).Views (start o items) x ∧
      (session o items).Completes (Settled (pushKeys o 0 items)) x := by
  have hl : Level 0 { acts := carry o 0 items } {} :=
    ⟨rfl, rfl, rfl, rfl, nofun, nofun, nodup_nil⟩
  have hsigs : ∀ i f, items[i]? = some (.file f) → signatures items (0 + i) = f.basis :=
    fun i f hi => by
    rw [signatures, Nat.zero_add, hi]
  exact ⟨_, ⟨rfl, [], rfl, rfl⟩, hl.completes hsigs⟩

/-- **Push and receive stay in step.**  In every state of every interleaving: what the push waits
for is what comes next to it, from the messages under way or as the answer to those under way to the
receiver; the receiver's next message is one that it waits for; someone can go on until all is done.
Every receipt was compared with the file it was made for.  Both sides had the same tag base when a
file started.  The pages are sent and posted under the keys of one list, which are distinct as long
as the spans of the files sum to less than `2 ^ 64`. -/
theorem push_in_step (o : Options) (items : List Item) {es : List Duplex.Event}
    {s : Duplex.State Push Receiver Message Message}
    (hrun : Runs.exec (session o items).step (start o items) es = some s) :
    (∀ k, s.lead.awaits = some k → ∃ m rest, s.back ++ replies o items s = m :: rest ∧ m.kind = k) ∧
    (∀ m rest, s.out = m :: rest → m.kind ∈ s.peer.awaits) ∧
    ((s.lead.acts = [] ∧ s.out = []) ∨ ∃ e t, (session o items).step s e = some t) ∧
    (∀ c ∈ s.lead.compared, c.1 = c.2) ∧
    (∀ i b b', (i, b) ∈ s.lead.starts → (i, b') ∈ s.peer.starts → b = b') ∧
    (s.lead.keys <+: pushKeys o 0 items ∧ s.peer.keys <+: pushKeys o 0 items ∧
      (spans o items < 2 ^ 64 → (pushKeys o 0 items).Nodup)) := by
  obtain ⟨x, hv, hc⟩ := Parties.views_of_exec (start_views o items) hrun
  obtain ⟨y, hxy, hy⟩ := hc.exists_final Extends
    (fun x => ⟨prefix_refl _, prefix_refl _, prefix_refl _, prefix_refl _, prefix_refl _⟩)
    .trans meet_extends
  obtain ⟨hlead, answers, habs, hback⟩ := id hv
  obtain ⟨hstarts, hkeys⟩ := absorb_extends habs
  have hreplies : replies o items s = answers := by rw [replies, habs, map_some, getD_some]
  refine ⟨fun k hk => ?_, fun m rest hout => ?_, ?_, fun c hc => ?_, fun i b b' hb hb' => ?_, ?_,
    ?_, fun hspans => ?_⟩
  · obtain ⟨take, hmove⟩ := Push.move_of_awaits (o := o) hk
    obtain ⟨m, rest, hm, htake⟩ := hv.awaited hc hmove
    obtain ⟨next, hnext⟩ := ne_none_iff_exists'.mp htake
    obtain rfl := some.inj (hk.symm.trans (Push.kind_of_take hmove hnext).1)
    exact ⟨m, rest, by rw [hreplies, ← hback, hm], rfl⟩
  · refine Receiver.kind_mem_awaits o (signatures items) ?_
    rw [hout, Parties.absorb] at habs
    obtain ⟨a, ha, -⟩ := bind_eq_some_iff.mp habs
    exact fun h => absurd (ha.symm.trans h) (some_ne_none a)
  · exact (hv.progress hc).imp (fun h => ⟨Push.acts_of_halt h.1, h.2⟩) id
  · rw [hlead] at hc
    exact hy.compared_eq c (hxy.compared.subset hc)
  · rw [hlead] at hb
    have hmem : (i, b) ∈ y.lead.starts := hxy.push_starts.subset hb
    have hmem' : (i, b') ∈ y.lead.starts :=
      hy.starts_eq ▸ (hstarts.trans hxy.receiver_starts).subset hb'
    exact (Prod.mk.inj (inj_on_of_nodup_map hy.starts_nodup hmem hmem' rfl)).2
  · rw [hlead, ← hy.push_keys]
    exact hxy.push_keys
  · rw [← hy.receiver_keys]
    exact hkeys.trans hxy.receiver_keys
  · have hwithin : Within 0 _ (pushKeys o 0 items) := pushKeys_within (by rwa [Nat.zero_add])
    exact hwithin.2.imp fun h => Nat.ne_of_lt h

/-- Three bytes, of which the destination has the first two as its one block. -/
def threeBytes : File where
  size := 3
  basis := ⟨2, 16, 2, [⟨0, Vector.replicate 16 0⟩]⟩
  instructions sig :=
    if blockLengthAt sig 0 = 2 then [⟨.copy, 0, 0, 0, 2, []⟩,
      ⟨.literal, 0, 2, 2, 1, []⟩] else wholeLiteral 3
  tiles sig := by
    split_ifs
    · exact ⟨rfl, by decide, rfl, by decide, rfl⟩
    · exact tiles_wholeLiteral 3
  copies sig ins hins hcopy := by
    split_ifs at hins with h
    · rcases mem_pair.mp hins with rfl | rfl
      · exact h.symm
      · cases hcopy
    · exact absurd (hcopy.symm.trans (kind_of_mem_wholeLiteral hins)) (by simp)

/-- Pages of two bytes, and deltas whenever there is a basis. -/
def twoBytePages : Options := ⟨.always, false, 2, by decide, by decide⟩

/-- The push has sent two files, and has the receipt of the first and the signature of the second to
come. -/
def twoFiles : List Duplex.Event :=
  List.replicate 4 .lead ++ List.replicate 2 .peer ++ List.replicate 12 .lead ++
    List.replicate 5 .peer ++ [.lead]

theorem push_in_step_two_files :
    ∃ s, Runs.exec (session twoBytePages [.directory, .file threeBytes, .link,
      .file threeBytes]).step
      (start twoBytePages [.directory, .file threeBytes, .link, .file threeBytes]) twoFiles =
      some s ∧ s.lead.compared = [(⟨1, 1, 2⟩, ⟨1, 1, 2⟩)] ∧ s.lead.starts = s.peer.starts ∧
      (∀ c ∈ s.lead.compared, c.1 = c.2) ∧
      (pushKeys twoBytePages 0 [.file threeBytes, .file threeBytes]).Nodup := by
  refine Runs.exists_exec rfl fun hs => ?_
  have h := push_in_step _ _ hs
  exact ⟨rfl, rfl, h.2.2.2.1, h.2.2.2.2.2.2.2 (by decide)⟩

end Main

end Rail.Session
