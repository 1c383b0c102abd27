import Rail.Proto.Message

/-!
# The codec of the control protocol

`src/proto/codec.cc` and `include/rail/proto/codec.h`.  `encode` writes the fields of a message one
after another, and `decode` reads them back with a cursor that fails once and for all; whether it
did is asked at the end.  The two lists are read with their number in front, which is checked
against what is left before anything is reserved for them.

`reads_body` says of every message that its type's program reads it from its encoding and fails on
every proper prefix; the proof names the fields in the order of the source.
-/

namespace Rail.Proto

open List Wire

/-- A program of the decoder; the error is what `failMessage` is given. -/
abbrev Decode := Get String

/-! ## Parts of messages -/

def writeAttrs (a : FileAttrs) : Bytes :=
  List.flatten [Put.u64 a.size, Put.u64 a.dev, Put.u64 a.ino, Put.u32 a.mode, Put.u32 a.uid,
    Put.u32 a.gid, Put.i64 a.mtime, Put.bool a.directory, Put.bool a.link, Put.u32 a.links]

def readAttrs : Decode FileAttrs := do
  let size ← Get.u64
  let dev ← Get.u64
  let ino ← Get.u64
  let mode ← Get.u32
  let uid ← Get.u32
  let gid ← Get.u32
  let mtime ← Get.i64
  let directory ← Get.bool
  let link ← Get.bool
  let links ← Get.u32
  return { size, dev, ino, mode, uid, gid, mtime, directory, link, links }

/-- `Reader::hash`: zero where the cursor fails. -/
def readHash : Decode Digest := do
  let d ← Get.take 16
  return if h : d.length = 16 then ⟨d, h⟩ else .zero

def writeHash (d : Digest) : Bytes := d.1

def writeSum (s : BlockSum) : Bytes := List.flatten [Put.u32 s.weak, writeHash s.strong]

def readSum : Decode BlockSum := do
  let weak ← Get.u32
  let strong ← readHash
  return { weak, strong }

def writeEntry (e : ListEntry) : Bytes := List.flatten [Put.str e.name, writeAttrs e.attrs]

def readEntry : Decode ListEntry := do
  let name ← Get.str
  let attrs ← readAttrs
  return { name, attrs }

/-- `kAttrsBytes`. -/
def attrsBytes : ℕ := 50

/-- `kListEntryFloor`. -/
def listEntryFloor : ℕ := 4 + attrsBytes

/-! ## Messages -/

def encode : Message → Bytes
  | .hello v =>
      List.flatten [Put.u16 v.version, Put.str v.backend, Put.u32 v.blockSize, Put.u64 v.pageCount,
        Put.u64 v.pageSize, Put.u64 v.windowPages, Put.bool v.recursive, Put.bool v.verify,
        Put.u8 v.sum]
  | .helloAck v => List.flatten [Put.str v.backend, Put.str v.channelEndpoint]
  | .ending => List.flatten []
  | .fileHeader v => List.flatten [Put.str v.name, Put.u64 v.size, Put.u32 v.mode, Put.i64 v.mtime,
      Put.bool v.directory, Put.bool v.wantSignature, Put.bool v.streamed, Put.bool v.link,
      Put.str v.target]
  | .signature v =>
      List.flatten [Put.u32 v.blockLength, Put.u32 v.strongLength, Put.u64 v.fileLength,
        Put.u32 (UInt32.ofNat v.sums.length), Put.each writeSum v.sums]
  | .copy v => List.flatten [Put.u32 v.blockIndex, Put.u32 v.count, Put.u64 v.dstOffset]
  | .literal v => List.flatten [Put.u64 v.offset, Put.u32 v.length]
  | .done v => List.flatten [writeHash v.wholeFileHash]
  | .receipt v => List.flatten [Put.u64 v.literalBytes, Put.u64 v.matchedBytes, Put.u64 v.hashHits,
      Put.u64 v.falseAlarms]
  | .stat v => List.flatten [Put.u64 v.id, Put.str v.path]
  | .statReply v => List.flatten [Put.u64 v.id, Put.bool v.found, writeAttrs v.attrs]
  | .list v => List.flatten [Put.u64 v.id, Put.str v.path]
  | .listReply v =>
      List.flatten [Put.u64 v.id, Put.bool v.found, Put.u32 (UInt32.ofNat v.entries.length),
        Put.each writeEntry v.entries, writeAttrs v.self, writeAttrs v.parent]
  | .read v =>
      List.flatten [Put.u64 v.id, Put.str v.path, Put.u64 v.offset, Put.u32 v.length,
        Put.u64 v.handle]
  | .write v => List.flatten [Put.u64 v.id, Put.str v.path, Put.u64 v.offset, Put.u32 v.length,
      Put.bool v.truncate, writeHash v.payload, Put.u64 v.handle]
  | .peerEndpoint v => List.flatten [Put.str v.blob]
  | .fetch v => List.flatten [Put.u64 v.id, Put.u64 v.tagBase, Put.str v.path, Put.u64 v.offset,
      Put.u64 v.length, Put.u64 v.handle]
  | .store v => List.flatten [Put.u64 v.id, Put.u64 v.tagBase, Put.str v.path, Put.u64 v.offset,
      Put.u64 v.length, Put.bool v.truncate, Put.u64 v.handle]
  | .streamReply v => List.flatten [Put.u64 v.id, Put.u64 v.length, Put.bool v.ok, Put.str v.error]
  | .streamDigest v =>
      List.flatten [Put.u64 v.id, writeHash v.whole, Put.bool v.ok, Put.str v.error]
  | .meta_ v => List.flatten [Put.u64 v.id, Put.u16 v.op.code, Put.str v.path, Put.str v.target,
      Put.u64 v.size, Put.u32 v.mode, Put.i64 v.mtime, Put.u64 v.handle, Put.bool v.exclusive]
  | .openFile v => List.flatten [Put.u64 v.id, Put.str v.path, Put.bool v.writable]
  | .openReply v => List.flatten [Put.u64 v.id, Put.bool v.ok, Put.bool v.found, Put.u64 v.handle,
      writeAttrs v.attrs, Put.str v.error, Put.u32 v.errno]
  | .close v => List.flatten [Put.u64 v.id, Put.u64 v.handle]
  | .metaReply v =>
      List.flatten [Put.u64 v.id, Put.bool v.ok, Put.str v.error, Put.str v.target, Put.u32 v.errno,
        writeAttrs v.attrs]
  | .statFs v => List.flatten [Put.u64 v.id, Put.str v.path]
  | .statFsReply v =>
      List.flatten [Put.u64 v.id, Put.bool v.ok, Put.u64 v.blockSize, Put.u64 v.blocks,
        Put.u64 v.blocksFree, Put.u64 v.files, Put.u64 v.filesFree, Put.str v.error]
  | .transferReply v =>
      List.flatten [Put.u64 v.id, Put.u32 v.length, Put.u64 v.fileSize, Put.bool v.ok,
        writeHash v.payload, Put.str v.error]

/-- The number of sums may be one more than there is room for. -/
def sumsShort (n : UInt32) (remaining : ℕ) : Bool := decide (remaining + 20 < n.toNat * 20)

def entriesShort (n : UInt32) (remaining : ℕ) : Bool :=
  decide (remaining < n.toNat * listEntryFloor)

/-- The program of each type. -/
def body : MsgType → Decode Message
  | .hello => do
      let version ← Get.u16
      let backend ← Get.str
      let blockSize ← Get.u32
      let pageCount ← Get.u64
      let pageSize ← Get.u64
      let windowPages ← Get.u64
      let recursive ← Get.bool
      let verify ← Get.bool
      let sum ← Get.u8
      return .hello
        { version, backend, blockSize, pageCount, pageSize, windowPages, recursive, verify, sum }
  | .helloAck => do
      let backend ← Get.str
      let channelEndpoint ← Get.str
      return .helloAck { backend, channelEndpoint }
  | .fileHeader => do
      let name ← Get.str
      let size ← Get.u64
      let mode ← Get.u32
      let mtime ← Get.i64
      let directory ← Get.bool
      let wantSignature ← Get.bool
      let streamed ← Get.bool
      let link ← Get.bool
      let target ← Get.str
      return .fileHeader
        { name, size, mode, mtime, directory, wantSignature, streamed, link, target }
  | .signature => do
      let blockLength ← Get.u32
      let strongLength ← Get.u32
      let fileLength ← Get.u64
      let n ← Get.u32
      Get.guarded (sumsShort n) "signature length out of range" do
        let sums ← Get.many readSum n.toNat
        return .signature { blockLength, strongLength, fileLength, sums }
  | .copy => do
      let blockIndex ← Get.u32
      let count ← Get.u32
      let dstOffset ← Get.u64
      return .copy { blockIndex, count, dstOffset }
  | .literal => do
      let offset ← Get.u64
      let length ← Get.u32
      return .literal { offset, length }
  | .ending => return .ending
  | .done => do
      let wholeFileHash ← readHash
      return .done { wholeFileHash }
  | .receipt => do
      let literalBytes ← Get.u64
      let matchedBytes ← Get.u64
      let hashHits ← Get.u64
      let falseAlarms ← Get.u64
      return .receipt { literalBytes, matchedBytes, hashHits, falseAlarms }
  | .stat => do
      let id ← Get.u64
      let path ← Get.str
      return .stat { id, path }
  | .statReply => do
      let id ← Get.u64
      let found ← Get.bool
      let attrs ← readAttrs
      return .statReply { id, found, attrs }
  | .list => do
      let id ← Get.u64
      let path ← Get.str
      return .list { id, path }
  | .listReply => do
      let id ← Get.u64
      let found ← Get.bool
      let count ← Get.u32
      Get.guarded (entriesShort count) "list reply length out of range" do
        let entries ← Get.many readEntry count.toNat
        let self ← readAttrs
        let parent ← readAttrs
        return .listReply { id, found, entries, self, parent }
  | .read => do
      let id ← Get.u64
      let path ← Get.str
      let offset ← Get.u64
      let length ← Get.u32
      let handle ← Get.u64
      return .read { id, path, offset, length, handle }
  | .write => do
      let id ← Get.u64
      let path ← Get.str
      let offset ← Get.u64
      let length ← Get.u32
      let truncate ← Get.bool
      let payload ← readHash
      let handle ← Get.u64
      return .write { id, path, offset, length, truncate, payload, handle }
  | .fetch => do
      let id ← Get.u64
      let tagBase ← Get.u64
      let path ← Get.str
      let offset ← Get.u64
      let length ← Get.u64
      let handle ← Get.u64
      return .fetch { id, tagBase, path, offset, length, handle }
  | .store => do
      let id ← Get.u64
      let tagBase ← Get.u64
      let path ← Get.str
      let offset ← Get.u64
      let length ← Get.u64
      let truncate ← Get.bool
      let handle ← Get.u64
      return .store { id, tagBase, path, offset, length, truncate, handle }
  | .openFile => do
      let id ← Get.u64
      let path ← Get.str
      let writable ← Get.bool
      return .openFile { id, path, writable }
  | .openReply => do
      let id ← Get.u64
      let ok ← Get.bool
      let found ← Get.bool
      let handle ← Get.u64
      let attrs ← readAttrs
      let error ← Get.str
      let errno ← Get.u32
      return .openReply { id, ok, found, handle, attrs, error, errno }
  | .close => do
      let id ← Get.u64
      let handle ← Get.u64
      return .close { id, handle }
  | .meta_ => do
      let id ← Get.u64
      let op ← Get.u16
      let path ← Get.str
      let target ← Get.str
      let size ← Get.u64
      let mode ← Get.u32
      let mtime ← Get.i64
      let handle ← Get.u64
      let exclusive ← Get.bool
      return .meta_ { id, op := ⟨op⟩, path, target, size, mode, mtime, handle, exclusive }
  | .metaReply => do
      let id ← Get.u64
      let ok ← Get.bool
      let error ← Get.str
      let target ← Get.str
      let errno ← Get.u32
      let attrs ← readAttrs
      return .metaReply { id, ok, error, target, errno, attrs }
  | .statFs => do
      let id ← Get.u64
      let path ← Get.str
      return .statFs { id, path }
  | .statFsReply => do
      let id ← Get.u64
      let ok ← Get.bool
      let blockSize ← Get.u64
      let blocks ← Get.u64
      let blocksFree ← Get.u64
      let files ← Get.u64
      let filesFree ← Get.u64
      let error ← Get.str
      return .statFsReply { id, ok, blockSize, blocks, blocksFree, files, filesFree, error }
  | .streamDigest => do
      let id ← Get.u64
      let whole ← readHash
      let ok ← Get.bool
      let error ← Get.str
      return .streamDigest { id, whole, ok, error }
  | .streamReply => do
      let id ← Get.u64
      let length ← Get.u64
      let ok ← Get.bool
      let error ← Get.str
      return .streamReply { id, length, ok, error }
  | .peerEndpoint => do
      let blob ← Get.str
      return .peerEndpoint { blob }
  | .transferReply => do
      let id ← Get.u64
      let length ← Get.u32
      let fileSize ← Get.u64
      let ok ← Get.bool
      let payload ← readHash
      let error ← Get.str
      return .transferReply { id, length, fileSize, ok, payload, error }

/-- Whether the cursor failed is asked at the end. -/
def finish (t : MsgType) : Except String (Message × Reader) → Except String Message
  | .error e => .error e
  | .ok (m, r) => if r.ok then .ok m else .error ("truncated " ++ t.name)

def decode (code : UInt16) (payload : Bytes) : Except String Message :=
  match MsgType.ofCode code with
  | none => .error "unknown message type"
  | some t => finish t ((body t).run (Reader.start payload))

/-! ## What is read -/

/-- Strings and lists are shorter than their length fields can say. -/
def Message.Fits : Message → Prop
  | hello v => v.backend.length < 2 ^ 32
  | helloAck v => v.backend.length < 2 ^ 32 ∧ v.channelEndpoint.length < 2 ^ 32
  | fileHeader v => v.name.length < 2 ^ 32 ∧ v.target.length < 2 ^ 32
  | signature v => v.sums.length < 2 ^ 32
  | stat v => v.path.length < 2 ^ 32
  | list v => v.path.length < 2 ^ 32
  | listReply v => v.entries.length < 2 ^ 32 ∧ ∀ e ∈ v.entries, e.name.length < 2 ^ 32
  | read v => v.path.length < 2 ^ 32
  | write v => v.path.length < 2 ^ 32
  | transferReply v => v.error.length < 2 ^ 32
  | peerEndpoint v => v.blob.length < 2 ^ 32
  | fetch v => v.path.length < 2 ^ 32
  | store v => v.path.length < 2 ^ 32
  | streamReply v => v.error.length < 2 ^ 32
  | streamDigest v => v.error.length < 2 ^ 32
  | meta_ v => v.path.length < 2 ^ 32 ∧ v.target.length < 2 ^ 32
  | metaReply v => v.error.length < 2 ^ 32 ∧ v.target.length < 2 ^ 32
  | statFs v => v.path.length < 2 ^ 32
  | statFsReply v => v.error.length < 2 ^ 32
  | openFile v => v.path.length < 2 ^ 32
  | openReply v => v.error.length < 2 ^ 32
  | _ => True

theorem reads_attrs (a : FileAttrs) : Reads readAttrs (writeAttrs a) a :=
  .u64 <| .u64 <| .u64 <| .u32 <| .u32 <| .u32 <| .i64 <| .bool <| .bool <| .u32 <| .pure _

variable {w : Bytes}

theorem Reads.attrs {β : Type} {a : FileAttrs} {k : FileAttrs → Decode β} {b : β}
    (h : Reads (k a) w b) : Reads (readAttrs >>= k) (writeAttrs a ++ w) b :=
  .bind (reads_attrs a) h

theorem reads_hash (d : Digest) : Reads readHash (writeHash d) d := by
  have hread : Reads readHash (d.1 ++ []) (if h : d.1.length = 16 then ⟨d.1, h⟩ else .zero) :=
    .fixed d.2 (.pure _)
  rwa [dif_pos d.2, append_nil] at hread

theorem Reads.hash {β : Type} {d : Digest} {k : Digest → Decode β} {b : β} (h : Reads (k d) w b) :
    Reads (readHash >>= k) (writeHash d ++ w) b :=
  .bind (reads_hash d) h

theorem reads_sum (s : BlockSum) : Reads readSum (writeSum s) s := .u32 <| Reads.hash <| .pure _

theorem reads_entry {e : ListEntry} (h : e.name.length < 2 ^ 32) :
    Reads readEntry (writeEntry e) e :=
  .str h <| Reads.attrs <| .pure _

theorem length_writeAttrs (a : FileAttrs) : (writeAttrs a).length = attrsBytes := by
  simp [writeAttrs, attrsBytes]

theorem reads_signature (v : Signature) (h : v.sums.length < 2 ^ 32) :
    Reads (body .signature) (encode (.signature v)) (.signature v) := by
  have hnum : (UInt32.ofNat v.sums.length).toNat = v.sums.length := UInt32.toNat_ofNat_of_lt' h
  refine .u32 <| .u32 <| .u64 <| .u32 <| .guarded ?_ fun n hn => ?_
  · rw [hnum]
    exact .bind (.many fun s _ => reads_sum s) (.pure _)
  · -- each sum has twenty bytes
    have hlen : v.sums.length * 20 ≤ (Put.each writeSum v.sums).length :=
      length_each writeSum v.sums fun s _ => by simp [writeSum, writeHash, s.strong.2]
    rw [flatten_cons, length_append] at hn
    rw [sumsShort, hnum]
    exact decide_eq_false (by omega)

theorem reads_listReply (v : ListReply) (h : v.entries.length < 2 ^ 32)
    (he : ∀ e ∈ v.entries, e.name.length < 2 ^ 32) :
    Reads (body .listReply) (encode (.listReply v)) (.listReply v) := by
  have hnum : (UInt32.ofNat v.entries.length).toNat = v.entries.length :=
    UInt32.toNat_ofNat_of_lt' h
  refine .u64 <| .bool <| .u32 <| .guarded ?_ fun n hn => ?_
  · rw [hnum]
    exact .bind (.many fun e hmem => reads_entry (he e hmem)) (Reads.attrs <| Reads.attrs <|
      .pure _)
  · have hlen : v.entries.length * listEntryFloor ≤ (Put.each writeEntry v.entries).length :=
      length_each writeEntry v.entries fun e _ => by
        simp [writeEntry, length_writeAttrs, listEntryFloor]
    rw [flatten_cons, length_append] at hn
    rw [entriesShort, hnum]
    exact decide_eq_false (by omega)

/-- **Every message is read from its encoding, and from no proper prefix of it.** -/
theorem reads_body (m : Message) (h : m.Fits) : Reads (body m.type) (encode m) m := by
  cases m with
  | hello v =>
    exact .u16 <| .str h <| .u32 <| .u64 <| .u64 <| .u64 <| .bool <| .bool <| .u8 <| .pure _
  | helloAck v => exact .str h.1 <| .str h.2 <| .pure _
  | fileHeader v =>
    exact .str h.1 <| .u64 <| .u32 <| .i64 <| .bool <| .bool <| .bool <| .bool <|
      .str h.2 <| .pure _
  | signature v => exact reads_signature v h
  | copy v => exact .u32 <| .u32 <| .u64 <| .pure _
  | literal v => exact .u64 <| .u32 <| .pure _
  | done v => exact Reads.hash <| .pure _
  | receipt v => exact .u64 <| .u64 <| .u64 <| .u64 <| .pure _
  | ending => exact .pure _
  | stat v | list v | statFs v => exact .u64 <| .str h <| .pure _
  | statReply v => exact .u64 <| .bool <| Reads.attrs <| .pure _
  | listReply v => exact reads_listReply v h.1 h.2
  | read v => exact .u64 <| .str h <| .u64 <| .u32 <| .u64 <| .pure _
  | write v => exact .u64 <| .str h <| .u64 <| .u32 <| .bool <| Reads.hash <| .u64 <| .pure _
  | transferReply v => exact .u64 <| .u32 <| .u64 <| .bool <| Reads.hash <| .str h <| .pure _
  | peerEndpoint v => exact .str h <| .pure _
  | fetch v => exact .u64 <| .u64 <| .str h <| .u64 <| .u64 <| .u64 <| .pure _
  | store v => exact .u64 <| .u64 <| .str h <| .u64 <| .u64 <| .bool <| .u64 <| .pure _
  | streamReply v => exact .u64 <| .u64 <| .bool <| .str h <| .pure _
  | streamDigest v => exact .u64 <| Reads.hash <| .bool <| .str h <| .pure _
  | meta_ v =>
    exact .u64 <| .u16 <| .str h.1 <| .str h.2 <| .u64 <| .u32 <| .i64 <| .u64 <| .bool <| .pure _
  | metaReply v => exact .u64 <| .bool <| .str h.1 <| .str h.2 <| .u32 <| Reads.attrs <| .pure _
  | statFsReply v =>
    exact .u64 <| .bool <| .u64 <| .u64 <| .u64 <| .u64 <| .u64 <| .str h <| .pure _
  | openFile v => exact .u64 <| .str h <| .bool <| .pure _
  | openReply v => exact .u64 <| .bool <| .bool <| .u64 <| Reads.attrs <| .str h <| .u32 <| .pure _
  | close v => exact .u64 <| .u64 <| .pure _

theorem finish_of_fails {t : MsgType} {x : Except String (Message × Reader)} (h : Wire.Fails x) :
    ∃ e, finish t x = .error e := by
  cases x with
  | error e => exact ⟨e, rfl⟩
  | ok v =>
    refine ⟨"truncated " ++ t.name, ?_⟩
    rw [finish, h v.1 v.2 rfl]
    rfl

theorem decode_of_reads {t : MsgType} {m : Message} (h : Reads (body t) w m) :
    decode t.code w = .ok m := by
  obtain ⟨s, hs, hok, -⟩ := h.full (.start w) [] rfl (by rw [Reader.rest_start, append_nil])
  simp only [decode, MsgType.ofCode_code, hs, finish, hok]
  rfl

/-- **The codec is lossless, and refuses every proper prefix.** -/
theorem decode_encode (m : Message) (h : m.Fits) :
    decode m.type.code (encode m) = .ok m ∧
      ∀ p, p <+: encode m → p ≠ encode m → ∃ e, decode m.type.code p = .error e := by
  have hreads := reads_body m h
  constructor
  · exact decode_of_reads hreads
  · intro p hpre hne
    have hfails := hreads.cut (.start p) rfl (by rwa [Reader.rest_start])
      (by rwa [Reader.rest_start])
    obtain ⟨e, he⟩ := finish_of_fails (t := m.type) hfails
    refine ⟨e, ?_⟩
    simp only [decode, MsgType.ofCode_code]
    exact he

/-- A directory of one entry, and what is left of its listing when the last byte is lost. -/
theorem decode_encode_listing :
    decode 15 (encode (.listReply { id := 7, found := true, entries := [{ name := [97] }] })) =
        .ok (.listReply { id := 7, found := true, entries := [{ name := [97] }] }) ∧
      ∀ p, p <+: encode (.listReply { id := 7, found := true, entries := [{ name := [97] }] }) →
        p ≠ encode (.listReply { id := 7, found := true, entries := [{ name := [97] }] }) →
        ∃ e, decode 15 p = .error e :=
  decode_encode (.listReply { id := 7, found := true, entries := [{ name := [97] }] })
    ⟨by decide, by decide⟩

end Rail.Proto
