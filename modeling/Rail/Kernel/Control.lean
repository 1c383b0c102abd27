import Rail.Proto.Frame

/-!
# The control frames of the kernel mount

`src/linux/railfs-proto.c` and the requests of `src/linux/railfs-tcp.c`.  The kernel writes a
request into a buffer whose size it has worked out beforehand; a field that does not fit is left out
and latches an overrun, which refuses the whole request.  It reads a reply field by field and stops
at the first that is not there.

Both are a second version of the codec of the daemon, with constants of their own.  What a request
says is `Request.message`; what the mount takes from a reply is `Request.taken`.  An allocation of
up to `room` bytes is granted to a request, and those for what a reply carries are.
-/

namespace Rail.Kernel.Control

open List Option Wire Proto

/-- The errors a request or a reply is refused with; `peer` is a code of the daemon. -/
inductive Fault where
  | noMem
  | overflow
  | badMsg
  | proto
  | noEnt
  | io
  | peer (code : UInt32)
  deriving DecidableEq

/-- A C string: the bytes before the first zero. -/
abbrev CString := { s : Bytes // (0 : UInt8) ∉ s }

/-! ## Constants -/

/-- `RAILFS_WIRE_MAGIC`. -/
def wireMagic : UInt32 := 0x5241494c

/-- `RAILFS_WIRE_VERSION`. -/
def wireVersion : UInt16 := 1

/-- `RAILFS_PAGE_COUNT`. -/
def pageCount : UInt64 := 16

/-- `RAILFS_PAGE_SIZE`. -/
def pageSize : UInt32 := 1048576

/-- `RAILFS_SUM_XXH64`. -/
def sumXxh64 : UInt8 := 2

/-- `RAILFS_HELLO_BYTES`. -/
def helloBytes : ℕ := 256

/-- `MAX_ERRNO`. -/
def maxErrno : UInt32 := 4095

/-! ## Requests -/

/-- A `railfs_cursor` that is written to: `out` is the buffer up to `at`. -/
structure Cursor where
  cap : ℕ
  out : Bytes
  overrun : Bool := false

/-- `put_raw`. -/
def Cursor.put (c : Cursor) (p : Bytes) : Cursor :=
  if c.cap < p.length ∨ c.cap - p.length < c.out.length then { c with overrun := true }
  else { c with out := c.out ++ p }

/-- The fields of `railfs_put_str`. -/
def putStr (s : Bytes) : List Bytes :=
  Put.u32 (UInt32.ofNat s.length) :: if s.isEmpty then [] else [s]

/-- `railfs_frame`: the header goes over the bytes that were left for it. -/
def Cursor.frame (c : Cursor) (t : UInt16) : Bytes :=
  List.flatten [Put.u32 wireMagic, Put.u16 t, Put.u32 (UInt32.ofNat (c.out.length - headerSize))] ++
    c.out.drop headerSize

/-- A frame of `cap` bytes with these fields after the header. -/
def build (room cap : ℕ) (t : UInt16) (fields : List Bytes) : Except Fault Bytes :=
  if room < cap then .error .noMem
  else if (fields.foldl Cursor.put ⟨cap, List.replicate headerSize 0, false⟩).overrun then
    .error .overflow
  else .ok ((fields.foldl Cursor.put ⟨cap, List.replicate headerSize 0, false⟩).frame t)

inductive Request where
  | hello (rdma verify : Bool)
  | stat (path : CString)
  | list (path : CString)
  | statFs (path : CString)
  | read (path : CString) (offset : UInt64) (len : UInt32)
  | write (path : CString) (offset : UInt64) (len : UInt32) (truncate : Bool) (digest : Digest)
  /-- `railfs_meta_send`. -/
  | meta_ (op : UInt16) (path : CString) (target : Option CString) (size : UInt64) (mode : UInt32)
      (mtime : Int64)
  deriving DecidableEq

namespace Request

/-- What the mount says it can do. -/
def backend (rdma : Bool) : Bytes := if rdma then [114, 100, 109, 97] else [116, 99, 112]

/-- A transfer is cut to a page. -/
def clip (len : UInt32) : UInt32 := if pageSize < len then pageSize else len

/-- No target is the empty one. -/
def targeted (target : Option CString) : Bytes := (target.map Subtype.val).getD []

/-- The size worked out for the buffer. -/
def cap : Request → ℕ
  | hello _ _ => helloBytes
  | stat path => headerSize + 8 + 4 + path.1.length
  | list path => headerSize + 8 + 4 + path.1.length
  | statFs path => headerSize + 8 + 4 + path.1.length
  | read path _ _ => headerSize + 8 + 4 + path.1.length + 8 + 4 + 8
  | write path _ _ _ _ => headerSize + 8 + 4 + path.1.length + 8 + 4 + 1 + 16 + 8
  | meta_ _ path target _ _ _ =>
    headerSize + 8 + 2 + 4 + path.1.length + 4 + (targeted target).length + 8 + 4 + 8 + 8 + 1

/-- `enum railfs_msg_type`. -/
def code : Request → UInt16
  | hello _ _ => 1
  | stat _ => 12
  | list _ => 14
  | statFs _ => 26
  | read _ _ _ => 16
  | write _ _ _ _ _ => 17
  | meta_ _ _ _ _ _ _ => 24

/-- The fields, as they are put. -/
def fields (id : UInt64) : Request → List Bytes
  | hello rdma verify => [Put.u16 wireVersion] ++ putStr (backend rdma) ++
      [Put.u32 0, Put.u64 pageCount, Put.u64 pageSize.toUInt64, Put.u64 1, Put.u8 0,
      Put.u8 (if verify then 1 else 0), Put.u8 sumXxh64]
  | stat path => [Put.u64 id] ++ putStr path.1
  | list path => [Put.u64 id] ++ putStr path.1
  | statFs path => [Put.u64 id] ++ putStr path.1
  | read path offset len =>
      [Put.u64 id] ++ putStr path.1 ++ [Put.u64 offset, Put.u32 (clip len), Put.u64 0]
  | write path offset len truncate digest => [Put.u64 id] ++ putStr path.1 ++
      [Put.u64 offset, Put.u32 (clip len), Put.u8 (if truncate then 1 else 0), digest.1, Put.u64 0]
  | meta_ op path target size mode mtime =>
      [Put.u64 id, Put.u16 op] ++ putStr path.1 ++ putStr (targeted target) ++
      [Put.u64 size, Put.u32 mode, Put.u64 mtime.toUInt64, Put.u64 0, Put.u8 0]

def frame (room : ℕ) (id : UInt64) (q : Request) : Except Fault Bytes :=
  build room q.cap q.code (q.fields id)

/-- What a request says, in the terms of the daemon. -/
def message (id : UInt64) : Request → Message
  | hello rdma verify => .hello
      { version := 1, backend := backend rdma, blockSize := 0, pageCount := 16,
        pageSize := 1048576, windowPages := 1, recursive := false, verify, sum := 2 }
  | stat path => .stat { id, path := path.1 }
  | list path => .list { id, path := path.1 }
  | statFs path => .statFs { id, path := path.1 }
  | read path offset len => .read { id, path := path.1, offset, length := clip len, handle := 0 }
  | write path offset len truncate digest => .write
      { id, path := path.1, offset, length := clip len, truncate, payload := digest, handle := 0 }
  | meta_ op path target size mode mtime => .meta_
      { id, op := ⟨op⟩, path := path.1, target := targeted target, size, mode, mtime, handle := 0,
        exclusive := false }

end Request

theorem Cursor.put_fits {c : Cursor} {p : Bytes} (h : c.out.length + p.length ≤ c.cap) :
    c.put p = { c with out := c.out ++ p } := by
  rw [Cursor.put, if_neg (by omega)]

/-- Fields that fit are all there. -/
theorem foldl_put : ∀ {ps : List Bytes} {c : Cursor}, c.out.length + ps.flatten.length ≤ c.cap →
    ps.foldl Cursor.put c = { c with out := c.out ++ ps.flatten }
  | [], c, _ => by rw [flatten_nil, append_nil]; rfl
  | p :: ps, c, h => by
    rw [flatten_cons, length_append] at h
    have hrest : (c.out ++ p).length + ps.flatten.length ≤ c.cap := by
      rw [length_append]
      omega
    rw [foldl_cons, Cursor.put_fits (by omega), foldl_put hrest, flatten_cons, append_assoc]

/-- The frame of fields that fit is that of the daemon. -/
theorem build_of_fits {room cap : ℕ} {t : UInt16} {fields : List Bytes} (hroom : cap ≤ room)
    (hfit : headerSize + fields.flatten.length ≤ cap) :
    build room cap t fields = .ok (Proto.header t fields.flatten.length ++ fields.flatten) := by
  have hput : fields.foldl Cursor.put ⟨cap, List.replicate headerSize 0, false⟩ =
      ⟨cap, List.replicate headerSize 0 ++ fields.flatten, false⟩ :=
    foldl_put (by rwa [length_replicate])
  rw [build, if_neg (by omega), hput]
  simp only [Cursor.frame, Bool.false_eq_true, if_false, length_append, length_replicate,
    Nat.add_sub_cancel_left]
  rw [drop_left' length_replicate]
  rfl

theorem flatten_putStr (s : Bytes) : (putStr s).flatten = Put.str s := by
  rw [putStr]
  split_ifs with h
  · rw [List.isEmpty_iff.mp h]
    rfl
  · rw [flatten_cons, flatten_cons, flatten_nil, append_nil]
    rfl

variable (q : Request)

/-- The fields are those of the daemon's encoder. -/
theorem flatten_fields (id : UInt64) : (q.fields id).flatten = encode (q.message id) := by
  cases q with
  | hello rdma verify =>
    simp only [Request.fields, Request.message, encode, flatten_append, flatten_putStr]
    rfl
  | stat path | list path | statFs path | read path offset len =>
    simp [Request.fields, Request.message, encode, flatten_putStr]
  | write path offset len truncate digest =>
    simp [Request.fields, Request.message, encode, flatten_putStr, Put.bool, writeHash]
  | meta_ op path target size mode mtime =>
    simp [Request.fields, Request.message, encode, flatten_putStr, Put.bool, Put.i64]

/-- The buffer is large enough. -/
theorem fields_fit (id : UInt64) : headerSize + (q.fields id).flatten.length ≤ q.cap := by
  rw [flatten_fields]
  cases q with
  | hello rdma verify =>
    cases rdma <;> simp [Request.message, Request.backend, encode, Request.cap, headerSize,
      helloBytes]
  | stat path | list path | statFs path | read path offset len
  | meta_ op path target size mode mtime =>
    simp [Request.message, encode, Request.cap]; omega
  | write path offset len truncate digest =>
    simp [Request.message, encode, Request.cap, writeHash, digest.2]; omega

/-- A request that there is memory for has strings shorter than a frame. -/
theorem message_fits (id : UInt64) (h : q.cap ≤ maxFrame) : (q.message id).Fits := by
  have hmax : maxFrame < 2 ^ 32 := by decide
  have hpath : ∀ {path : CString} {n : ℕ}, n ≤ maxFrame → path.1.length ≤ n →
    path.1.length < 2 ^ 32 :=
    fun hn hle => lt_of_le_of_lt (le_trans hle hn) hmax
  cases q with
  | hello rdma verify =>
    have hbackend : ∀ b, (Request.backend b).length < 2 ^ 32 := by decide
    exact hbackend rdma
  | stat path | list path | statFs path => exact hpath h (Nat.le_add_left _ _)
  | read path offset len | write path offset len truncate digest =>
    exact hpath h (by rw [Request.cap]; omega)
  | meta_ op path target size mode mtime =>
    have htarget : (Request.targeted target).length < 2 ^ 32 := by
      rw [Request.cap] at h
      omega
    exact ⟨hpath h (by rw [Request.cap]; omega), htarget⟩

theorem code_eq (id : UInt64) : q.code = (q.message id).type.code := by
  cases q <;> rfl

/-- **The daemon receives what a request says.** -/
theorem receive_frame {room : ℕ} (hroom : room ≤ maxFrame) (q : Request) (id : UInt64)
    (hcap : q.cap ≤ room) : ∃ f, q.frame room id = .ok f ∧ ∀ rest,
    Proto.receive (f ++ rest) = .ok (q.message id, rest) := by
  have hfit := fields_fit q id
  refine ⟨_, build_of_fits hcap hfit, fun rest => ?_⟩
  rw [append_assoc, code_eq q id, flatten_fields]
  rw [flatten_fields] at hfit
  exact Proto.receive_header (by omega)
    (decode_of_reads (reads_body _ (message_fits q id (by omega))))

/-! ## Replies -/

/-- A program of the kernel that reads a reply. -/
abbrev Reply := Scan Fault

/-- `struct railfs_attrs`. -/
structure Attrs where
  size : UInt64
  dev : UInt64
  ino : UInt64
  mode : UInt32
  uid : UInt32
  gid : UInt32
  mtime : Int64
  directory : UInt8
  link : UInt8
  links : UInt32
  deriving DecidableEq

/-- `struct railfs_dirent`; the name is a buffer, with its terminator. -/
structure Dirent where
  name : Bytes
  attrs : Attrs
  deriving DecidableEq

/-- `struct railfs_space`. -/
structure Space where
  blockSize : UInt64
  blocks : UInt64
  blocksFree : UInt64
  files : UInt64
  filesFree : UInt64
  deriving DecidableEq

/-- What a caller of the mount is left with. -/
inductive Answer where
  | agreed (backend endpoint : Bytes) (length : ℕ)
  | attrs (found : Option Attrs)
  | entries (entries : List Dirent)
  | space (space : Space)
  | fetched (length : UInt32) (fileSize : UInt64) (ok : UInt8) (digest : Bytes)
  | written (length : UInt32)
  | changed (link : Bytes) (made : Attrs)
  deriving DecidableEq

/-- `railfs_get_str`: the bytes and a terminator. -/
def getStr : Reply Bytes := do
  let n ← Scan.u32 .badMsg
  let s ← Scan.take .badMsg n.toNat
  return s ++ [0]

def getAttrs : Reply Attrs := do
  let size ← Scan.u64 .badMsg
  let dev ← Scan.u64 .badMsg
  let ino ← Scan.u64 .badMsg
  let mode ← Scan.u32 .badMsg
  let uid ← Scan.u32 .badMsg
  let gid ← Scan.u32 .badMsg
  let mtime ← Scan.i64 .badMsg
  let directory ← Scan.u8 .badMsg
  let link ← Scan.u8 .badMsg
  let links ← Scan.u32 .badMsg
  return { size, dev, ino, mode, uid, gid, mtime, directory, link, links }

def getDirent : Reply Dirent := do
  let name ← getStr
  let attrs ← getAttrs
  return { name, attrs }

/-- `railfs_reply_for`. -/
def replyFor (id : UInt64) : Reply Unit := do
  let replied ← Scan.u64 .badMsg
  if replied = id then return () else throw .proto

/-- The end of `say_hello`. -/
def readHelloAck : Reply Answer := do
  let backend ← getStr
  let endpoint ← getStr
  return .agreed backend endpoint (endpoint.length - 1)

/-- The end of `railfs_stat`. -/
def readStat (id : UInt64) : Reply Answer := do
  replyFor id
  let here ← Scan.u8 .badMsg
  if here = 0 then return .attrs none
  let attrs ← getAttrs
  return .attrs (some attrs)

/-- The end of `railfs_list`, for a payload of this length. -/
def readList (id : UInt64) (length : ℕ) : Reply Answer := do
  replyFor id
  let found ← Scan.u8 .badMsg
  let n ← Scan.u32 .badMsg
  if found = 0 then throw .noEnt
  if length < n.toNat * 54 then throw .badMsg
  let entries ← Scan.many getDirent n.toNat
  return .entries entries

/-- The end of `railfs_space_of`. -/
def readSpace (id : UInt64) : Reply Answer := do
  replyFor id
  let ok ← Scan.u8 .badMsg
  let blockSize ← Scan.u64 .badMsg
  let blocks ← Scan.u64 .badMsg
  let blocksFree ← Scan.u64 .badMsg
  let files ← Scan.u64 .badMsg
  let filesFree ← Scan.u64 .badMsg
  if ok = 0 then throw .io
  return .space { blockSize, blocks, blocksFree, files, filesFree }

/-- `railfs_read_reply`, and the digest that `railfs_matches_digest` finds behind it. -/
def readTransfer (id : UInt64) : Reply Answer := do
  replyFor id
  let length ← Scan.u32 .badMsg
  let fileSize ← Scan.u64 .badMsg
  let ok ← Scan.u8 .badMsg
  let digest ← Scan.take .badMsg 16
  return .fetched length fileSize ok digest

/-- The end of `railfs_write_from`. -/
def readWritten (id : UInt64) : Reply Answer := do
  replyFor id
  let length ← Scan.u32 .badMsg
  let _ ← Scan.u64 .badMsg
  let ok ← Scan.u8 .badMsg
  if ok = 0 then throw .io
  return .written length

/-- The code of a refusal; one that is no errno is of no use. -/
def refusal (code : UInt32) : Fault := if 0 < code ∧ code < maxErrno then .peer code else .io

/-- The end of `railfs_meta_send`. -/
def readMeta (id : UInt64) : Reply Answer := do
  replyFor id
  let ok ← Scan.u8 .badMsg
  let _ ← getStr
  let reported ← getStr
  let code ← Scan.u32 .badMsg
  let attrs ← getAttrs
  if ok = 0 then throw (refusal code)
  return .changed reported attrs

/-- What a request makes of the payload of its reply. -/
def Request.understand (id : UInt64) (payload : Bytes) : Request → Except Fault Answer
  | hello _ _ => (readHelloAck payload).map Prod.fst
  | stat _ => (readStat id payload).map Prod.fst
  | list _ => (readList id payload.length payload).map Prod.fst
  | statFs _ => (readSpace id payload).map Prod.fst
  | read _ _ _ => (readTransfer id payload).map Prod.fst
  | write _ _ _ _ _ => (readWritten id payload).map Prod.fst
  | meta_ _ _ _ _ _ _ => (readMeta id payload).map Prod.fst

/-! ### What a reply says -/

def flag (b : Bool) : UInt8 := if b then 1 else 0

/-- The attributes of a reply. -/
def Attrs.of (a : FileAttrs) : Attrs :=
  { size := a.size, dev := a.dev, ino := a.ino, mode := a.mode, uid := a.uid, gid := a.gid,
    mtime := a.mtime, directory := flag a.directory, link := flag a.link, links := a.links }

/-- The values of the reply to a request, in the terms of the mount; `none` for a message that is
not the reply to it. -/
def Request.taken : Request → Message → Option (Except Fault Answer)
  | hello _ _, .helloAck v =>
    some (.ok (.agreed (v.backend ++ [0]) (v.channelEndpoint ++ [0]) v.channelEndpoint.length))
  | stat _, .statReply v => some (.ok (.attrs (if v.found then some (.of v.attrs) else none)))
  | list _, .listReply v =>
    some (if v.found then .ok
      (.entries (v.entries.map fun e => ⟨e.name ++ [0], .of e.attrs⟩)) else .error .noEnt)
  | statFs _, .statFsReply v =>
    some (if v.ok then .ok (.space ⟨v.blockSize, v.blocks, v.blocksFree, v.files,
      v.filesFree⟩) else .error .io)
  | read _ _ _, .transferReply v =>
      some (.ok (.fetched v.length v.fileSize (flag v.ok) v.payload.1))
  | write _ _ _ _ _, .transferReply v => some (if v.ok then .ok (.written v.length) else .error .io)
  | meta_ _ _ _ _ _ _, .metaReply v =>
    some (if v.ok then .ok (.changed (v.target ++ [0]) (.of v.attrs)) else .error (refusal v.errno))
  | _, _ => none

theorem takes_str {s : Bytes} (hs : s.length < 2 ^ 32) : Takes getStr (Put.str s) (s ++ [0]) := by
  refine .bind (.u32 _) ?_
  rw [UInt32.toNat_ofNat_of_lt' hs]
  exact (Takes.take s).map _

theorem takes_attrs (a : FileAttrs) : Takes getAttrs (writeAttrs a) (.of a) :=
  .bind (.u64 _) <| .bind (.u64 _) <| .bind (.u64 _) <| .bind (.u32 _) <| .bind (.u32 _) <|
    .bind (.u32 _) <| .bind (.i64 _) <| .bind (.u8 _) <| .bind (.u8 _) <| .bind (.u32 _) <| .pure _

theorem takes_dirent {e : ListEntry} (h : e.name.length < 2 ^ 32) :
    Takes getDirent (writeEntry e) ⟨e.name ++ [0], .of e.attrs⟩ :=
  .bind (takes_str h) <| .bind (takes_attrs _) <| .pure _

theorem takes_flag (b : Bool) : Takes (Scan.u8 Fault.badMsg) (Put.bool b) (flag b) := .u8 _

theorem takes_id (id : UInt64) : Takes (replyFor id) (Put.u64 id) () := by
  have h : Takes (replyFor id) (Put.u64 id ++ []) () :=
    .bind (.u64 _) (by rw [if_pos rfl]; exact .pure _)
  rwa [append_nil] at h

theorem flag_ne_zero : flag true ≠ 0 := by decide

theorem flag_zero : flag false = 0 := rfl

/-- A reply that is refused by its flag. -/
theorem yields_unless {b : Bool} {e : Fault} {r : Reply Answer} {bytes : Bytes} {x : Answer}
    (h : Yields r bytes (.ok x)) :
    Yields (if flag b = 0 then throw e else r) bytes (if b then .ok x else .error e) := by
  cases b with
  | true =>
    rw [if_neg flag_ne_zero, if_pos rfl]
    exact h
  | false =>
    rw [if_pos flag_zero, if_neg Bool.false_ne_true]
    exact .throw _ _

theorem yields_helloAck (v : HelloAck) (h : (Message.helloAck v).Fits) :
    Yields readHelloAck (encode (.helloAck v))
    (.ok (.agreed (v.backend ++ [0]) (v.channelEndpoint ++ [0]) v.channelEndpoint.length)) := by
  refine .bind (takes_str h.1) <| .bind (takes_str h.2) ?_
  rw [length_append, length_singleton, Nat.add_sub_cancel]
  exact .pure _ _

theorem yields_stat (v : StatReply) : Yields (readStat v.id) (encode (.statReply v))
    (.ok (.attrs (if v.found then some (.of v.attrs) else none))) := by
  refine .bind (takes_id _) <| .bind (takes_flag _) ?_
  cases v.found with
  | true =>
    rw [if_neg flag_ne_zero, if_pos rfl]
    exact .bind (takes_attrs _) <| .pure _ _
  | false =>
    rw [if_pos flag_zero, if_neg Bool.false_ne_true]
    exact .pure _ _

/-- The check of the count passes on every listing. -/
theorem count_fits (v : ListReply) : v.entries.length * 54 ≤ (encode (.listReply v)).length := by
  have hlen : v.entries.length * 54 ≤ (Put.each writeEntry v.entries).length :=
    length_each writeEntry v.entries fun e _ => by
      simp only [writeEntry, flatten_cons, length_append, length_str, length_writeAttrs, attrsBytes]
      omega
  simp only [encode, flatten_cons, length_append]
  omega

theorem yields_list (v : ListReply) (h : (Message.listReply v).Fits) :
    Yields (readList v.id (encode (.listReply v)).length) (encode (.listReply v))
      (if v.found then .ok
      (.entries (v.entries.map fun e => ⟨e.name ++ [0], .of e.attrs⟩)) else .error .noEnt) := by
  refine .bind (takes_id _) <| .bind (takes_flag _) <| .bind (.u32 _) ?_
  have hcount := count_fits v
  refine yields_unless ?_
  rw [UInt32.toNat_ofNat_of_lt' h.1, if_neg (by omega)]
  exact .bind (.many fun e he => takes_dirent (h.2 e he)) <| .pure _ _

theorem yields_space (v : StatFsReply) : Yields (readSpace v.id) (encode (.statFsReply v))
    (if v.ok then .ok
      (.space ⟨v.blockSize, v.blocks, v.blocksFree, v.files, v.filesFree⟩) else .error .io) := by
  refine .bind (takes_id _) <| .bind (takes_flag _) <| .bind (.u64 _) <| .bind (.u64 _) <|
    .bind (.u64 _) <| .bind (.u64 _) <| .bind (.u64 _) ?_
  exact yields_unless (.pure _ _)

theorem takes_digest (d : Digest) : Takes (Scan.take Fault.badMsg 16) (writeHash d) d.1 := by
  have h : Takes (Scan.take Fault.badMsg d.1.length) d.1 d.1 := .take d.1
  rwa [d.2] at h

theorem yields_transfer (v : TransferReply) : Yields (readTransfer v.id) (encode (.transferReply v))
    (.ok (.fetched v.length v.fileSize (flag v.ok) v.payload.1)) :=
  .bind (takes_id _) <| .bind (.u32 _) <| .bind (.u64 _) <| .bind (takes_flag _) <|
    .bind (takes_digest _) <| .pure _ _

theorem yields_written (v : TransferReply) : Yields (readWritten v.id) (encode (.transferReply v))
    (if v.ok then .ok (.written v.length) else .error .io) := by
  refine .bind (takes_id _) <| .bind (.u32 _) <| .bind (.u64 _) <| .bind (takes_flag _) ?_
  exact yields_unless (.pure _ _)

theorem yields_meta (v : MetaReply) (h : (Message.metaReply v).Fits) :
    Yields (readMeta v.id) (encode (.metaReply v))
      (if v.ok then .ok (.changed (v.target ++ [0]) (.of v.attrs))
        else .error (refusal v.errno)) := by
  refine .bind (takes_id _) <| .bind (takes_flag _) <| .bind (takes_str h.1) <|
    .bind (takes_str h.2) <| .bind (.u32 _) <| .bind (takes_attrs _) ?_
  exact yields_unless (.pure _ _)

/-- **The mount takes from a reply what it says.** -/
theorem understand_taken (m : Message) (hfits : m.Fits) {x : Except Fault Answer}
    (h : q.taken m = some x) : q.understand m.id (encode m) = x := by
  cases q with
  | hello rdma verify =>
    cases m with
    | helloAck v => exact (yields_helloAck v hfits).run.trans (some.inj h)
    | _ => simp [Request.taken] at h
  | stat path =>
    cases m with
    | statReply v => exact (yields_stat v).run.trans (some.inj h)
    | _ => simp [Request.taken] at h
  | list path =>
    cases m with
    | listReply v => exact (yields_list v hfits).run.trans (some.inj h)
    | _ => simp [Request.taken] at h
  | statFs path =>
    cases m with
    | statFsReply v => exact (yields_space v).run.trans (some.inj h)
    | _ => simp [Request.taken] at h
  | read path offset len =>
    cases m with
    | transferReply v => exact (yields_transfer v).run.trans (some.inj h)
    | _ => simp [Request.taken] at h
  | write path offset len truncate digest =>
    cases m with
    | transferReply v => exact (yields_written v).run.trans (some.inj h)
    | _ => simp [Request.taken] at h
  | meta_ op path target size mode mtime =>
    cases m with
    | metaReply v => exact (yields_meta v hfits).run.trans (some.inj h)
    | _ => simp [Request.taken] at h

/-- **The two codecs agree.**  A request there is memory for is received by the daemon as what it
says, and the mount takes from the reply to it what that says. -/
theorem codecs_agree (room : ℕ) (hroom : room ≤ maxFrame) (q : Request) (id : UInt64) :
    (if q.cap ≤ room then
        ∃ f, q.frame room id = .ok f ∧ ∀ rest, Proto.receive (f ++ rest) = .ok (q.message id, rest)
      else q.frame room id = .error .noMem) ∧
    ∀ (m : Message) (x : Except Fault Answer), m.Fits → q.taken m = some x →
    q.understand m.id (encode m) = x := by
  constructor
  · split_ifs with hcap
    · exact receive_frame hroom q id hcap
    · rw [Request.frame, build, if_pos (by omega)]
  · exact fun m x hfits h => understand_taken q m hfits h

/-- A name is looked up and found. -/
theorem codecs_agree_found : (4194304 : ℕ) ≤ maxFrame ∧
    (∃ f, (Request.stat ⟨[97], by decide⟩).frame 4194304 7 = .ok f ∧
      ∀ rest, Proto.receive (f ++ rest) = .ok (.stat { id := 7, path := [97] }, rest)) ∧
    (Request.stat ⟨[97], by decide⟩).understand 7
    (encode (.statReply { id := 7, found := true, attrs := { size := 5 } })) =
    .ok (.attrs (some (.of { size := 5 }))) := by
  have h := codecs_agree 4194304 (by decide) (.stat ⟨[97], by decide⟩) 7
  exact ⟨by decide, h.1, h.2 (.statReply { id := 7, found := true, attrs := { size := 5 } }) _
    trivial rfl⟩

end Rail.Kernel.Control
