import Rail.Foundation.Wire

/-!
# The messages of the control protocol

`include/rail/proto/message.h`.  A string is its bytes, and a digest is a field of sixteen.  Both
enumerations have a fixed underlying type and are cast from what was read, so `MetaOp` is a code
with names for some of its values; a message type that has no name is refused, so `MsgType` is the
named ones.
-/

namespace Rail.Proto

open Wire (Bytes)

/-- `std::array<std::byte, 16>`. -/
abbrev Digest := { d : Bytes // d.length = 16 }

namespace Digest

def zero : Digest := ⟨List.replicate 16 0, rfl⟩

instance : Inhabited Digest := ⟨zero⟩

end Digest

def magic : UInt32 := 0x5241494c

def version : UInt16 := 1

/-- `kMaxFrame`: 64 MiB. -/
def maxFrame : ℕ := 67108864

inductive MsgType where
  | hello | helloAck | fileHeader | signature | copy | literal | done | receipt | ending | stat
  | statReply | list | listReply | read | write | transferReply | peerEndpoint | fetch | store
  | streamReply | streamDigest
  | meta_ | metaReply | statFs | statFsReply | openFile | openReply | close
  deriving DecidableEq

namespace MsgType

def code : MsgType → UInt16
  | hello => 1
  | helloAck => 2
  | fileHeader => 3
  | signature => 4
  | copy => 5
  | literal => 6
  | done => 8
  | receipt => 9
  | ending => 11
  | stat => 12
  | statReply => 13
  | list => 14
  | listReply => 15
  | read => 16
  | write => 17
  | transferReply => 18
  | peerEndpoint => 19
  | fetch => 20
  | store => 21
  | streamReply => 22
  | streamDigest => 23
  | meta_ => 24
  | metaReply => 25
  | statFs => 26
  | statFsReply => 27
  | openFile => 28
  | openReply => 29
  | close => 30

/-- The type that a code stands for. -/
def ofCode (c : UInt16) : Option MsgType :=
  [hello, helloAck, fileHeader, signature, copy, literal, done, receipt, ending, stat, statReply,
    list, listReply, read, write, transferReply, peerEndpoint, fetch, store, streamReply,
    streamDigest, meta_, metaReply, statFs,
    statFsReply, openFile, openReply, close].find? fun t => t.code = c

theorem ofCode_code (t : MsgType) : ofCode t.code = some t := by
  cases t <;> rfl

/-- `typeName`. -/
def name : MsgType → String
  | hello => "Hello"
  | helloAck => "HelloAck"
  | fileHeader => "FileHeader"
  | signature => "Signature"
  | copy => "Copy"
  | literal => "Literal"
  | done => "Done"
  | receipt => "Receipt"
  | ending => "End"
  | stat => "Stat"
  | statReply => "StatReply"
  | list => "List"
  | listReply => "ListReply"
  | read => "Read"
  | write => "Write"
  | transferReply => "TransferReply"
  | peerEndpoint => "PeerEndpoint"
  | fetch => "Fetch"
  | store => "Store"
  | streamReply => "StreamReply"
  | streamDigest => "StreamDigest"
  | meta_ => "Meta"
  | metaReply => "MetaReply"
  | statFs => "StatFs"
  | statFsReply => "StatFsReply"
  | openFile => "Open"
  | openReply => "OpenReply"
  | close => "Close"

end MsgType

/-! ## Transfers -/

structure BlockSum where
  weak : UInt32 := 0
  strong : Digest := .zero
  deriving DecidableEq

structure Hello where
  version : UInt16 := Proto.version
  backend : Bytes := []
  blockSize : UInt32 := 0
  pageCount : UInt64 := 0
  pageSize : UInt64 := 0
  windowPages : UInt64 := 0
  recursive : Bool := false
  verify : Bool := true
  sum : UInt8 := 1
  deriving DecidableEq

structure HelloAck where
  backend : Bytes := []
  channelEndpoint : Bytes := []
  deriving DecidableEq

structure FileHeader where
  name : Bytes := []
  size : UInt64 := 0
  mode : UInt32 := 0
  mtime : Int64 := 0
  directory : Bool := false
  link : Bool := false
  target : Bytes := []
  wantSignature : Bool := true
  streamed : Bool := false
  deriving DecidableEq

structure Signature where
  blockLength : UInt32 := 0
  strongLength : UInt32 := 0
  fileLength : UInt64 := 0
  sums : List BlockSum := []
  deriving DecidableEq

structure Copy where
  blockIndex : UInt32 := 0
  count : UInt32 := 1
  dstOffset : UInt64 := 0
  deriving DecidableEq

structure Literal where
  offset : UInt64 := 0
  length : UInt32 := 0
  deriving DecidableEq

structure Done where
  wholeFileHash : Digest := .zero
  deriving DecidableEq

structure Receipt where
  literalBytes : UInt64 := 0
  matchedBytes : UInt64 := 0
  hashHits : UInt64 := 0
  falseAlarms : UInt64 := 0
  deriving DecidableEq

/-! ## Files -/

structure FileAttrs where
  size : UInt64 := 0
  dev : UInt64 := 0
  ino : UInt64 := 0
  mode : UInt32 := 0
  uid : UInt32 := 0
  gid : UInt32 := 0
  mtime : Int64 := 0
  directory : Bool := false
  link : Bool := false
  links : UInt32 := 1
  deriving DecidableEq

structure StatRequest where
  id : UInt64 := 0
  path : Bytes := []
  deriving DecidableEq

structure StatReply where
  id : UInt64 := 0
  found : Bool := false
  attrs : FileAttrs := {}
  deriving DecidableEq

structure ListRequest where
  id : UInt64 := 0
  path : Bytes := []
  deriving DecidableEq

structure ListEntry where
  name : Bytes := []
  attrs : FileAttrs := {}
  deriving DecidableEq

structure ListReply where
  id : UInt64 := 0
  found : Bool := false
  entries : List ListEntry := []
  self : FileAttrs := {}
  parent : FileAttrs := {}
  deriving DecidableEq

structure OpenRequest where
  id : UInt64 := 0
  path : Bytes := []
  writable : Bool := false
  deriving DecidableEq

structure OpenReply where
  id : UInt64 := 0
  ok : Bool := false
  found : Bool := false
  handle : UInt64 := 0
  attrs : FileAttrs := {}
  error : Bytes := []
  errno : UInt32 := 0
  deriving DecidableEq

structure CloseRequest where
  id : UInt64 := 0
  handle : UInt64 := 0
  deriving DecidableEq

structure ReadRequest where
  id : UInt64 := 0
  path : Bytes := []
  offset : UInt64 := 0
  length : UInt32 := 0
  handle : UInt64 := 0
  deriving DecidableEq

structure WriteRequest where
  id : UInt64 := 0
  path : Bytes := []
  offset : UInt64 := 0
  length : UInt32 := 0
  truncate : Bool := false
  payload : Digest := .zero
  handle : UInt64 := 0
  deriving DecidableEq

structure FetchRequest where
  id : UInt64 := 0
  tagBase : UInt64 := 0
  path : Bytes := []
  offset : UInt64 := 0
  length : UInt64 := 0
  handle : UInt64 := 0
  deriving DecidableEq

structure StoreRequest where
  id : UInt64 := 0
  tagBase : UInt64 := 0
  path : Bytes := []
  offset : UInt64 := 0
  length : UInt64 := 0
  truncate : Bool := false
  handle : UInt64 := 0
  deriving DecidableEq

structure StreamReply where
  id : UInt64 := 0
  length : UInt64 := 0
  ok : Bool := false
  error : Bytes := []
  deriving DecidableEq

/-- A code, which need not be one of those below. -/
structure MetaOp where
  code : UInt16
  deriving DecidableEq

namespace MetaOp

def makeDirectory : MetaOp := ⟨1⟩
def removeFile : MetaOp := ⟨2⟩
def removeDirectory : MetaOp := ⟨3⟩
def rename : MetaOp := ⟨4⟩
def truncate : MetaOp := ⟨5⟩
def setMode : MetaOp := ⟨6⟩
def setMtime : MetaOp := ⟨7⟩
def fsync : MetaOp := ⟨8⟩
def symlink : MetaOp := ⟨9⟩
def readLink : MetaOp := ⟨10⟩
def hardLink : MetaOp := ⟨11⟩
def create : MetaOp := ⟨12⟩

end MetaOp

structure MetaRequest where
  id : UInt64 := 0
  op : MetaOp := .makeDirectory
  path : Bytes := []
  target : Bytes := []
  size : UInt64 := 0
  mode : UInt32 := 0
  mtime : Int64 := 0
  handle : UInt64 := 0
  exclusive : Bool := false
  deriving DecidableEq

structure MetaReply where
  id : UInt64 := 0
  ok : Bool := false
  error : Bytes := []
  target : Bytes := []
  errno : UInt32 := 0
  attrs : FileAttrs := {}
  deriving DecidableEq

structure StatFsRequest where
  id : UInt64 := 0
  path : Bytes := []
  deriving DecidableEq

structure StatFsReply where
  id : UInt64 := 0
  ok : Bool := false
  blockSize : UInt64 := 0
  blocks : UInt64 := 0
  blocksFree : UInt64 := 0
  files : UInt64 := 0
  filesFree : UInt64 := 0
  error : Bytes := []
  deriving DecidableEq

structure StreamDigest where
  id : UInt64 := 0
  whole : Digest := .zero
  ok : Bool := false
  error : Bytes := []
  deriving DecidableEq

structure PeerEndpoint where
  blob : Bytes := []
  deriving DecidableEq

structure TransferReply where
  id : UInt64 := 0
  length : UInt32 := 0
  fileSize : UInt64 := 0
  ok : Bool := false
  payload : Digest := .zero
  error : Bytes := []
  deriving DecidableEq

inductive Message where
  | hello (v : Hello)
  | helloAck (v : HelloAck)
  | fileHeader (v : FileHeader)
  | signature (v : Signature)
  | copy (v : Copy)
  | literal (v : Literal)
  | done (v : Done)
  | receipt (v : Receipt)
  | ending
  | stat (v : StatRequest)
  | statReply (v : StatReply)
  | list (v : ListRequest)
  | listReply (v : ListReply)
  | read (v : ReadRequest)
  | write (v : WriteRequest)
  | transferReply (v : TransferReply)
  | peerEndpoint (v : PeerEndpoint)
  | fetch (v : FetchRequest)
  | store (v : StoreRequest)
  | streamReply (v : StreamReply)
  | streamDigest (v : StreamDigest)
  | meta_ (v : MetaRequest)
  | metaReply (v : MetaReply)
  | statFs (v : StatFsRequest)
  | statFsReply (v : StatFsReply)
  | openFile (v : OpenRequest)
  | openReply (v : OpenReply)
  | close (v : CloseRequest)
  deriving DecidableEq

/-- `typeOf`. -/
def Message.type : Message → MsgType
  | hello _ => .hello
  | helloAck _ => .helloAck
  | fileHeader _ => .fileHeader
  | signature _ => .signature
  | copy _ => .copy
  | literal _ => .literal
  | done _ => .done
  | receipt _ => .receipt
  | ending => .ending
  | stat _ => .stat
  | statReply _ => .statReply
  | list _ => .list
  | listReply _ => .listReply
  | read _ => .read
  | write _ => .write
  | transferReply _ => .transferReply
  | peerEndpoint _ => .peerEndpoint
  | fetch _ => .fetch
  | store _ => .store
  | streamReply _ => .streamReply
  | streamDigest _ => .streamDigest
  | meta_ _ => .meta_
  | metaReply _ => .metaReply
  | statFs _ => .statFs
  | statFsReply _ => .statFsReply
  | openFile _ => .openFile
  | openReply _ => .openReply
  | close _ => .close

/-- `idOf`: zero for a message that has none. -/
def Message.id : Message → UInt64
  | stat v => v.id
  | statReply v => v.id
  | list v => v.id
  | listReply v => v.id
  | read v => v.id
  | write v => v.id
  | transferReply v => v.id
  | fetch v => v.id
  | store v => v.id
  | streamReply v => v.id
  | streamDigest v => v.id
  | meta_ v => v.id
  | metaReply v => v.id
  | statFs v => v.id
  | statFsReply v => v.id
  | openFile v => v.id
  | openReply v => v.id
  | close v => v.id
  | _ => 0

end Rail.Proto
