import Rail.Client.Keys
import Rail.Delta.Signature
import Rail.Transfer.PageReceiver
import Rail.Transfer.Schedule

/-!
# Receiving files

`Receive` of `src/session-receive.cc`: the receiving end of a push.  A file is received as a stream
of pages, or by instructions: literals, whose pages are received ahead and written behind, and
copies from the file that is replaced.  It ends with the sender's digest; then the temporary file is
renamed to the destination.

What is renamed is noted (`Note`): the instructions in the order they came and the bytes that were
taken for each.
-/

namespace Rail.Transfer

open ByteFile Coroutine
open Client.Keys (tagSpan)
open Delta (Signature blockLengthAt)

namespace Receive

/-- `proto::FileHeader`. -/
structure FileHeader (ν : Type) where
  name : ν
  size : ℕ
  directory : Bool := false
  link : Bool := false
  /-- `Target` is not empty. -/
  target : Bool := true
  streamed : Bool := false
  wantSignature : Bool := false
  deriving DecidableEq

/-- What passes over the control channel. -/
inductive Message (ν δ : Type) where
  | fileHeader (v : FileHeader ν)
  | literal (offset length : ℕ)
  | copy (blockIndex dstOffset : ℕ)
  | done (wholeFileHash : δ)
  | end_
  | signature (v : Signature)
  | receipt (literalBytes matchedBytes : ℕ)
  /-- Any other. -/
  | other
  deriving DecidableEq

/-! What `negotiate` makes of `PageCount` and `WindowPages` of the Hello. -/

def poolPages (pageCount : ℕ) : ℕ := if pageCount = 0 then 6 else pageCount

def recvWindow (pageCount windowPages : ℕ) : ℕ :=
  max 1 (min (if windowPages = 0 then 1 else windowPages) (poolPages pageCount / 2))

def writeWindow (pageCount windowPages : ℕ) : ℕ :=
  if recvWindow pageCount windowPages + 1 < poolPages pageCount then
    poolPages pageCount - recvWindow pageCount windowPages - 1
  else 0

/-- What `negotiate` settled, and what is found here. -/
structure Config (π ν δ : Type) where
  pageSize : ℕ
  recvWindow : ℕ
  writeWindow : ℕ
  sum : Bytes → δ
  /-- `resolve`. -/
  resolve : ν → Option π
  /-- `buildSignature` of the file that the header of this number replaces, unless it fails;
  `noSignature` when that file is empty. -/
  signature : ℕ → Option Signature
  /-- The file system grants direct writes. -/
  granted : Bool

/-- Keys and lengths of pages. -/
def Config.streaming {π ν δ : Type} (c : Config π ν δ) (tagBase : ℕ) : Streaming :=
  ⟨c.pageSize, ⟨c.recvWindow, 1, c.writeWindow⟩, tagBase⟩

/-- `proto::Signature{}`. -/
def noSignature : Signature := ⟨0, 0, 0, []⟩

/-- Bytes taken for an instruction. -/
inductive Piece where
  | literal (offset id : ℕ) (bytes : Bytes)
  | copy (offset block : ℕ) (bytes : Bytes)
  deriving DecidableEq

def Piece.offset : Piece → ℕ
  | .literal offset _ _ => offset
  | .copy offset _ _ => offset

def Piece.bytes : Piece → Bytes
  | .literal _ _ bytes => bytes
  | .copy _ _ bytes => bytes

/-- Where the instruction puts bytes, and how many. -/
def Piece.place (p : Piece) : ℕ × ℕ := (p.offset, p.bytes.length)

def places : List Piece → List (ℕ × ℕ) := List.map Piece.place

def content : List Piece → Bytes := List.flatMap Piece.bytes

/-- What is noted of a rename. -/
structure Note (δ : Type) where
  /-- Which header it is for. -/
  index : ℕ
  size : ℕ
  tagBase : ℕ
  sig : Signature
  /-- The instructions, in the order they came. -/
  order : List (ℕ × ℕ)
  pieces : List Piece
  /-- The sender's digest. -/
  theirs : δ

/-- The file being received. -/
structure Target (π : Type) where
  path : π
  index : ℕ
  size : ℕ
  tagBase : ℕ
  direct : Bool
  deriving DecidableEq

end Receive

/-- The members of `Receive`; the last two are for the record. -/
structure Receive where
  receiving : List Posted := []
  writing : List ℕ := []
  whole : Bytes := []
  sig : Delta.Signature := Receive.noSignature
  basis : Bool := false
  literalBytes : ℕ := 0
  matchedBytes : ℕ := 0
  order : List (ℕ × ℕ) := []
  pieces : List Receive.Piece := []

namespace Receive

section Code

variable {π ν δ : Type} (c : Config π ν δ) (t : Target π) (s : Receive)

def popReceiving : Receive := { s with receiving := s.receiving.tail }

def popWriting : Receive := { s with writing := s.writing.tail }

/-- The front of `Receiving` has been hashed. -/
def hashed (p : Posted) (bytes : Bytes) (s : Receive) : Receive :=
  { s with
    whole := s.whole ++ bytes, literalBytes := s.literalBytes + p.length,
    pieces := s.pieces ++ [.literal p.offset p.id bytes] }

/-- A write has been submitted. -/
def handed (id : ℕ) (s : Receive) : Receive := { s with writing := s.writing ++ [id] }

/-- A receive has been posted. -/
def posted (offset length id : ℕ) (s : Receive) : Receive :=
  { s with receiving := s.receiving ++ [{ id, offset, length }], order :=
    s.order ++ [(offset, length)] }

/-- A block of the basis has been hashed. -/
def copied (block dst : ℕ) (bytes : Bytes) (s : Receive) : Receive :=
  { s with
    whole := s.whole ++ bytes, order := s.order ++ [(dst, bytes.length)],
    pieces := s.pieces ++ [.copy dst block bytes] }

/-- `Writer`, opened for direct writes or not. -/
def Target.sink : Sink := { direct := t.direct }

/-- A page that has come is hashed and handed to the disk. -/
def keep (p : Posted) (bytes : Bytes) : Pipe π (Message ν δ) (Note δ) Receive Unit := do
  Co.modify (hashed p bytes)
  let tail ← Pipe.slack (min (t.sink.writeLength bytes.length) c.pageSize - bytes.length)
  Pipe.orFail (Pipe.submit (.write p.offset (bytes ++ tail)) handed) .submit

/-- `Receive::storeReceived`. -/
def storeReceived (left : ℕ) : Pipe π (Message ν δ) (Note δ) Receive Unit :=
  Pipe.drainWith (·.receiving) Posted.id popReceiving .receive (keep c t) left

/-- `Receive::awaitWrites`. -/
def awaitWrites (left : ℕ) : Pipe π (Message ν δ) (Note δ) Receive Unit :=
  Pipe.drainTo (·.writing) popWriting .write left

/-- The pages in the queues. -/
def held : ℕ := s.receiving.length + s.writing.length

/-- Post a receive. -/
def post (offset length : ℕ) : Pipe π (Message ν δ) (Note δ) Receive Unit :=
  Pipe.launch (.recv ((c.streaming t.tagBase).key offset) length) (posted offset length)

/-- `Receive::applyLiteral`. -/
def applyLiteral (offset length : ℕ) : Pipe π (Message ν δ) (Note δ) Receive Unit := do
  if c.pageSize < length then Co.fail .oversized
  else
    storeReceived c t (c.recvWindow - 1)
    awaitWrites c.writeWindow
    Pipe.orFail (Pipe.acquire held) .memory
    post c t offset length

/-- `Receive::applyCopy`. -/
def applyCopy (block dst : ℕ) : Pipe π (Message ν δ) (Note δ) Receive Unit := do
  storeReceived c t 0
  awaitWrites 0
  let s ← Co.read
  if !s.basis then Co.fail .noBasis
  else
    let length := blockLengthAt s.sig block
    if length = 0 then Co.fail .outOfRange
    else
      match ← Pipe.consult (block * s.sig.blockLength) length with
      | none => Co.fail .read
      | some bytes =>
        if bytes.length ≠ length then Co.fail .shortRead
        else
          Co.modify (copied block dst bytes)
          Pipe.orFail (Pipe.put dst bytes) .write
          Co.modify fun s => { s with matchedBytes := s.matchedBytes + length }

/-- What is noted when the file is renamed. -/
def note (theirs : δ) : Note δ := ⟨t.index, t.size, t.tagBase, s.sig, s.order, s.pieces, theirs⟩

/-- `Receive::complete`. -/
def complete [DecidableEq δ] (theirs : δ) : Pipe π (Message ν δ) (Note δ) Receive Unit := do
  storeReceived c t 0
  awaitWrites 0
  let s ← Co.read
  if c.sum s.whole ≠ theirs then Co.fail .mismatch
  else
    commit t.path (note t s theirs) t.size
    Pipe.orFail (Pipe.tell (.receipt s.literalBytes s.matchedBytes)) .control

/-- The loop of `receiveStream`. -/
def streamLoop : (fuel offset : ℕ) → Pipe π (Message ν δ) (Note δ) Receive Unit
  | 0, _ => Co.hang
  | fuel + 1, offset => do
      if offset < t.size then
        storeReceived c t (c.recvWindow - 1)
        awaitWrites c.writeWindow
        Pipe.orFail (Pipe.acquire held) .memory
        let length := (c.streaming t.tagBase).take (t.size - offset)
        post c t offset length
        streamLoop fuel (offset + length)
      else return ()

/-- `Receive::receiveStream`. -/
def receiveStream [DecidableEq δ] (fuel : ℕ) : Pipe π (Message ν δ) (Note δ) Receive Unit := do
  streamLoop c t fuel 0
  storeReceived c t 0
  awaitWrites 0
  match ← Pipe.hear with
  | some (.done theirs) => complete c t theirs
  | some _ => Co.fail .unexpected
  | none => Co.fail .control

/-- `Receive::receiveDelta`. -/
def receiveDelta [DecidableEq δ] : (fuel : ℕ) → Pipe π (Message ν δ) (Note δ) Receive Unit
  | 0 => Co.hang
  | fuel + 1 => do
      match ← Pipe.hear with
      | some (.literal offset length) =>
        applyLiteral c t offset length
        receiveDelta fuel
      | some (.copy block dst) =>
        applyCopy c t block dst
        receiveDelta fuel
      | some (.done theirs) => complete c t theirs
      | some _ => Co.fail .unexpected
      | none => Co.fail .control

/-- The signature of the basis, when there is one. -/
def sign (basis : Bool) (index : ℕ) : Pipe π (Message ν δ) (Note δ) Receive Unit :=
  if basis then
    match c.signature index with
    | none => Co.fail .read
    | some sig => Co.modify fun s => { s with sig }
  else Co.pure ()

/-- `Receive::openTarget`, once the name is resolved. -/
def openTarget (h : FileHeader ν) (index : ℕ) : Pipe π (Message ν δ) (Note δ) Receive Unit := do
  let basis ← Pipe.open_
  Co.modify fun s => { s with basis }
  Pipe.orFail Pipe.create .create
  if !h.wantSignature then return ()
  else
    sign c basis index
    -- without a basis it is the empty one
    let s ← Co.read
    Pipe.orFail (Pipe.tell (.signature s.sig)) .control

/-- What `receiveFile` resets. -/
def reset : Receive :=
  { s with
    whole := [], literalBytes := 0, matchedBytes := 0, sig := noSignature, basis := false, order :=
      [], pieces := [] }

/-- The file that a header announces. -/
def target (h : FileHeader ν) (path : π) (index tagBase : ℕ) : Target π :=
  ⟨path, index, h.size, tagBase, h.streamed && c.pageSize % directAlignment = 0 && c.granted⟩

/-- `Receive::receiveFile`. -/
def receiveFile [DecidableEq δ] (h : FileHeader ν) (index tagBase fuel : ℕ) :
    Pipe π (Message ν δ) (Note δ) Receive Unit := do
  Co.modify reset
  match c.resolve h.name with
  | none => Co.fail .unexpected
  | some path =>
    openTarget c h index
    if h.streamed then receiveStream c (target c h path index tagBase) fuel
    else receiveDelta c (target c h path index tagBase) fuel

/-- `Receive::makeDirectory`. -/
def makeDirectory (h : FileHeader ν) : Pipe π (Message ν δ) (Note δ) Receive Unit :=
  match c.resolve h.name with
  | none => Co.fail .unexpected
  | some _ => Pipe.orFail Pipe.attributes .create

/-- `Receive::makeLink`. -/
def makeLink (h : FileHeader ν) : Pipe π (Message ν δ) (Note δ) Receive Unit :=
  match c.resolve h.name with
  | none => Co.fail .unexpected
  | some path => if !h.target then Co.fail .unexpected else Pipe.orFail (Pipe.link path) .create

/-- The loop of `serve`, at the header of some number. -/
def serveLoop [DecidableEq δ] :
    (fuel index tagBase : ℕ) → Pipe π (Message ν δ) (Note δ) Receive Unit
  | 0, _, _ => Co.hang
  | fuel + 1, index, tagBase => do
      match ← Pipe.hear with
      | some .end_ => return ()
      | some (.fileHeader h) =>
        if h.directory then
          makeDirectory c h
          serveLoop fuel index tagBase
        else if h.link then
          makeLink c h
          serveLoop fuel index tagBase
        else
          receiveFile c h index tagBase fuel
          serveLoop fuel (index + 1) ((tagBase + tagSpan h.size c.pageSize) % 2 ^ 64)
      | some _ => Co.fail .unexpected
      | none => Co.fail .control

/-- `Receive::serve`. -/
def serve [DecidableEq δ] (fuel : ℕ) : Pipe π (Message ν δ) (Note δ) Receive Unit := do
  -- `negotiate` opens the data channel and starts nothing
  Pipe.orFail Pipe.open_ .control
  serveLoop c fuel 0 0

/-- `Receive::quiesce`. -/
def quiesce : Pipe π (Message ν δ) (Note δ) Receive Unit := do
  Pipe.quiesceQueue (fun s => s.receiving.map Posted.id) popReceiving
  Pipe.quiesceQueue (·.writing) popWriting

/-- `Receive::run`. -/
def run [DecidableEq δ] (fuel : ℕ) : Pipe π (Message ν δ) (Note δ) Receive Unit := do
  match ← Co.outcome (serve c fuel) with
  | .ok _ => quiesce
  | .error f =>
    Pipe.close
    quiesce
    Co.fail f

/-- `run`, and the end of the object: `FileWriter::abandon`. -/
def session [DecidableEq δ] (fuel : ℕ) : Pipe π (Message ν δ) (Note δ) Receive Unit := do
  match ← Co.outcome (run c fuel) with
  | .ok _ => Pipe.remove
  | .error f =>
    Pipe.remove
    Co.fail f

end Code

end Receive

end Rail.Transfer
