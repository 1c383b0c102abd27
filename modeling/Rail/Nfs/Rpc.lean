import Rail.Nfs.Xdr
import Mathlib.Data.Nat.Bitwise

/-!
# RPC records

`src/nfs/rpc.cc`.  A message is a record, and a record goes over a stream in fragments: four bytes
with the length of a fragment, and whether it is the last, stand before each.  This side sends a
record in one, and accepts it in any number of them, as long as they have no more than `kMaxRecord`
bytes together.

`framed` is what a peer sends that cuts a record at arbitrary places, also into fragments with
nothing in them.  Such a stream is read back as the record, whatever the cuts
(`receiveRecord_framed`), or refused at the header of the fragment that would exceed the limit
(`receiveRecord_framed_of_lt`).  What was accepted never exceeds the limit, for any stream.
-/

namespace Rail.Nfs.Rpc

open List Wire Xdr

/-- `kMaxRecord`: 16 MiB. -/
def maxRecord : ℕ := 16777216

/-- `kLastFragment` -/
def lastFragment : UInt32 := 0x80000000

/-- `kProgramVersion` -/
def programVersion : UInt32 := 3

/-- `AcceptStatus`, which is cast from what was read. -/
structure AcceptStatus where
  code : UInt32
  deriving DecidableEq

namespace AcceptStatus

def success : AcceptStatus := ⟨0⟩

def programUnavailable : AcceptStatus := ⟨1⟩

def programMismatch : AcceptStatus := ⟨2⟩

def procedureUnavailable : AcceptStatus := ⟨3⟩

def garbageArguments : AcceptStatus := ⟨4⟩

end AcceptStatus

structure Call where
  xid : UInt32
  program : UInt32
  version : UInt32
  procedure : UInt32
  args : Bytes
  deriving DecidableEq

structure ReplyMessage where
  xid : UInt32
  status : AcceptStatus
  results : Bytes
  deriving DecidableEq

/-! ## Sending -/

/-- The bytes that go out for a record. -/
def sendRecord (header : Bytes) (body : Payload) : Bytes :=
  let out :=
    ((({} : Writer).u32 (UInt32.ofNat (header.length + body.size) ||| lastFragment)).fixed
      header).out
  let pad := List.replicate (min body.pad 3) 0
  if body.tail = [] then out ++ body.body ++ pad
  else if body.body = [] then out ++ body.tail ++ pad
  else out ++ body.body ++ (body.tail ++ pad)

def replyHeader (xid : UInt32) (status : AcceptStatus) : Bytes :=
  ((((((({} : Writer).u32 xid).u32 1).u32 0).u32 0).u32 0).u32 status.code).out

def callHeader (xid program procedure : UInt32) : Bytes :=
  ((((((((((({} : Writer).u32 xid).u32 0).u32 2).u32 program).u32 programVersion).u32 procedure).u32
    0).u32 0).u32 0).u32 0).out

def sendReply (xid : UInt32) (status : AcceptStatus) (results : Payload) : Bytes :=
  sendRecord (replyHeader xid status) results

def sendCall (xid program procedure : UInt32) (args : Bytes) : Bytes :=
  sendRecord (callHeader xid program procedure) { body := args }

/-! ## Receiving -/

/-- How `receiveRecord` ends, with what it has accepted. -/
inductive Received where
  | record (r rest : Bytes)
  | refused (held : Bytes)
  | ended (size : ℕ)
  deriving DecidableEq

/-- The bytes of memory that were taken for the record. -/
def Received.size : Received → ℕ
  | .record r _ => r.length
  | .refused held => held.length
  | .ended size => size

/-- The loop of `receiveRecord`, with the record so far.  `s` is what the stream still brings. -/
def receiveLoop (record s : Bytes) : Received :=
  if 4 ≤ s.length then
    let header := UInt32.ofNat (ofBE (s.take 4))
    let last := header &&& lastFragment ≠ 0
    let length := (header &&& ~~~lastFragment).toNat
    if record.length + length > maxRecord then .refused record
    else if (s.drop 4).length < length then .ended (record.length + length)
    else if last then .record (record ++ (s.drop 4).take length) ((s.drop 4).drop length)
    else receiveLoop (record ++ (s.drop 4).take length) ((s.drop 4).drop length)
  else .ended record.length
termination_by s.length
decreasing_by
  rw [length_drop, length_drop]
  omega

def receiveRecord (s : Bytes) : Received := receiveLoop [] s

/-- The header of a call, up to its arguments. -/
def readCall : Get String Call := do
  let xid ← u32
  let kind ← u32
  if kind ≠ 0 then Get.fail "not an rpc call"
  else do
    let rpcVersion ← u32
    if rpcVersion ≠ 2 then Get.fail "unsupported rpc version"
    else do
      let program ← u32
      let version ← u32
      let procedure ← u32
      let _ ← u32
      let _ ← opaque_ 400
      let _ ← u32
      let _ ← opaque_ 400
      return { xid, program, version, procedure, args := [] }

/-- The header of a reply, up to its results. -/
def readReply : Get String ReplyMessage := do
  let xid ← u32
  let kind ← u32
  if kind ≠ 1 then Get.fail "not an rpc reply"
  else do
    let accepted ← u32
    if accepted ≠ 0 then Get.fail "the call was denied"
    else do
      let _ ← u32
      let _ ← opaque_ 400
      let status ← u32
      return { xid, status := ⟨status⟩, results := [] }

/-- What a record is taken for: the header read, and the bytes that are left. -/
def parse {α : Type} (header : Get String α) (malformed : String) (r : Bytes) :
    Except String (α × Bytes) :=
  match header.run (Reader.start r) with
  | .error e => .error e
  | .ok (a, at_) => if at_.ok then .ok (a, at_.rest) else .error malformed

def parseCall (r : Bytes) : Except String Call :=
  (parse readCall "malformed rpc call header" r).map fun (c, args) => { c with args }

def parseReply (r : Bytes) : Except String ReplyMessage :=
  (parse readReply "malformed rpc reply header" r).map fun (m, results) => { m with results }

/-- Receive a record and read it.  An error ends the connection; otherwise `rest` is what
follows. -/
def receive {α : Type} (parse : Bytes → Except String α) (s : Bytes) : Except String (α × Bytes) :=
  match receiveRecord s with
  | .record r rest => (parse r).map fun a => (a, rest)
  | .refused _ => .error "rpc record too large"
  | .ended _ => .error "peer closed"

def receiveCall (s : Bytes) : Except String (Call × Bytes) := receive parseCall s

def receiveReply (s : Bytes) : Except String (ReplyMessage × Bytes) := receive parseReply s

/-! ## Fragments -/

/-- What stands before a fragment. -/
def marker (last : Bool) (n : ℕ) : UInt32 := UInt32.ofNat n ||| if last then lastFragment else 0

def fragment (last : Bool) (c : Bytes) : Bytes := be 4 (marker last c.length).toNat ++ c

/-- A record that is sent in the given pieces. -/
def framed : List Bytes → Bytes
  | [] => []
  | [c] => fragment true c
  | c :: cs => fragment false c ++ framed cs

section Loop

variable {last : Bool} {n : ℕ} {record rest c : Bytes} {cs : List Bytes}

theorem toNat_marker (h : n < 2 ^ 31) :
    (marker last n).toNat = n ||| if last then 2 ^ 31 else 0 := by
  have hn : n < 2 ^ 32 := by omega
  rw [marker, UInt32.toNat_or, UInt32.toNat_ofNat_of_lt' hn]
  cases last <;> rfl

theorem marker_last (h : n < 2 ^ 31) : marker last n &&& lastFragment ≠ 0 ↔ last = true := by
  have hbit : n.testBit 31 = false := Nat.testBit_lt_two_pow h
  have hand : n &&& 2 ^ 31 = 0 := by
    rw [Nat.and_two_pow, hbit]
    rfl
  have hvalue : (marker last n &&& lastFragment).toNat = if last then 2 ^ 31 else 0 := by
    rw [UInt32.toNat_and, toNat_marker h]
    show _ &&& 2 ^ 31 = _
    rw [Nat.and_or_distrib_right, hand]
    cases last <;> rfl
  rw [Ne, ← UInt32.toNat_inj, hvalue]
  cases last <;> decide

theorem marker_length (h : n < 2 ^ 31) : (marker last n &&& ~~~lastFragment).toNat = n := by
  rw [UInt32.toNat_and, toNat_marker h]
  show _ &&& (2 ^ 31 - 1) = n
  rw [Nat.and_or_distrib_right, Nat.and_two_pow_sub_one_eq_mod, Nat.mod_eq_of_lt h]
  cases last <;> exact Nat.or_zero n

/-- **One round of the loop**, on a fragment that is there as a whole. -/
theorem receiveLoop_fragment (record rest : Bytes) (last : Bool) (hc : c.length < 2 ^ 31) :
    receiveLoop record (fragment last c ++ rest) =
      if record.length + c.length > maxRecord then .refused record
      else if last then .record (record ++ c) rest
      else receiveLoop (record ++ c) rest := by
  have hlength : 4 ≤ (fragment last c ++ rest).length := by
    rw [fragment, length_append, length_append, length_be]
    omega
  have htake : (fragment last c ++ rest).take 4 = be 4 (marker last c.length).toNat := by
    rw [fragment, append_assoc, take_append_of_le_length (by rw [length_be]),
      take_of_length_le (by rw [length_be])]
  have hdrop : (fragment last c ++ rest).drop 4 = c ++ rest := by
    rw [fragment, append_assoc, drop_left' (length_be _ _)]
  have hheader : UInt32.ofNat (ofBE (be 4 (marker last c.length).toNat)) =
      marker last c.length := by
    rw [ofBE_be (UInt32.toNat_lt _), UInt32.ofNat_toNat]
  rw [receiveLoop, if_pos hlength, htake, hheader, hdrop]
  dsimp only
  have hwhole : ¬(c ++ rest).length < c.length := by
    rw [length_append]
    omega
  rw [marker_length hc, take_left, drop_left, if_neg hwhole]
  by_cases hlast : last = true
  · rw [if_pos ((marker_last hc).mpr hlast), if_pos hlast]
  · rw [if_neg fun h => hlast ((marker_last hc).mp h), if_neg hlast]

theorem receiveLoop_framed (hne : cs ≠ []) (hcs : ∀ c ∈ cs, c.length < 2 ^ 31)
    (hfit : record.length + cs.flatten.length ≤ maxRecord) (rest : Bytes) :
    receiveLoop record (framed cs ++ rest) = .record (record ++ cs.flatten) rest := by
  induction cs generalizing record with
  | nil => exact absurd rfl hne
  | cons c cs ih =>
    have hc := hcs c mem_cons_self
    rw [flatten_cons, length_append] at hfit
    have hsmall : ¬record.length + c.length > maxRecord := by omega
    cases cs with
    | nil =>
      rw [framed, receiveLoop_fragment record rest true hc, if_neg hsmall, if_pos rfl, flatten_cons,
        flatten_nil, append_nil]
    | cons d ds =>
      rw [framed, append_assoc, receiveLoop_fragment record _ false hc, if_neg hsmall,
        if_neg Bool.false_ne_true]
      · rw [ih (cons_ne_nil d ds) (fun e he => hcs e (mem_cons_of_mem c he))
          (by rw [length_append]; omega), append_assoc]
        rfl
      · exact fun h => absurd h (cons_ne_nil d ds)

/-- A stream that brings too much is refused at the header of the fragment that would exceed the
limit. -/
theorem receiveLoop_framed_of_lt (hcs : ∀ c ∈ cs, c.length < 2 ^ 31)
    (hheld : record.length ≤ maxRecord) (hlarge : maxRecord < record.length + cs.flatten.length)
    (rest : Bytes) : ∃ held, receiveLoop record (framed cs ++ rest) = .refused held ∧
    held <+: record ++ cs.flatten := by
  induction cs generalizing record with
  | nil =>
    rw [flatten_nil, length_nil] at hlarge
    omega
  | cons c cs ih =>
    have hc := hcs c mem_cons_self
    rw [flatten_cons, length_append] at hlarge
    by_cases hbig : record.length + c.length > maxRecord
    · refine ⟨record, ?_, prefix_append _ _⟩
      cases cs with
      | nil => rw [framed, receiveLoop_fragment record rest true hc, if_pos hbig]
      | cons d ds =>
        rw [framed, append_assoc, receiveLoop_fragment record _ false hc, if_pos hbig]
        exact fun h => absurd h (cons_ne_nil d ds)
    · cases cs with
      | nil =>
        rw [flatten_nil, length_nil] at hlarge
        omega
      | cons d ds =>
        have hsmall : (record ++ c).length ≤ maxRecord := by
          rw [length_append]
          omega
        obtain ⟨held, hheld, hpre⟩ := ih (fun e he => hcs e (mem_cons_of_mem c he)) hsmall
          (by rw [length_append]; omega)
        refine ⟨held, ?_, ?_⟩
        · rw [framed, append_assoc, receiveLoop_fragment record _ false hc, if_neg hbig,
            if_neg Bool.false_ne_true]
          · exact hheld
          · exact fun h => absurd h (cons_ne_nil d ds)
        · rwa [append_assoc] at hpre

/-- No more than the limit is accepted, whatever the stream brings. -/
theorem size_receiveLoop_le (hheld : record.length ≤ maxRecord) (s : Bytes) :
    (receiveLoop record s).size ≤ maxRecord := by
  fun_induction receiveLoop record s with
  | case1 | case5 => exact hheld
  | case2 record s _ header length hsmall _ => exact Nat.not_lt.mp hsmall
  | case3 record s _ header last length hsmall _ _ =>
    show (record ++ (s.drop 4).take length).length ≤ maxRecord
    rw [length_append, length_take]
    omega
  | case4 record s _ header last length hsmall _ _ ih =>
    refine ih ?_
    rw [length_append, length_take]
    omega

end Loop

/-! ## Messages -/

theorem length_bytes (body : Payload) : body.bytes.length = body.size := by
  rw [Payload.bytes, Payload.size, length_append, length_append, length_replicate]

/-- This side sends a record in one fragment. -/
theorem sendRecord_eq {header : Bytes} {body : Payload} (hheader : header.length % 4 = 0) :
    sendRecord header body = framed [header ++ body.bytes] := by
  have hpadding : padding header.length = 0 := by rw [padding, hheader]
  have hpad : min body.pad 3 = body.pad := Nat.min_eq_left body.pad_le
  have hout : ((({} : Writer).u32 (UInt32.ofNat (header.length + body.size) ||| lastFragment)).fixed
      header).out = be 4 (marker true (header ++ body.bytes).length).toNat ++ header := by
    rw [Writer.out_fixed, Writer.out_u32, hpadding, replicate_zero, append_nil, length_append,
      length_bytes]
    rfl
  have hframed : framed [header ++ body.bytes] =
      be 4 (marker true (header ++ body.bytes).length).toNat ++ header ++
        (body.body ++ body.tail ++ List.replicate body.pad 0) := by
    rw [framed, fragment, append_assoc]
    rfl
  rw [hframed, sendRecord, hout, hpad]
  split_ifs with htail hbody
  · rw [htail, append_nil, append_assoc]
  · rw [hbody, nil_append, append_assoc]
  · rw [append_assoc, append_assoc body.body]

theorem parse_of_reads {α : Type} {header : Get String α} {malformed : String} {w : Bytes} {a : α}
    (h : Reads header w a) (t : Bytes) : parse header malformed (w ++ t) = .ok (a, t) := by
  obtain ⟨at_, hrun, hok, hrest⟩ := h.full (Reader.start (w ++ t)) t rfl (Reader.rest_start _)
  rw [parse, hrun]
  dsimp only
  rw [if_pos hok, hrest]

theorem length_callHeader (xid program procedure : UInt32) :
    (callHeader xid program procedure).length = 40 := by
  simp only [callHeader, Writer.out_u32, length_append, length_be, length_nil]

theorem length_replyHeader (xid : UInt32) (status : AcceptStatus) :
    (replyHeader xid status).length = 24 := by
  simp only [replyHeader, Writer.out_u32, length_append, length_be, length_nil]

/-- What a message is: the bytes of its record, and what its receiver makes of them. -/
inductive Message where
  | call (xid program procedure : UInt32) (args : Bytes)
  | reply (xid : UInt32) (status : AcceptStatus) (results : Payload)
  deriving DecidableEq

namespace Message

def header : Message → Bytes
  | .call xid program procedure _ => callHeader xid program procedure
  | .reply xid status _ => replyHeader xid status

def body : Message → Payload
  | .call _ _ _ args => { body := args }
  | .reply _ _ results => results

/-- The record, before it is cut into fragments. -/
def record (m : Message) : Bytes := m.header ++ m.body.bytes

def send : Message → Bytes
  | .call xid program procedure args => sendCall xid program procedure args
  | .reply xid status results => sendReply xid status results

/-- The side that waits for it finds in the stream what was sent, and then `rest`. -/
def Arrives (m : Message) (s rest : Bytes) : Prop :=
  match m with
  | .call xid program procedure args =>
    receiveCall s = .ok ({ xid, program, version := programVersion, procedure, args }, rest)
  | .reply xid status results =>
      receiveReply s = .ok ({ xid, status, results := results.bytes }, rest)

/-- The side that waits for it refuses the stream. -/
def Refused (m : Message) (s : Bytes) : Prop :=
  match m with
  | .call .. => receiveCall s = .error "rpc record too large"
  | .reply .. => receiveReply s = .error "rpc record too large"

end Message

theorem reads_noAuth : Reads (opaque_ 400 : Get String Bytes) (be 4 0 ++ ([] ++ [])) [] :=
  reads_opaque_ (v := []) (Nat.zero_le _) (by decide)

theorem reads_callHeader (xid program procedure : UInt32) :
    Reads readCall (callHeader xid program procedure)
    { xid, program, version := programVersion, procedure, args := [] } := by
  have hheader : callHeader xid program procedure =
      be 4 xid.toNat ++
      (be 4 (0 : UInt32).toNat ++ (be 4 (2 : UInt32).toNat ++ (be 4 program.toNat ++
        (be 4 programVersion.toNat ++
        (be 4 procedure.toNat ++ (be 4 (0 : UInt32).toNat ++ ((be 4 0 ++ ([] ++ [])) ++
          (be 4 (0 : UInt32).toNat ++ ((be 4 0 ++ ([] ++ [])) ++ []))))))))) := by
    simp only [callHeader, Writer.out_u32, nil_append, append_nil, append_assoc]
    rfl
  rw [hheader]
  refine (reads_u32 xid).bind ((reads_u32 0).bind ?_)
  rw [if_neg (by decide)]
  refine (reads_u32 2).bind ?_
  rw [if_neg (by decide)]
  refine (reads_u32 program).bind
    ((reads_u32 programVersion).bind ((reads_u32 procedure).bind ((reads_u32 0).bind ?_)))
  exact reads_noAuth.bind ((reads_u32 0).bind (reads_noAuth.bind (.pure _)))

theorem reads_replyHeader (xid : UInt32) (status : AcceptStatus) :
    Reads readReply (replyHeader xid status) { xid, status, results := [] } := by
  have hheader : replyHeader xid status =
      be 4 xid.toNat ++
      (be 4 (1 : UInt32).toNat ++ (be 4 (0 : UInt32).toNat ++ (be 4 (0 : UInt32).toNat ++
        ((be 4 0 ++ ([] ++ [])) ++ (be 4 status.code.toNat ++ []))))) := by
    simp only [replyHeader, Writer.out_u32, nil_append, append_nil, append_assoc]
    rfl
  rw [hheader]
  refine (reads_u32 xid).bind ((reads_u32 1).bind ?_)
  rw [if_neg (by decide)]
  refine (reads_u32 0).bind ?_
  rw [if_neg (by decide)]
  exact (reads_u32 0).bind (reads_noAuth.bind ((reads_u32 status.code).bind (.pure _)))

namespace Message

variable {m : Message}

theorem send_eq (m : Message) : m.send = framed [m.record] := by
  cases m with
  | call xid program procedure args =>
    rw [send, sendCall, sendRecord_eq (by rw [length_callHeader])]
    rfl
  | reply xid status results =>
    rw [send, sendReply, sendRecord_eq (by rw [length_replyHeader])]
    rfl

theorem arrives_of_received {s rest : Bytes} (h : receiveRecord s = .record m.record rest) :
    m.Arrives s rest := by
  cases m with
  | call xid program procedure args =>
    show receiveCall s = _
    rw [receiveCall, receive, h]
    dsimp only
    rw [parseCall, record, header, parse_of_reads (reads_callHeader xid program procedure)]
    simp [Except.map, body, Payload.bytes]
  | reply xid status results =>
    show receiveReply s = _
    rw [receiveReply, receive, h]
    dsimp only
    rw [parseReply, record, header, parse_of_reads (reads_replyHeader xid status)]
    rfl

theorem refused_of_received {s held : Bytes} (h : receiveRecord s = .refused held) :
    m.Refused s := by
  cases m with
  | call xid program procedure args =>
    show receiveCall s = _
    rw [receiveCall, receive, h]
  | reply xid status results =>
    show receiveReply s = _
    rw [receiveReply, receive, h]

end Message

/-- **Records round-trip.**  A call or a reply is sent as its record in one fragment.  However a
record within the limit is cut into fragments, its receiver finds the message that was sent, and
reads the fields of its body back, the payload that was sent separately among them.  Fragments with
more bytes than the limit are refused, and nothing that is received takes more than the limit. -/
theorem records_round_trip (m : Message) :
    m.send = framed [m.record] ∧
      (∀ cs rest, cs ≠ [] → cs.flatten = m.record → m.record.length ≤ maxRecord →
      m.Arrives (framed cs ++ rest) rest) ∧
      (∀ items limit tail, m.body = (write items tail).payload → m.record.length ≤ maxRecord →
      (∀ i ∈ fields items limit tail, i.Allowed) → ∃ r,
      (readAll (fields items limit tail) : Get String (List Item)).run (Reader.start m.body.bytes) =
      .ok (fields items limit tail, r) ∧ r.ok = true ∧ r.rest = []) ∧
      (∀ cs rest, (∀ c ∈ cs, c.length < 2 ^ 31) → maxRecord < cs.flatten.length →
      m.Refused (framed cs ++ rest) ∧ ∃ held, receiveRecord (framed cs ++ rest) = .refused held ∧
      held <+: cs.flatten ∧ held.length ≤ maxRecord) ∧ ∀ s, (receiveRecord s).size ≤ maxRecord := by
  refine ⟨m.send_eq, fun cs rest hne hflat hfit => ?_, fun items limit tail hbody hfit hallowed =>
    ?_, fun cs rest hcs hlarge => ?_, fun s => size_receiveLoop_le (Nat.zero_le _) s⟩
  · have hcs : ∀ c ∈ cs, c.length < 2 ^ 31 := by
      intro c hc
      have hle := (sublist_flatten_of_mem hc).length_le
      rw [hflat] at hle
      exact (hle.trans hfit).trans_lt (by decide)
    have hreceived : receiveLoop [] (framed cs ++ rest) = .record ([] ++ cs.flatten) rest :=
      receiveLoop_framed hne hcs (by rw [hflat, length_nil]; omega) rest
    rw [nil_append, hflat] at hreceived
    exact Message.arrives_of_received hreceived
  · rw [hbody]
    refine readAll_write hallowed ?_
    rw [Message.record, length_append, hbody] at hfit
    rw [maxRecord] at hfit
    omega
  · have hrefused : ∃ held, receiveLoop [] (framed cs ++ rest) = .refused held ∧
      held <+: [] ++ cs.flatten :=
      receiveLoop_framed_of_lt hcs (Nat.zero_le _) (by rw [length_nil]; omega) rest
    obtain ⟨held, hheld, hpre⟩ := hrefused
    have hsize : (receiveLoop [] (framed cs ++ rest)).size ≤ maxRecord :=
      size_receiveLoop_le (Nat.zero_le _) _
    rw [hheld] at hsize
    exact ⟨Message.refused_of_received hheld, held, hheld, hpre, hsize⟩

/-- A reply with a payload of five bytes. -/
def readReplied : Message :=
  .reply 5 .success (write [.u32 0, .boolean true] (some [1, 2, 3, 4, 5])).payload

/-- It arrives in three fragments, one of them empty, and its payload is read back; one byte too
much is refused. -/
theorem records_round_trip_fragments :
    readReplied.Arrives (framed [readReplied.record.take 10, [], readReplied.record.drop 10] ++ [7])
    [7] ∧ (∃ r, (readAll [.u32 0, .boolean true, .opaque_ 8 [1, 2, 3, 4, 5]] : Get String
      (List Item)).run (Reader.start readReplied.body.bytes) =
      .ok ([.u32 0, .boolean true, .opaque_ 8 [1, 2, 3, 4, 5]], r) ∧ r.ok = true ∧ r.rest = []) ∧
      readReplied.Refused (framed [List.replicate maxRecord 0, [0]] ++ []) := by
  obtain ⟨-, harrives, hread, hrefused, -⟩ := records_round_trip readReplied
  refine ⟨harrives _ _ (cons_ne_nil _ _) ?_ (by decide), ?_, (hrefused _ _ ?_ ?_).1⟩
  · decide
  · refine hread [.u32 0, .boolean true] 8 (some [1, 2, 3, 4, 5]) rfl (by decide) fun i hi => ?_
    rcases mem_cons.mp hi with rfl | hi
    · trivial
    · rcases mem_cons.mp hi with rfl | hi
      · trivial
      · obtain rfl := mem_singleton.mp hi
        show 5 ≤ 8
        decide
  · intro c hc
    rcases mem_cons.mp hc with rfl | hc
    · rw [length_replicate]
      decide
    · obtain rfl := mem_singleton.mp hc
      decide
  · rw [flatten_cons, length_append, length_replicate]
    exact Nat.lt_succ_self _

end Rail.Nfs.Rpc
