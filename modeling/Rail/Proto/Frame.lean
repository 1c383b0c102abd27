import Rail.Proto.Codec

/-!
# Frames of the control channel

`src/proto/control-channel.cc`.  A frame is a header of ten bytes (`magic`, the type and the length
of what follows) and an encoded message.  The sender does not look at the length; a receiver refuses
one that is over `maxFrame` before it reads on.
-/

namespace Rail.Proto

open List Wire

/-- `kHeaderSize`. -/
def headerSize : ℕ := 10

/-- The header for a payload of `n` bytes; the length is cut to 32 bits. -/
def header (t : UInt16) (n : ℕ) : Bytes :=
  List.flatten [Put.u32 magic, Put.u16 t, Put.u32 (UInt32.ofNat n)]

/-- `ControlChannel::sendClaimed`. -/
def frame (m : Message) : Bytes := header m.type.code (encode m).length ++ encode m

/-- `ControlChannel::receive`: the message and the bytes after it.  A stream that ends inside a
frame is what `readExact` fails on. -/
def receive (stream : Bytes) : Except String (Message × Bytes) :=
  if stream.length < headerSize then .error "peer closed"
  else if ofLE (stream.take 4) ≠ magic.toNat then .error "bad frame magic"
  else
    let t := UInt16.ofNat (ofLE ((stream.drop 4).take 2))
    let n := ofLE ((stream.drop 6).take 4)
    let after := stream.drop headerSize
    if maxFrame < n then .error "frame too large"
    else if after.length < n then .error "peer closed"
    else (decode t (after.take n)).map fun m => (m, after.drop n)

theorem length_header (t : UInt16) (n : ℕ) : (header t n).length = headerSize := by
  simp [header, headerSize]

/-- The three fields of a header, wherever it stands. -/
theorem header_fields (t : UInt16) {n : ℕ} (hn : n < 2 ^ 32) (w : Bytes) :
    ofLE ((header t n ++ w).take 4) = magic.toNat ∧
      UInt16.ofNat (ofLE (((header t n ++ w).drop 4).take 2)) = t ∧
      ofLE (((header t n ++ w).drop 6).take 4) = n ∧ (header t n ++ w).drop headerSize = w := by
  have hshape : header t n ++ w = Put.u32 magic ++
      (Put.u16 t ++ (Put.u32 (UInt32.ofNat n) ++ w)) := by
    simp [header]
  have hsix : (Put.u32 magic ++ Put.u16 t).length = 6 := by simp
  refine ⟨?_, ?_, ?_, ?_⟩
  · rw [hshape, take_left' (length_u32 magic)]
    exact ofLE_le magic.toNat_lt
  · rw [hshape, drop_left' (length_u32 magic), take_left' (length_u16 t), Put.u16,
      ofLE_le t.toNat_lt, UInt16.ofNat_toNat]
  · rw [hshape, ← append_assoc, drop_left' hsix, take_left' (length_u32 _), Put.u32,
      ofLE_le (UInt32.toNat_lt _), UInt32.toNat_ofNat_of_lt' hn]
  · exact drop_left' (length_header t n)

/-- **What is sent in a frame that is not too large is received**, and the stream goes on after
it. -/
theorem receive_header {t : UInt16} {w rest : Bytes} {m : Message} (hlen : w.length ≤ maxFrame)
    (hdecode : decode t w = .ok m) :
    receive (header t w.length ++ (w ++ rest)) = .ok (m, rest) := by
  have hsmall : w.length < 2 ^ 32 := lt_of_le_of_lt hlen (by decide)
  obtain ⟨hmagic, htype, hnum, hafter⟩ := header_fields t hsmall (w ++ rest)
  rw [receive, if_neg (by rw [length_append, length_header]; omega), if_neg (not_not_intro hmagic)]
  simp only [htype, hnum, hafter]
  rw [if_neg (by omega), if_neg (by rw [length_append]; omega), take_left, drop_left, hdecode]
  rfl

end Rail.Proto
