import Rail.Foundation.Wire

/-!
# XDR

`src/nfs/xdr.cc`.  Numbers are big-endian, and bytes are filled up to a multiple of four.  What is
written last may be left out of the buffer and sent from where it is: `opaqueTail` writes only its
length, and `payload` hands both out, with the filling that belongs behind the tail.

The reader is the cursor of `Wire`.  An opaque field that is longer than the reader allows fails it.
`Item` is a field with its value, and with the limit that its reader sets; what a list of them
writes, its reader reads.
-/

namespace Rail.Nfs.Xdr

open List Wire

def padding (length : ℕ) : ℕ := (4 - length % 4) % 4

/-! ## Writing -/

/-- `XdrPayload`.  No more than three bytes can follow. -/
structure Payload where
  body : Bytes := []
  tail : Bytes := []
  pad : ℕ := 0
  pad_le : pad ≤ 3 := by decide
  deriving DecidableEq

def Payload.size (p : Payload) : ℕ := p.body.length + p.tail.length + p.pad

/-- `XdrWriter`: `Out`, and the tail that is not in it. -/
structure Writer where
  out : Bytes := []
  tail : Bytes := []
  tailPad : ℕ := 0
  deriving DecidableEq

namespace Writer

def u32 (v : UInt32) (w : Writer) : Writer := { w with out := w.out ++ be 4 v.toNat }

def u64 (v : UInt64) (w : Writer) : Writer :=
  (w.u32 (UInt32.ofNat (v.toNat / 2 ^ 32))).u32 (UInt32.ofNat (v.toNat % 2 ^ 32))

def boolean (v : Bool) (w : Writer) : Writer := w.u32 (if v then 1 else 0)

variable (v : Bytes) (w : Writer)

def fixed : Writer := { w with out := w.out ++ v ++ List.replicate (padding v.length) 0 }

/-- The length is cut to 32 bits. -/
def opaque_ : Writer := (w.u32 (UInt32.ofNat v.length)).fixed v

def opaqueTail : Writer :=
  { w.u32 (UInt32.ofNat v.length) with tail := v, tailPad := padding v.length }

def text : Writer := w.opaque_ v

def payload : Payload := ⟨w.out, w.tail, min w.tailPad 3, Nat.min_le_right _ _⟩

end Writer

/-! ## Reading -/

variable {ε : Type}

def u32 : Get ε UInt32 := do return UInt32.ofNat (ofBE (← Get.take 4))

def u64 : Get ε UInt64 := do
  let high ← u32
  let low ← u32
  return UInt64.ofNat (2 ^ 32 * high.toNat + low.toNat)

def boolean : Get ε Bool := do return (← u32) != 0

def fixed (length : ℕ) : Get ε Bytes := do return (← Get.take (length + padding length)).take length

def opaque_ (limit : ℕ) : Get ε Bytes := do
  let length ← u32
  if !(← Get.ok) then return []
  else if length.toNat > limit then do
    Get.spoil
    return []
  else fixed length.toNat

def text (limit : ℕ) : Get ε Bytes := do
  let view ← opaque_ limit
  if !(← Get.ok) then return [] else return view

/-! ## Fields -/

/-- A field with its value, and with the limit of its reader. -/
inductive Item where
  | u32 (v : UInt32)
  | u64 (v : UInt64)
  | boolean (v : Bool)
  | fixed (v : Bytes)
  | opaque_ (limit : ℕ) (v : Bytes)
  | text (limit : ℕ) (v : Bytes)
  deriving DecidableEq

variable {items : List Item} {i : Item} {limit : ℕ} {tail : Option Bytes}

namespace Item

def put (w : Writer) : Item → Writer
  | .u32 v => w.u32 v
  | .u64 v => w.u64 v
  | .boolean v => w.boolean v
  | .fixed v => w.fixed v
  | .opaque_ _ v => w.opaque_ v
  | .text _ v => w.text v

/-- Read a field of the same kind. -/
def get : Item → Get ε Item
  | .u32 _ => do return .u32 (← Xdr.u32)
  | .u64 _ => do return .u64 (← Xdr.u64)
  | .boolean _ => do return .boolean (← Xdr.boolean)
  | .fixed v => do return .fixed (← Xdr.fixed v.length)
  | .opaque_ limit _ => do return .opaque_ limit (← Xdr.opaque_ limit)
  | .text limit _ => do return .text limit (← Xdr.text limit)

/-- What the field adds to the buffer. -/
def bytes : Item → Bytes
  | .u32 v => be 4 v.toNat
  | .u64 v => be 4 (v.toNat / 2 ^ 32) ++ be 4 (v.toNat % 2 ^ 32)
  | .boolean v => be 4 (if v then 1 else 0)
  | .fixed v => v ++ List.replicate (padding v.length) 0
  | .opaque_ _ v | .text _ v => be 4 v.length ++ (v ++ List.replicate (padding v.length) 0)

/-- The number of its own bytes, for a field of any length. -/
def size : Item → ℕ
  | .fixed v | .opaque_ _ v | .text _ v => v.length
  | _ => 0

/-- Its reader allows its length. -/
def Allowed : Item → Prop
  | .opaque_ limit v | .text limit v => v.length ≤ limit
  | _ => True

/-- Its length can also be written. -/
def Fits : Item → Prop
  | .opaque_ limit v | .text limit v => v.length ≤ limit ∧ v.length < 2 ^ 32
  | _ => True

theorem Allowed.fits (h : i.Allowed) (hsize : i.size < 2 ^ 32) : i.Fits := by
  cases i with
  | opaque_ limit v | text limit v => exact ⟨h, hsize⟩
  | _ => trivial

end Item

theorem padding_le (length : ℕ) : padding length ≤ 3 := by
  rw [padding]
  omega

theorem Writer.out_u32 (v : UInt32) (w : Writer) : (w.u32 v).out = w.out ++ be 4 v.toNat := rfl

theorem Writer.out_fixed (v : Bytes) (w : Writer) :
    (w.fixed v).out = w.out ++ (v ++ List.replicate (padding v.length) 0) := append_assoc ..

/-! ## What is written is read -/

theorem reads_u32 (v : UInt32) : Reads (u32 : Get ε UInt32) (be 4 v.toNat) v := by
  have hread : Reads (u32 : Get ε UInt32) (be 4 v.toNat) (UInt32.ofNat v.toNat) :=
    .bigNumber v.toNat_lt UInt32.ofNat
  rwa [UInt32.ofNat_toNat] at hread

theorem reads_length {n : ℕ} (h : n < 2 ^ 32) :
    Reads (u32 : Get ε UInt32) (be 4 n) (UInt32.ofNat n) :=
  .bigNumber h UInt32.ofNat

/-- The two halves of a number. -/
theorem halves_lt (v : UInt64) : v.toNat / 2 ^ 32 < 2 ^ 32 ∧ v.toNat % 2 ^ 32 < 2 ^ 32 := by
  have hv := v.toNat_lt
  omega

theorem reads_u64 (v : UInt64) :
    Reads (u64 : Get ε UInt64) (be 4 (v.toNat / 2 ^ 32) ++ be 4 (v.toNat % 2 ^ 32)) v := by
  obtain ⟨hhigh, hlow⟩ := halves_lt v
  refine (reads_length hhigh).bind ?_
  have hread := (reads_length (ε := ε) hlow).map fun low =>
    UInt64.ofNat (2 ^ 32 * (UInt32.ofNat (v.toNat / 2 ^ 32)).toNat + low.toNat)
  have hwhole : UInt64.ofNat (2 ^ 32 * (UInt32.ofNat (v.toNat / 2 ^ 32)).toNat +
      (UInt32.ofNat (v.toNat % 2 ^ 32)).toNat) = v := by
    rw [UInt32.toNat_ofNat_of_lt' hhigh, UInt32.toNat_ofNat_of_lt' hlow, Nat.div_add_mod,
      UInt64.ofNat_toNat]
  rwa [hwhole] at hread

theorem reads_boolean (v : Bool) : Reads (boolean : Get ε Bool) (be 4 (if v then 1 else 0)) v := by
  cases v with
  | true => exact (reads_u32 1).map (· != 0)
  | false => exact (reads_u32 0).map (· != 0)

theorem reads_fixed (v : Bytes) :
    Reads (fixed v.length : Get ε Bytes) (v ++ List.replicate (padding v.length) 0) v := by
  have hread : Reads (.take (v ++ List.replicate (padding v.length) 0).length : Get ε Bytes) _ _ :=
    .take _
  rw [length_append, length_replicate] at hread
  have hmap := hread.map (List.take v.length)
  rwa [take_left] at hmap

theorem reads_opaque_ {v : Bytes} (hlimit : v.length ≤ limit) (hv : v.length < 2 ^ 32) :
    Reads (opaque_ limit : Get ε Bytes)
    (be 4 v.length ++ (v ++ List.replicate (padding v.length) 0)) v := by
  refine (reads_length hv).bind (.ok ?_)
  rw [if_neg (by decide), UInt32.toNat_ofNat_of_lt' hv, if_neg (by omega)]
  exact reads_fixed v

theorem reads_text {v : Bytes} (hlimit : v.length ≤ limit) (hv : v.length < 2 ^ 32) :
    Reads (text limit : Get ε Bytes) (be 4 v.length ++ (v ++ List.replicate (padding v.length) 0))
    v := by
  rw [← append_nil (be 4 v.length ++ _)]
  refine (reads_opaque_ hlimit hv).bind (.ok ?_)
  rw [if_neg (by decide)]
  exact .pure v

namespace Item

theorem reads (h : i.Fits) : Reads (i.get : Get ε Item) i.bytes i := by
  cases i with
  | u32 v => exact (reads_u32 v).map Item.u32
  | u64 v => exact (reads_u64 v).map Item.u64
  | boolean v => exact (reads_boolean v).map Item.boolean
  | fixed v => exact (reads_fixed v).map Item.fixed
  | opaque_ limit v => exact (reads_opaque_ h.1 h.2).map (Item.opaque_ limit)
  | text limit v => exact (reads_text h.1 h.2).map (Item.text limit)

theorem out_put (h : i.Fits) (w : Writer) : (i.put w).out = w.out ++ i.bytes := by
  cases i with
  | u32 v => rfl
  | u64 v =>
    obtain ⟨hhigh, hlow⟩ := halves_lt v
    rw [put, Writer.u64, Writer.out_u32, Writer.out_u32, UInt32.toNat_ofNat_of_lt' hhigh,
      UInt32.toNat_ofNat_of_lt' hlow, append_assoc]
    rfl
  | boolean v => cases v <;> rfl
  | fixed v => exact Writer.out_fixed v w
  | opaque_ limit v =>
    rw [put, Writer.opaque_, Writer.out_fixed, Writer.out_u32, UInt32.toNat_ofNat_of_lt' h.2,
      append_assoc]
    rfl
  | text limit v =>
    rw [put, Writer.text, Writer.opaque_, Writer.out_fixed, Writer.out_u32,
      UInt32.toNat_ofNat_of_lt' h.2, append_assoc]
    rfl

/-- A buffer grows by at least the bytes of a field. -/
theorem size_put_le (i : Item) (w : Writer) : w.out.length + i.size ≤ (i.put w).out.length := by
  cases i with
  | u32 v => simp [put, Writer.u32, size]
  | u64 v => simp [put, Writer.u64, Writer.u32, size]
  | boolean v => simp [put, Writer.boolean, Writer.u32, size]
  | fixed v => simp [put, Writer.fixed, size]
  | opaque_ limit v =>
    simp only [put, Writer.opaque_, Writer.fixed, Writer.u32, size, length_append]
    omega
  | text limit v =>
    simp only [put, Writer.text, Writer.opaque_, Writer.fixed, Writer.u32, size, length_append]
    omega

theorem length_le_foldl_put (items : List Item) (w : Writer) :
    w.out.length ≤ (items.foldl put w).out.length := by
  induction items generalizing w with
  | nil => exact le_rfl
  | cons i is ih => exact ((Nat.le_add_right _ _).trans (i.size_put_le w)).trans (ih (i.put w))

theorem size_le_foldl_put (hi : i ∈ items) (w : Writer) :
    i.size ≤ (items.foldl put w).out.length := by
  induction items generalizing w with
  | nil => exact absurd hi not_mem_nil
  | cons j is ih =>
    rcases mem_cons.mp hi with rfl | hi
    · exact ((Nat.le_add_left _ _).trans (i.size_put_le w)).trans (length_le_foldl_put is (i.put w))
    · exact ih hi (j.put w)

theorem tail_put (i : Item) (w : Writer) :
    (i.put w).tail = w.tail ∧ (i.put w).tailPad = w.tailPad := by
  cases i <;> exact ⟨rfl, rfl⟩

end Item

/-- The fields of a body in their order, and the payload that is not copied into it. -/
def write (items : List Item) (tail : Option Bytes) : Writer :=
  let w := items.foldl Item.put {}
  match tail with
  | none => w
  | some v => w.opaqueTail v

/-- The reader of a body reads a field for each that was written. -/
def readAll : List Item → Get ε (List Item)
  | [] => pure []
  | i :: is => do
      let a ← i.get
      let as ← readAll is
      return a :: as

theorem reads_all (h : ∀ i ∈ items, i.Fits) :
    Reads (readAll items : Get ε (List Item)) (items.flatMap Item.bytes) items := by
  induction items with
  | nil => exact .pure []
  | cons i is ih =>
    have hrest := ih fun j hj => h j (mem_cons_of_mem i hj)
    exact (Item.reads (h i mem_cons_self)).bind (hrest.map (i :: ·))

/-- The fields that a reader finds: a tail looks like any other bytes. -/
def fields (items : List Item) (limit : ℕ) (tail : Option Bytes) : List Item :=
  items ++ tail.toList.map (Item.opaque_ limit)

/-- What goes out for a payload. -/
def Payload.bytes (p : Payload) : Bytes := p.body ++ p.tail ++ List.replicate p.pad 0

theorem Writer.bytes_payload (w : Writer) :
    w.payload.bytes = w.out ++ w.tail ++ List.replicate (min w.tailPad 3) 0 := rfl

theorem foldl_put (h : ∀ i ∈ items, i.Fits) (w : Writer) :
    (items.foldl Item.put w).out = w.out ++ items.flatMap Item.bytes ∧
    (items.foldl Item.put w).tail = w.tail ∧ (items.foldl Item.put w).tailPad = w.tailPad := by
  induction items generalizing w with
  | nil => exact ⟨(append_nil _).symm, rfl, rfl⟩
  | cons i is ih =>
    obtain ⟨hout, htail, hpad⟩ := ih (fun j hj => h j (mem_cons_of_mem i hj)) (i.put w)
    obtain ⟨htail', hpad'⟩ := i.tail_put w
    rw [foldl_cons, hout, htail, hpad, Item.out_put (h i mem_cons_self), flatMap_cons, append_assoc]
    exact ⟨rfl, htail', hpad'⟩

/-- **A body goes out as its fields**, whether its last one was copied into it or not. -/
theorem bytes_write (h : ∀ i ∈ fields items limit tail, i.Fits) :
    (write items tail).payload.bytes = (fields items limit tail).flatMap Item.bytes := by
  obtain ⟨hout, htail, hpad⟩ := foldl_put (fun i hi => h i (mem_append_left _ hi)) {}
  rw [fields, flatMap_append]
  cases tail with
  | none =>
    rw [write, Writer.bytes_payload, hout, htail, hpad, append_nil]
    rfl
  | some v =>
    have hfits : v.length ≤ limit ∧ v.length < 2 ^ 32 :=
      h (.opaque_ limit v) (mem_append_right _ mem_cons_self)
    have hpadding : min (padding v.length) 3 = padding v.length := Nat.min_eq_left (padding_le _)
    show ((items.foldl Item.put {}).out ++ be 4 (UInt32.ofNat v.length).toNat) ++ v ++
      List.replicate (min (padding v.length) 3) 0 = _
    rw [hout, UInt32.toNat_ofNat_of_lt' hfits.2, hpadding]
    show _ = _ ++ (be 4 v.length ++ (v ++ List.replicate (padding v.length) 0) ++ [])
    rw [append_nil, append_assoc, append_assoc]
    rfl

/-- A field is no longer than what goes out. -/
theorem size_le_bytes_write (hi : i ∈ fields items limit tail) :
    i.size ≤ (write items tail).payload.bytes.length := by
  rw [Writer.bytes_payload, length_append, length_append]
  rcases mem_append.mp hi with hi | hi
  · have hsize := Item.size_le_foldl_put hi {}
    cases tail with
    | none =>
      rw [write]
      omega
    | some v =>
      have hout : (write items (some v)).out = (items.foldl Item.put {}).out ++
        be 4 (UInt32.ofNat v.length).toNat := rfl
      rw [hout, length_append]
      omega
  · cases tail with
    | none => exact absurd hi not_mem_nil
    | some v =>
      obtain rfl := mem_singleton.mp hi
      show v.length ≤ _ + v.length + _
      omega

/-- **A body is read back**, whatever its fields are, by a reader that allows their lengths. -/
theorem readAll_write (hallowed : ∀ i ∈ fields items limit tail, i.Allowed)
    (hsize : (write items tail).payload.bytes.length < 2 ^ 32) :
    ∃ r, (readAll (fields items limit tail) : Get ε (List Item)).run
    (Reader.start (write items tail).payload.bytes) = .ok (fields items limit tail, r) ∧
    r.ok = true ∧ r.rest = [] := by
  have hfits : ∀ i ∈ fields items limit tail, i.Fits :=
    fun i hi => (hallowed i hi).fits ((size_le_bytes_write hi).trans_lt hsize)
  rw [bytes_write hfits]
  exact (reads_all hfits).full _ [] rfl (by rw [Reader.rest_start, append_nil])

end Rail.Nfs.Xdr
