import Mathlib.Algebra.Group.Nat.Defs
import Mathlib.Data.List.Infix

/-!
# Fields on a wire

A message is written as its fields, one after another: numbers of fixed width in little-endian
order, strings with their length in front.  It is read by a cursor (`Reader`) that fails at the
first field that is not there, and then stays failed: what it returns from there on is worthless,
and whether it failed is asked once, at the end.

`Get` is a program for such a cursor.  That a failed cursor stays failed is part of the type, so it
is never to be proved of a program.  `Reads m w a` says that `m` reads `a` from the bytes `w`,
whatever follows them, and that it fails on every proper prefix of `w`.  Programs are put together
with `>>=`, and what they read with `++`; the rules of the last section are one for each field, in
the form in which a program of fields uses them.
-/

namespace Wire

open List

abbrev Bytes := List UInt8

/-! ## Numbers -/

/-- A number in `n` bytes, the least significant one first. -/
def le : ℕ → ℕ → Bytes
  | 0, _ => []
  | n + 1, x => UInt8.ofNat x :: le n (x / 256)

/-- The number that bytes stand for. -/
def ofLE : Bytes → ℕ
  | [] => 0
  | b :: bs => b.toNat + 256 * ofLE bs

@[simp] theorem length_le (n x : ℕ) : (le n x).length = n := by
  induction n generalizing x with
  | zero => rfl
  | succ n ih => rw [le, length_cons, ih]

variable {n x : ℕ}

theorem ofLE_le (h : x < 256 ^ n) : ofLE (le n x) = x := by
  induction n generalizing x with
  | zero =>
    rw [pow_zero] at h
    rw [le, ofLE]
    omega
  | succ n ih =>
    have hdiv : x / 256 < 256 ^ n := by
      rw [pow_succ] at h
      exact Nat.div_lt_of_lt_mul (by omega)
    rw [le, ofLE, ih hdiv, UInt8.toNat_ofNat']
    omega

/-- A number in `n` bytes, the most significant one first. -/
def be : ℕ → ℕ → Bytes
  | 0, _ => []
  | n + 1, x => UInt8.ofNat (x / 256 ^ n) :: be n x

/-- The number that bytes stand for, the most significant one first. -/
def ofBE (w : Bytes) : ℕ := w.foldl (fun x b => 256 * x + b.toNat) 0

@[simp] theorem length_be (n x : ℕ) : (be n x).length = n := by
  induction n with
  | zero => rfl
  | succ n ih => rw [be, length_cons, ih]

/-- Reading goes on from what was read before. -/
theorem foldl_be (n x y : ℕ) :
    (be n x).foldl (fun x b => 256 * x + b.toNat) y = 256 ^ n * y + x % 256 ^ n := by
  induction n generalizing y with
  | zero => rw [be, foldl_nil, pow_zero, Nat.one_mul, Nat.mod_one, Nat.add_zero]
  | succ n ih =>
    have hpow : 256 ^ (n + 1) = 256 ^ n * 256 := pow_succ 256 n
    have hdigit : (UInt8.ofNat (x / 256 ^ n)).toNat = x / 256 ^ n % 256 := UInt8.toNat_ofNat'
    rw [be, foldl_cons, ih, hdigit, hpow, Nat.mod_mul, Nat.mul_add, Nat.mul_assoc, Nat.add_assoc,
      Nat.add_comm (256 ^ n * (x / 256 ^ n % 256))]

theorem ofBE_be (h : x < 256 ^ n) : ofBE (be n x) = x := by
  rw [ofBE, foldl_be, Nat.mul_zero, Nat.zero_add, Nat.mod_eq_of_lt h]

/-! ## Writing -/

namespace Put

def u8 (v : UInt8) : Bytes := le 1 v.toNat

def u16 (v : UInt16) : Bytes := le 2 v.toNat

def u32 (v : UInt32) : Bytes := le 4 v.toNat

def u64 (v : UInt64) : Bytes := le 8 v.toNat

def i64 (v : Int64) : Bytes := u64 v.toUInt64

def bool (v : Bool) : Bytes := u8 (if v then 1 else 0)

/-- The length is cut to 32 bits. -/
def str (s : Bytes) : Bytes := u32 (UInt32.ofNat s.length) ++ s

/-- The elements of a list, without their number. -/
def each {α : Type} (f : α → Bytes) (as : List α) : Bytes := as.flatMap f

end Put

@[simp] theorem length_u8 (v : UInt8) : (Put.u8 v).length = 1 := length_le 1 _

@[simp] theorem length_u16 (v : UInt16) : (Put.u16 v).length = 2 := length_le 2 _

@[simp] theorem length_u32 (v : UInt32) : (Put.u32 v).length = 4 := length_le 4 _

@[simp] theorem length_u64 (v : UInt64) : (Put.u64 v).length = 8 := length_le 8 _

@[simp] theorem length_i64 (v : Int64) : (Put.i64 v).length = 8 := length_le 8 _

@[simp] theorem length_bool (v : Bool) : (Put.bool v).length = 1 := length_le 1 _

@[simp] theorem length_str (s : Bytes) : (Put.str s).length = 4 + s.length := by
  rw [Put.str, length_append, length_u32]

theorem length_each {α : Type} (f : α → Bytes) (as : List α) (h : ∀ a ∈ as, n ≤ (f a).length) :
    as.length * n ≤ (Put.each f as).length := by
  induction as with
  | nil => simp [Put.each]
  | cons a as ih =>
    have hhead := h a mem_cons_self
    have htail := ih fun b hb => h b (mem_cons_of_mem a hb)
    rw [Put.each, flatMap_cons, length_append, length_cons, Nat.succ_mul]
    rw [Put.each] at htail
    omega

/-! ## The cursor -/

structure Reader where
  input : Bytes
  pos : ℕ
  ok : Bool
  inside : pos ≤ input.length

namespace Reader

/-- A cursor at the start. -/
def start (input : Bytes) : Reader := ⟨input, 0, true, Nat.zero_le _⟩

variable (r : Reader)

def rest : Bytes := r.input.drop r.pos

def remaining : ℕ := r.input.length - r.pos

def advance (n : ℕ) (h : r.pos + n ≤ r.input.length) : Reader :=
  { r with pos := r.pos + n, inside := h }

def failed : Reader := { r with ok := false }

theorem rest_start (input : Bytes) : (start input).rest = input := drop_zero

theorem length_rest : r.rest.length = r.remaining := length_drop

theorem rest_advance (n : ℕ) (h : r.pos + n ≤ r.input.length) :
    (r.advance n h).rest = r.rest.drop n := by
  rw [rest, rest, advance, drop_drop]

end Reader

/-- The cursor has failed, or the program was left with an error. -/
def Fails {ε α : Type} (x : Except ε (α × Reader)) : Prop := ∀ a r, x = .ok (a, r) → r.ok = false

/-- A program for a cursor, which does not bring a failed cursor back. -/
structure Get (ε α : Type) where
  run : Reader → Except ε (α × Reader)
  sticky : ∀ r, r.ok = false → Fails (run r)

namespace Get

variable {ε α β : Type}

def bindRun (x : Except ε (α × Reader)) (k : α → Get ε β) : Except ε (β × Reader) :=
  match x with
  | .error e => .error e
  | .ok (a, r) => (k a).run r

theorem fails_bindRun {x : Except ε (α × Reader)} (h : Fails x) (k : α → Get ε β) :
    Fails (bindRun x k) := by
  cases x with
  | error e => exact fun a r h => absurd h (by simp [bindRun])
  | ok v => exact (k v.1).sticky v.2 (h v.1 v.2 rfl)

instance : Monad (Get ε) where
  pure a := ⟨fun r => .ok (a, r), fun r h b s hs => by
    obtain ⟨-, rfl⟩ := Prod.mk.inj (Except.ok.inj hs)
    exact h⟩
  bind m k := ⟨fun r => bindRun (m.run r) k, fun r h => fails_bindRun (m.sticky r h) k⟩

/-- Leave with an error. -/
def fail (e : ε) : Get ε α := ⟨fun _ => .error e, nofun⟩

/-- The next `n` bytes, or nothing and a cursor that has failed. -/
def take (n : ℕ) : Get ε Bytes where
  run r :=
    if h : r.ok = true ∧ r.pos + n ≤ r.input.length then .ok (r.rest.take n, r.advance n h.2)
    else .ok ([], r.failed)
  sticky r h a s hs := by
    rw [dif_neg (fun hok => by rw [h] at hok; exact absurd hok.1 (by decide))] at hs
    obtain ⟨-, rfl⟩ := Prod.mk.inj (Except.ok.inj hs)
    rfl

/-- What is asked of a cursor without moving it. -/
def ask (f : Reader → α) : Get ε α where
  run r := .ok (f r, r)
  sticky r h a s hs := by
    obtain ⟨-, rfl⟩ := Prod.mk.inj (Except.ok.inj hs)
    exact h

/-- Fail the cursor. -/
def spoil : Get ε Unit where
  run r := .ok ((), r.failed)
  sticky r _ a s hs := by
    obtain ⟨-, rfl⟩ := Prod.mk.inj (Except.ok.inj hs)
    rfl

def ok : Get ε Bool := ask Reader.ok

def remaining : Get ε ℕ := ask Reader.remaining

def u8 : Get ε UInt8 := do return UInt8.ofNat (ofLE (← take 1))

def u16 : Get ε UInt16 := do return UInt16.ofNat (ofLE (← take 2))

def u32 : Get ε UInt32 := do return UInt32.ofNat (ofLE (← take 4))

def u64 : Get ε UInt64 := do return UInt64.ofNat (ofLE (← take 8))

def i64 : Get ε Int64 := do return (← u64).toInt64

def bool : Get ε Bool := do return (← u8) != 0

def str : Get ε Bytes := do
  let n ← u32
  take n.toNat

/-- Read `n` times, as long as the cursor has not failed. -/
def many (item : Get ε α) : ℕ → Get ε (List α)
  | 0 => pure []
  | n + 1 => do
      if ← ok then
        let a ← item
        let as ← many item n
        return a :: as
      else
        return []

/-- Leave with an error where the cursor has failed or too little remains. -/
def guarded (short : ℕ → Bool) (e : ε) (m : Get ε α) : Get ε α := do
  if !(← ok) || short (← remaining) then fail e else m

end Get

/-! ## What a program reads -/

/-- The program reads `a` from the bytes `w`, and fails on every proper prefix of them. -/
structure Reads {ε α : Type} (m : Get ε α) (w : Bytes) (a : α) : Prop where
  full : ∀ (r : Reader) (t : Bytes), r.ok = true → r.rest = w ++ t →
    ∃ s, m.run r = .ok (a, s) ∧ s.ok = true ∧ s.rest = t
  cut : ∀ r : Reader, r.ok = true → r.rest <+: w → r.rest ≠ w → Fails (m.run r)

namespace Reads

variable {ε α β : Type} {m : Get ε α} {k : α → Get ε β} {v w : Bytes} {a : α} {b : β}

theorem pure (a : α) : Reads (Pure.pure a : Get ε α) [] a where
  full r _ hok hrest := ⟨r, rfl, hok, hrest⟩
  cut _ _ hpre hne := absurd (prefix_nil.mp hpre) hne

theorem bind (hm : Reads m v a) (hk : Reads (k a) w b) : Reads (m >>= k) (v ++ w) b where
  full r t hok hrest := by
    rw [append_assoc] at hrest
    obtain ⟨s, hs, hsok, hsrest⟩ := hm.full r (w ++ t) hok hrest
    obtain ⟨s', hs', hok', hrest'⟩ := hk.full s t hsok hsrest
    refine ⟨s', ?_, hok', hrest'⟩
    show Get.bindRun (m.run r) k = _
    rw [hs]
    exact hs'
  cut r hok hpre hne := by
    show Fails (Get.bindRun (m.run r) k)
    by_cases hshort : r.rest <+: v ∧ r.rest ≠ v
    · exact Get.fails_bindRun (hm.cut r hok hshort.1 hshort.2) k
    · -- all that `m` reads is there, and what follows is short
      obtain ⟨t, ht⟩ : ∃ t, r.rest = v ++ t := by
        rcases prefix_or_prefix_of_prefix hpre (prefix_append v w) with hv | ⟨t, hv⟩
        · have he : r.rest = v := by
            by_contra he
            exact hshort ⟨hv, he⟩
          exact ⟨[], by rw [he, append_nil]⟩
        · exact ⟨t, hv.symm⟩
      obtain ⟨s, hs, hsok, hsrest⟩ := hm.full r t hok ht
      rw [hs]
      refine hk.cut s hsok ?_ ?_
      · rw [ht] at hpre
        rw [hsrest]
        exact (prefix_append_right_inj v).mp hpre
      · rw [hsrest]
        rintro rfl
        exact hne ht

/-- A value computed from what is read. -/
theorem map (hm : Reads m w a) (f : α → β) : Reads (m >>= fun a => Pure.pure (f a)) w (f a) := by
  rw [← append_nil w]
  exact hm.bind (.pure (f a))

theorem take (w : Bytes) : Reads (Get.take w.length : Get ε Bytes) w w where
  full r t hok hrest := by
    have hlen := congrArg List.length hrest
    rw [Reader.length_rest, Reader.remaining, length_append] at hlen
    have hin : r.pos + w.length ≤ r.input.length := by
      have := r.inside
      omega
    refine ⟨r.advance w.length hin, ?_, hok, ?_⟩
    · rw [Get.take]
      show (if h : r.ok = true ∧ r.pos + w.length ≤ r.input.length then _ else _) = _
      rw [dif_pos ⟨hok, hin⟩, hrest, take_left]
    · rw [Reader.rest_advance, hrest, drop_left]
  cut r hok hpre hne a s hs := by
    have hlen := hpre.length_le
    have hshort : ¬ (r.ok = true ∧ r.pos + w.length ≤ r.input.length) := by
      rintro ⟨-, hin⟩
      refine hne (hpre.eq_of_length_le ?_)
      rw [Reader.length_rest, Reader.remaining]
      omega
    rw [Get.take] at hs
    change (if h : r.ok = true ∧ r.pos + w.length ≤ r.input.length then _ else _) = _ at hs
    rw [dif_neg hshort] at hs
    obtain ⟨-, rfl⟩ := Prod.mk.inj (Except.ok.inj hs)
    rfl

/-- A number of fixed width. -/
theorem number (h : x < 256 ^ n) (f : ℕ → α) :
    Reads (Get.take n >>= fun w => Pure.pure (f (ofLE w)) : Get ε α) (le n x) (f x) := by
  have hread : Reads (.take (le n x).length : Get ε Bytes) (le n x) (le n x) := take _
  rw [length_le] at hread
  have hmap := hread.map fun w => f (ofLE w)
  rwa [ofLE_le h] at hmap

/-- A number whose most significant byte comes first. -/
theorem bigNumber (h : x < 256 ^ n) (f : ℕ → α) :
    Reads (Get.take n >>= fun w => Pure.pure (f (ofBE w)) : Get ε α) (be n x) (f x) := by
  have hread : Reads (.take (be n x).length : Get ε Bytes) (be n x) (be n x) := take _
  rw [length_be] at hread
  have hmap := hread.map fun w => f (ofBE w)
  rwa [ofBE_be h] at hmap

/-- A program that asks whether the cursor has failed, which it has not. -/
theorem ok {k : Bool → Get ε β} (h : Reads (k true) w b) : Reads (Get.ok >>= k) w b := by
  constructor
  · intro r t hok hrest
    show ∃ s, (k r.ok).run r = _ ∧ _
    rw [hok]
    exact h.full r t hok hrest
  · intro r hok
    show _ → _ → Fails ((k r.ok).run r)
    rw [hok]
    exact h.cut r hok

/-! ### Fields

Each rule takes the program after the field. -/

theorem u8 {v : UInt8} {k : UInt8 → Get ε β} (h : Reads (k v) w b) :
    Reads (Get.u8 >>= k) (Put.u8 v ++ w) b := by
  refine bind ?_ h
  have hread : Reads (.u8 : Get ε UInt8) (le 1 v.toNat) (UInt8.ofNat v.toNat) :=
    number v.toNat_lt UInt8.ofNat
  rwa [UInt8.ofNat_toNat] at hread

theorem u16 {v : UInt16} {k : UInt16 → Get ε β} (h : Reads (k v) w b) :
    Reads (Get.u16 >>= k) (Put.u16 v ++ w) b := by
  refine bind ?_ h
  have hread : Reads (.u16 : Get ε UInt16) (le 2 v.toNat) (UInt16.ofNat v.toNat) :=
    number v.toNat_lt UInt16.ofNat
  rwa [UInt16.ofNat_toNat] at hread

theorem u32 {v : UInt32} {k : UInt32 → Get ε β} (h : Reads (k v) w b) :
    Reads (Get.u32 >>= k) (Put.u32 v ++ w) b := by
  refine bind ?_ h
  have hread : Reads (.u32 : Get ε UInt32) (le 4 v.toNat) (UInt32.ofNat v.toNat) :=
    number v.toNat_lt UInt32.ofNat
  rwa [UInt32.ofNat_toNat] at hread

theorem of_u64 (v : UInt64) : Reads (Get.u64 : Get ε UInt64) (Put.u64 v) v := by
  have hread : Reads (.u64 : Get ε UInt64) (le 8 v.toNat) (UInt64.ofNat v.toNat) :=
    number v.toNat_lt UInt64.ofNat
  rwa [UInt64.ofNat_toNat] at hread

theorem u64 {v : UInt64} {k : UInt64 → Get ε β} (h : Reads (k v) w b) :
    Reads (Get.u64 >>= k) (Put.u64 v ++ w) b :=
  bind (of_u64 v) h

theorem i64 {v : Int64} {k : Int64 → Get ε β} (h : Reads (k v) w b) :
    Reads (Get.i64 >>= k) (Put.i64 v ++ w) b := by
  refine bind ?_ h
  have hread : Reads (Get.i64 : Get ε Int64) (Put.u64 v.toUInt64) v.toUInt64.toInt64 :=
    (of_u64 _).map UInt64.toInt64
  rwa [Int64.toInt64_toUInt64] at hread

theorem bool {v : Bool} {k : Bool → Get ε β} (h : Reads (k v) w b) :
    Reads (Get.bool >>= k) (Put.bool v ++ w) b := by
  refine bind ?_ h
  have hread : Reads (Get.bool : Get ε Bool) (Put.u8 (if v then 1 else 0) ++ [])
    ((if v then 1 else 0 : UInt8) != 0) :=
    u8 (.pure _)
  rw [append_nil] at hread
  cases v with
  | true | false => exact hread

theorem str {s : Bytes} {k : Bytes → Get ε β} (hs : s.length < 2 ^ 32) (h : Reads (k s) w b) :
    Reads (Get.str >>= k) (Put.str s ++ w) b := by
  refine bind (u32 ?_) h
  rw [UInt32.toNat_ofNat_of_lt' hs]
  exact take s

/-- Bytes of a length both sides know. -/
theorem fixed {s : Bytes} {k : Bytes → Get ε β} (hs : s.length = n) (h : Reads (k s) w b) :
    Reads (Get.take n >>= k) (s ++ w) b := by
  refine bind ?_ h
  rw [← hs]
  exact take s

/-- As many elements as there are. -/
theorem many {item : Get ε α} {f : α → Bytes} :
    ∀ {as : List α}, (∀ a ∈ as, Reads item (f a) a) →
    Reads (Get.many item as.length) (Put.each f as) as
  | [], _ => Reads.pure []
  | a :: as, h => by
    have hhead : Reads item (f a) a := h a mem_cons_self
    have htail : Reads (Get.many item as.length) (Put.each f as) as :=
      many fun c hc => h c (mem_cons_of_mem a hc)
    have hboth : Reads (item >>= fun a => Get.many item as.length >>= fun as => Pure.pure (a :: as))
        (f a ++ Put.each f as) (a :: as) := hhead.bind (htail.map _)
    -- the cursor is asked first, and has not failed
    constructor
    · intro r t hok hrest
      obtain ⟨s, hs, hrest⟩ := hboth.full r t hok hrest
      refine ⟨s, ?_, hrest⟩
      show (if r.ok = true then _ else _ : Get ε (List α)).run r = _
      rw [if_pos hok]
      exact hs
    · intro r hok hpre hne
      show Fails ((if r.ok = true then _ else _ : Get ε (List α)).run r)
      rw [if_pos hok]
      exact hboth.cut r hok hpre hne

/-- A check that passes on all there is to read. -/
theorem guarded {short : ℕ → Bool} {e : ε} (h : Reads m w a)
    (hshort : ∀ n, w.length ≤ n → short n = false) : Reads (Get.guarded short e m) w a := by
  constructor
  · intro r t hok hrest
    obtain ⟨s, hs, hrest'⟩ := h.full r t hok hrest
    refine ⟨s, ?_, hrest'⟩
    have hlen : w.length ≤ r.remaining := by
      rw [← Reader.length_rest, hrest, length_append]
      omega
    show (if (!r.ok || short r.remaining) = true then _ else _ : Get ε α).run r = _
    rw [if_neg (by rw [hok, hshort _ hlen]; decide)]
    exact hs
  · intro r hok hpre hne
    show Fails ((if (!r.ok || short r.remaining) = true then _ else _ : Get ε α).run r)
    split_ifs
    · exact fun _ _ herr => absurd herr (by simp [Get.fail])
    · exact h.cut r hok hpre hne

end Reads

/-! ## A cursor that stops

A second kind of reader is left at the first field that is not there.  Its state is what remains. -/

abbrev Scan (ε α : Type) := StateT Bytes (Except ε) α

namespace Scan

variable {ε α β : Type}

/-- The next `n` bytes, or an error. -/
def take (e : ε) (n : ℕ) : Scan ε Bytes := fun rest =>
  if rest.length < n then .error e else .ok (rest.take n, rest.drop n)

def u8 (e : ε) : Scan ε UInt8 := do return UInt8.ofNat (ofLE (← take e 1))

def u32 (e : ε) : Scan ε UInt32 := do return UInt32.ofNat (ofLE (← take e 4))

def u64 (e : ε) : Scan ε UInt64 := do return UInt64.ofNat (ofLE (← take e 8))

def i64 (e : ε) : Scan ε Int64 := do return (← u64 e).toInt64

/-- Read `n` times. -/
def many (item : Scan ε α) : ℕ → Scan ε (List α)
  | 0 => pure []
  | n + 1 => do
      let a ← item
      let as ← many item n
      return a :: as

end Scan

/-- The program takes `w` off the front and returns `a`. -/
def Takes {ε α : Type} (m : Scan ε α) (w : Bytes) (a : α) : Prop := ∀ t, m (w ++ t) = .ok (a, t)

namespace Takes

variable {ε α β : Type} {e : ε} {m : Scan ε α} {k : α → Scan ε β} {v w : Bytes} {a : α} {b : β}

theorem pure (a : α) : Takes (Pure.pure a : Scan ε α) [] a := fun _ => rfl

theorem bind (hm : Takes m v a) (hk : Takes (k a) w b) : Takes (m >>= k) (v ++ w) b := by
  intro t
  rw [append_assoc]
  show (m (v ++ (w ++ t))).bind (fun p => k p.1 p.2) = _
  rw [hm (w ++ t)]
  exact hk t

theorem map (hm : Takes m w a) (f : α → β) : Takes (m >>= fun a => Pure.pure (f a)) w (f a) := by
  rw [← append_nil w]
  exact hm.bind (.pure (f a))

theorem take (w : Bytes) : Takes (Scan.take e w.length) w w := by
  intro t
  rw [Scan.take, if_neg (by rw [length_append]; omega), take_left, drop_left]

theorem number (h : x < 256 ^ n) (f : ℕ → α) :
    Takes (Scan.take e n >>= fun w => Pure.pure (f (ofLE w))) (le n x) (f x) := by
  have hread : Takes (.take e (le n x).length) (le n x) (le n x) := take _
  rw [length_le] at hread
  have hmap := hread.map fun w => f (ofLE w)
  rwa [ofLE_le h] at hmap

theorem u8 (v : UInt8) : Takes (Scan.u8 e) (Put.u8 v) v := by
  have hread : Takes (.u8 e) (le 1 v.toNat) (UInt8.ofNat v.toNat) := number v.toNat_lt UInt8.ofNat
  rwa [UInt8.ofNat_toNat] at hread

theorem u32 (v : UInt32) : Takes (Scan.u32 e) (Put.u32 v) v := by
  have hread : Takes (.u32 e) (le 4 v.toNat) (UInt32.ofNat v.toNat) :=
    number v.toNat_lt UInt32.ofNat
  rwa [UInt32.ofNat_toNat] at hread

theorem u64 (v : UInt64) : Takes (Scan.u64 e) (Put.u64 v) v := by
  have hread : Takes (.u64 e) (le 8 v.toNat) (UInt64.ofNat v.toNat) :=
    number v.toNat_lt UInt64.ofNat
  rwa [UInt64.ofNat_toNat] at hread

theorem i64 (v : Int64) : Takes (Scan.i64 e) (Put.i64 v) v := by
  have hread : Takes (Scan.i64 e) (Put.u64 v.toUInt64) v.toUInt64.toInt64 :=
    (u64 _).map UInt64.toInt64
  rwa [Int64.toInt64_toUInt64] at hread

theorem many {item : Scan ε α} {f : β → Bytes} {g : β → α} :
    ∀ {bs : List β}, (∀ b ∈ bs, Takes item (f b) (g b)) →
      Takes (Scan.many item bs.length) (Put.each f bs) (bs.map g)
  | [], _ => Takes.pure []
  | b :: bs, h => by
    have hhead : Takes item (f b) (g b) := h b mem_cons_self
    have htail : Takes (Scan.many item bs.length) (Put.each f bs) (bs.map g) :=
      many fun c hc => h c (mem_cons_of_mem b hc)
    exact hhead.bind (htail.map _)

end Takes

/-- The program comes to `x` on bytes that start with `w`, and need not take them all. -/
def Yields {ε α : Type} (m : Scan ε α) (w : Bytes) (x : Except ε α) : Prop :=
  ∀ t, (m (w ++ t)).map Prod.fst = x

namespace Yields

variable {ε α β : Type} {m : Scan ε α} {k : α → Scan ε β} {v w : Bytes} {a : α} {x : Except ε β}

theorem pure (a : α) (w : Bytes) : Yields (Pure.pure a : Scan ε α) w (.ok a) := fun _ => rfl

theorem throw (e : ε) (w : Bytes) : Yields (MonadExcept.throw e : Scan ε α) w (.error e) :=
  fun _ => rfl

theorem bind (hm : Takes m v a) (hk : Yields (k a) w x) : Yields (m >>= k) (v ++ w) x := by
  intro t
  rw [append_assoc]
  show ((m (v ++ (w ++ t))).bind fun p => k p.1 p.2).map Prod.fst = x
  rw [hm (w ++ t)]
  exact hk t

theorem run {x : Except ε α} (h : Yields m w x) : (m w).map Prod.fst = x := by
  have hw := h []
  rwa [append_nil] at hw

end Yields

end Wire
