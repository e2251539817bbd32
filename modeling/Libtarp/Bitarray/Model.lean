import Libtarp.Bits
import Libtarp.Lib.PackedBits

/-!
# Bit arrays (`bitarray.h`, `bitarray.c`)

The bits are packed in a buffer of bytes and counted from 1. A call of the C code that goes past the end of the
buffer is stopped here with `MemFault.outside`.

* `Bitarray`: the buffer is as large as the allocation makes it for the width.
* `bitrGet`, `bitrSetval`: one bit. `bitrRepeat`, `bitrJoin`: new arrays, by bytes or by bits. `bitrEqual`.
* `bitrNew`, `bitrSlice`, `bitrFrombuff`: arrays of a value, of bits of an array, and of bytes.
* `bitrGet_eq`, `bitrSetval_bit`, `memcpy_bit`, `copyBits_bit`: what they do to the bits.
* `eq_of_bits`: an array is its width and its bits.
-/

namespace Libtarp.Bitr

open Lib Bits

/-- What stops a call. -/
inductive MemFault
  | assertion
  | outside
  | nullPointer
  | endless
  deriving DecidableEq, Repr

/-- `-(ERROR_OUTOFBOUNDS)`. -/
def outOfBounds : ℤ := -6

/-- `MAX_BITARRAY_WIDTH`, in bytes. -/
def bitrMaxcap : ℕ := (2 ^ 64 - 1) >>> 10

/-- `calculate_required_size__`, for the buffer. The number of bits is passed as a `uint32_t`. -/
def calculateRequiredSize (nbits : ℕ) : ℕ := nbits % 2 ^ 32 / 8 + if nbits % 2 ^ 32 % 8 ≠ 0 then 1 else 0

/-- `struct bitarray`. -/
structure Bitarray where
  width : ℕ
  buffer : Buffer (calculateRequiredSize width)
  width_pos : 0 < width
  width_lt : width < 2 ^ 64

namespace Bitarray

def bytes (a : Bitarray) : List UInt8 := a.buffer.bytes

def size (a : Bitarray) : ℕ := a.bytes.length

/-- The bit after the first `i` bits. -/
def bit? (a : Bitarray) (i : ℕ) : Option Bool := bitAt a.bytes i

end Bitarray

/-- An array with given bytes. -/
def ofBytes (width : ℕ) (bytes : List UInt8)
    (h : bytes.length = calculateRequiredSize width ∧ 0 < width ∧ width < 2 ^ 64) : Bitarray :=
  ⟨width, ⟨bytes, h.1⟩, h.2.1, h.2.2⟩

/-! ## The functions of the source -/

/-- `allocate_bitarray`; the memory is from `calloc`. -/
def allocateBitarray (nbits : ℕ) : Except MemFault (Option Bitarray) :=
  if h : nbits % 2 ^ 64 = 0 then .error .assertion
  else if bitrMaxcap < calculateRequiredSize (nbits % 2 ^ 64) then .ok none
  else .ok (some ⟨nbits % 2 ^ 64, Buffer.zeros _, Nat.pos_of_ne_zero h, Nat.mod_lt _ (Nat.two_pow_pos 64)⟩)

def inrange (width pos : ℕ) : Bool := 0 < pos ∧ pos ≤ width

/-- A byte of the array. -/
def byteAt (a : Bitarray) (i : ℕ) : Except MemFault UInt8 :=
  match a.bytes[i]? with
  | none => .error .outside
  | some byte => .ok byte

def bitrGet (a : Bitarray) (pos : ℕ) : Except MemFault ℤ :=
  if inrange a.width pos then do
    let byte ← byteAt a ((pos - 1) / 8)
    return getBit byte.toNat (((pos - 1) &&& 7) + 1)
  else return outOfBounds

/-- What `Bitr_setval`, `Bitr_clear` and `Bitr_toggle` share: a byte is read, changed at a bit, and written. -/
def changeBit (f : BitVec 8 → ℕ → BitVec 8) (a : Bitarray) (pos : ℕ) : Except MemFault (Bitarray × ℤ) :=
  if inrange a.width pos then do
    let byte ← byteAt a ((pos - 1) / 8)
    let byte := UInt8.ofBitVec (f byte.toBitVec (((pos - 1) &&& 7) + 1))
    return ({ a with buffer := a.buffer.write ((pos - 1) / 8) [byte] }, 0)
  else return (a, outOfBounds)

def bitrSetval (a : Bitarray) (pos : ℕ) (bitval : ℤ) : Except MemFault (Bitarray × ℤ) :=
  if bitval = 1 ∨ bitval = 0 then changeBit (fun byte bit => setBitval byte bit bitval) a pos
  else throw .assertion

def bitrSet (a : Bitarray) (pos : ℕ) : Except MemFault (Bitarray × ℤ) := bitrSetval a pos 1

def bitrClear (a : Bitarray) (pos : ℕ) : Except MemFault (Bitarray × ℤ) := changeBit clearBit a pos

def bitrToggle (a : Bitarray) (pos : ℕ) : Except MemFault (Bitarray × ℤ) := changeBit toggleBit a pos

/-- `memcpy(a->bytes + offset, src, …)`. -/
def memcpy (a : Bitarray) (offset : ℕ) (src : List UInt8) : Except MemFault Bitarray :=
  if offset + src.length ≤ a.size then return { a with buffer := a.buffer.write offset src }
  else throw .outside

/-- The loops that copy bit by bit: `Bitr_setval(a, dest + i, Bitr_get(src, start + i))` for `i` from 1 to `count`. -/
def copyBits (src : Bitarray) (start dest : ℕ) : ℕ → Bitarray → Except MemFault Bitarray
  | 0, a => return a
  | i + 1, a => do
    let a ← copyBits src start dest i a
    let bit ← bitrGet src (start + (i + 1))
    let (a, _) ← bitrSetval a ((dest + (i + 1)) % 2 ^ 64) bit
    return a

/-- The guard of the fast paths. -/
def wholeBytes (width : ℕ) : Bool := 8 ≤ width ∧ ismult2 width

/-- The rounds of the fast path of `Bitr_repeat`. -/
def repeatRounds (bitr : Bitarray) : ℕ → Bitarray → Except MemFault Bitarray
  | 0, a => return a
  | i + 1, a => do
    let a ← repeatRounds bitr i a
    memcpy a (bitr.size * i) bitr.bytes

/-- The fast path of `Bitr_repeat`. -/
def repeatBytes (bitr : Bitarray) (n : ℕ) (a : Bitarray) : Except MemFault Bitarray := do
  let a ← repeatRounds bitr (min n (2 ^ 32)) a
  -- `i` is an `unsigned int`: it wraps before it gets to a larger `n`
  if n < 2 ^ 32 then return a else throw .endless

/-- The slow path of `Bitr_repeat`. -/
def repeatBits (bitr : Bitarray) : ℕ → Bitarray → Except MemFault Bitarray
  | 0, a => return a
  | round + 1, a => do
    let a ← repeatBits bitr round a
    copyBits bitr 0 (bitr.width * round) bitr.width a

/-- `Bitr_repeat`, of `n > 0` rounds. -/
def bitrRepeat (bitr : Bitarray) (n : ℕ) : Except MemFault (Option Bitarray) :=
  if bitrMaxcap / n < bitr.size then return none
  else do
    match ← allocateBitarray (bitr.width * n) with
    | none => return none
    | some a => if wholeBytes bitr.width then some <$> repeatBytes bitr n a else some <$> repeatBits bitr n a

/-- The fast path of `Bitr_join`. -/
def joinBytes (a b new : Bitarray) : Except MemFault Bitarray := do
  let new ← memcpy new 0 b.bytes
  memcpy new b.size a.bytes

/-- The slow path of `Bitr_join`. -/
def joinBits (a b new : Bitarray) : Except MemFault Bitarray := do
  let new ← copyBits b 0 0 b.width new
  copyBits a 0 b.width a.width new

def bitrJoin (a b : Bitarray) : Except MemFault (Option Bitarray) :=
  if bitrMaxcap - a.size < b.size then return none
  else do
    match ← allocateBitarray (a.width + b.width) with
    -- the result is not compared with `NULL`
    | none => throw .nullPointer
    | some new =>
      if wholeBytes a.width && wholeBytes b.width then some <$> joinBytes a b new else some <$> joinBits a b new

/-- The loop of `Bitr_equal` over `rounds` bytes: whether it goes to the end. -/
def equalBytes (a b : Bitarray) : ℕ → ℕ → Except MemFault Bool
  | 0, _ => return true
  | rounds + 1, i => do
    let x ← byteAt a i
    let y ← byteAt b i
    if x ≠ y then return false else equalBytes a b rounds (i + 1)

def bitrEqual (a b : Bitarray) : Except MemFault Bool :=
  if a.width ≠ b.width then return false
  else if a.size ≠ b.size then throw .assertion
  else do
    let same ← equalBytes a b (bits2bytes a.width false) 0
    if !same then return false
    let aByte ← byteAt a (bits2bytes a.width false)
    let bByte ← byteAt b (bits2bytes a.width false)
    if 0 < a.width % 8 then
      return (List.range' 1 (a.width % 8)).all fun j => getBit aByte.toNat j == getBit bByte.toNat j
    return aByte == bByte

/-! ## Calls that return -/

theorem bind_ok_iff {α β : Type} {x : Except MemFault α} {f : α → Except MemFault β} {r : β} :
    x >>= f = .ok r ↔ ∃ y, x = .ok y ∧ f y = .ok r := by
  cases x with
  | error e =>
    refine ⟨fun h => ?_, ?_⟩
    · cases h
    · rintro ⟨_, h, -⟩
      cases h
  | ok y =>
    refine ⟨fun h => ⟨y, rfl, h⟩, ?_⟩
    rintro ⟨_, hy, h⟩
    rwa [← Except.ok.inj hy] at h

theorem ok_bind {α β : Type} (y : α) (f : α → Except MemFault β) : (Except.ok y >>= f) = f y := rfl

theorem map_some_iff {α : Type} {x : Except MemFault α} {r : α} : some <$> x = .ok (some r) ↔ x = .ok r := by
  cases x with
  | error e => constructor <;> intro h <;> cases h
  | ok y =>
    constructor <;> intro h
    · exact congrArg Except.ok (Option.some.inj (Except.ok.inj h))
    · rw [Except.ok.inj h]
      rfl

/-! ## Sizes -/

theorem size_eq (a : Bitarray) : a.size = calculateRequiredSize a.width := a.buffer.size

theorem calculateRequiredSize_eq (nbits : ℕ) : calculateRequiredSize nbits = (nbits % 2 ^ 32 + 7) / 8 := by
  unfold calculateRequiredSize
  split_ifs <;> omega

theorem calculateRequiredSize_of_lt {nbits : ℕ} (h : nbits < 2 ^ 32) : calculateRequiredSize nbits = (nbits + 7) / 8 := by
  rw [calculateRequiredSize_eq, Nat.mod_eq_of_lt h]

/-- The limit is never reached. -/
theorem calculateRequiredSize_le (nbits : ℕ) : calculateRequiredSize nbits ≤ 2 ^ 29 := by
  rw [calculateRequiredSize_eq]
  omega

theorem bitrMaxcap_eq : bitrMaxcap = 2 ^ 54 - 1 := by decide +kernel

theorem allocateBitarray_eq {nbits : ℕ} (h0 : 0 < nbits) (h : nbits < 2 ^ 64) :
    ∃ a, allocateBitarray nbits = .ok (some a) ∧ a.width = nbits ∧ ∀ i < 8 * a.size, a.bit? i = some false := by
  have hcap := calculateRequiredSize_le (nbits % 2 ^ 64)
  have hmod := Nat.mod_eq_of_lt h
  unfold allocateBitarray
  rw [dif_neg (by omega), if_neg (by rw [bitrMaxcap_eq]; omega)]
  refine ⟨_, rfl, hmod, fun i hi => bitAt_zeros ?_⟩
  rwa [size_eq] at hi

/-- **A buffer too small is found at the last bit.** -/
theorem width_lt_of_bits {a : Bitarray} (h : ∀ i < a.width, ∃ v, a.bit? i = some v) : a.width < 2 ^ 32 := by
  have hpos := a.width_pos
  obtain ⟨v, hv⟩ := h (a.width - 1) (by omega)
  have hlt : a.width - 1 < 8 * a.size := lt_of_bitAt hv
  rw [size_eq, calculateRequiredSize_eq] at hlt
  omega

theorem exists_bit {a : Bitarray} (h : a.width < 2 ^ 32) {i : ℕ} (hi : i < a.width) : ∃ v, a.bit? i = some v := by
  have hsize := size_eq a
  rw [calculateRequiredSize_of_lt h] at hsize
  exact exists_bitAt (by change i < 8 * a.size; omega)

/-! ## One bit -/

theorem and_seven (k : ℕ) : k &&& 7 = k % 8 := Nat.and_two_pow_sub_one_eq_mod k 3

theorem inrange_succ {width i : ℕ} : inrange width (i + 1) = true ↔ i < width := by
  unfold inrange
  rw [decide_eq_true_iff]
  omega

theorem bitrGet_eq {a : Bitarray} {i : ℕ} (hi : i < a.width) :
    bitrGet a (i + 1) = (a.bit? i).elim (.error .outside) fun v => .ok (v.toNat : ℤ) := by
  unfold bitrGet byteAt Bitarray.bit? bitAt
  rw [if_pos (inrange_succ.2 hi), Nat.add_sub_cancel, and_seven]
  cases a.bytes[i / 8]? with
  | none => rfl
  | some byte =>
    change Except.ok ((getBit byte.toNat (i % 8 + 1) : ℕ) : ℤ) = _
    rw [← UInt8.toNat_toBitVec, getBit_toNat]
    rfl

/-- Two bits are read, and are the same. -/
theorem bitrGet_same_iff {a b : Bitarray} {i j : ℕ} (hi : i < a.width) (hj : j < b.width) :
    (∃ v, bitrGet a (i + 1) = .ok v ∧ bitrGet b (j + 1) = .ok v) ↔ ∃ v, a.bit? i = some v ∧ b.bit? j = some v := by
  rw [bitrGet_eq hi, bitrGet_eq hj]
  constructor
  · rintro ⟨v, ha, hb⟩
    cases hx : a.bit? i with
    | none => rw [hx] at ha; cases ha
    | some x =>
    cases hy : b.bit? j with
    | none => rw [hy] at hb; cases hb
    | some y =>
    rw [hx] at ha
    rw [hy] at hb
    have hxy : (x.toNat : ℤ) = y.toNat := (Except.ok.inj ha).trans (Except.ok.inj hb).symm
    have hv : x = y := by
      revert hxy
      cases x <;> cases y <;> decide
    exact ⟨x, rfl, congrArg some hv.symm⟩
  · rintro ⟨v, ha, hb⟩
    rw [ha, hb]
    exact ⟨_, rfl, rfl⟩

/-- Bits were written from one on up to another, and nowhere else. -/
structure Wrote (a r : Bitarray) (start stop : ℕ) (bit : ℕ → Option Bool) : Prop where
  width : r.width = a.width
  bits : ∀ i, r.bit? i = if start ≤ i ∧ i < stop then bit i else a.bit? i

namespace Wrote

variable {a b r : Bitarray} {start mid stop : ℕ} {bit bit' : ℕ → Option Bool}

theorem size (h : Wrote a r start stop bit) : r.size = a.size := by
  rw [size_eq, size_eq, h.width]

theorem nil (a : Bitarray) : Wrote a a start start bit := by
  refine ⟨rfl, fun i => ?_⟩
  rw [if_neg (by omega)]

theorem trans (h : Wrote a b start mid bit) (h' : Wrote b r mid stop bit) (hle : start ≤ mid) (hle' : mid ≤ stop) :
    Wrote a r start stop bit := by
  refine ⟨h'.width.trans h.width, fun i => ?_⟩
  rw [h'.bits, h.bits]
  split_ifs <;> first | rfl | omega

/-- The upper part was written first. -/
theorem trans_down (h : Wrote a b mid stop bit) (h' : Wrote b r start mid bit) (hle : start ≤ mid) (hle' : mid ≤ stop) :
    Wrote a r start stop bit := by
  refine ⟨h'.width.trans h.width, fun i => ?_⟩
  rw [h'.bits, h.bits]
  split_ifs <;> first | rfl | omega

theorem congr (h : Wrote a r start stop bit) (heq : ∀ i, start ≤ i → i < stop → bit i = bit' i) :
    Wrote a r start stop bit' := by
  refine ⟨h.width, fun i => ?_⟩
  rw [h.bits]
  split_ifs with hi
  · exact heq i hi.1 hi.2
  · rfl

end Wrote

/-- A bit is changed by a function of it. -/
theorem changeBit_bit {f : BitVec 8 → ℕ → BitVec 8} {g : Bool → Bool} {a : Bitarray} {i : ℕ}
    (hf : ∀ byte pos, ∀ j < 8, (f byte pos).getLsbD j = if j = pos - 1 then g (byte.getLsbD j) else byte.getLsbD j)
    (hi : i < a.width) (hsize : i < 8 * a.size) :
    ∃ r, changeBit f a (i + 1) = .ok (r, 0) ∧ Wrote a r i (i + 1) fun k => (a.bit? k).map g := by
  have hbyte : i / 8 < a.bytes.length := by
    change i < 8 * a.bytes.length at hsize
    omega
  unfold changeBit byteAt
  rw [if_pos (inrange_succ.2 hi), Nat.add_sub_cancel, and_seven, List.getElem?_eq_getElem hbyte]
  refine ⟨_, rfl, rfl, fun j => ?_⟩
  have hwrite : i / 8 + [UInt8.ofBitVec (f (a.bytes[i / 8]).toBitVec (i % 8 + 1))].length ≤
      calculateRequiredSize a.width := by
    rw [← size_eq]
    exact hbyte
  refine (Buffer.bitAt_write a.buffer hwrite).trans ?_
  rw [List.length_singleton]
  by_cases hj : 8 * (i / 8) ≤ j ∧ j < 8 * (i / 8 + 1)
  · have hdiv : j / 8 = i / 8 := by omega
    have hmod : (j - 8 * (i / 8)) % 8 = j % 8 := by omega
    have hzero : (j - 8 * (i / 8)) / 8 = 0 := by omega
    have hold : a.bit? j = some ((a.bytes[i / 8]).toBitVec.getLsbD (j % 8)) := by
      unfold Bitarray.bit? bitAt
      rw [hdiv, List.getElem?_eq_getElem hbyte, Option.map_some]
    have hnew : bitAt [UInt8.ofBitVec (f (a.bytes[i / 8]).toBitVec (i % 8 + 1))] (j - 8 * (i / 8)) =
        some ((f (a.bytes[i / 8]).toBitVec (i % 8 + 1)).getLsbD (j % 8)) := by
      unfold bitAt
      rw [hzero, hmod, List.getElem?_cons_zero, Option.map_some, UInt8.toBitVec_ofBitVec]
    rw [if_pos hj, hnew, hf _ _ _ (Nat.mod_lt j (by decide)), hold, Nat.add_sub_cancel]
    by_cases heq : j = i
    · rw [if_pos (by rw [heq]), if_pos (by omega), Option.map_some]
    · rw [if_neg (by omega), if_neg (by omega)]
  · rw [if_neg hj, if_neg (by omega)]
    rfl

theorem bitrSetval_bit {a : Bitarray} {i : ℕ} (hi : i < a.width) (hsize : i < 8 * a.size) (v : Bool) :
    ∃ r, bitrSetval a (i + 1) v.toNat = .ok (r, 0) ∧ Wrote a r i (i + 1) fun _ => some v := by
  have hv : (v.toNat : ℤ) = 1 ∨ (v.toNat : ℤ) = 0 := by cases v <;> decide
  obtain ⟨r, hset, hwrote⟩ := changeBit_bit (g := fun _ => v) (fun byte _ _ hj => getLsbD_setBitval byte hj v) hi hsize
  obtain ⟨old, hold⟩ : ∃ old, a.bit? i = some old := exists_bitAt hsize
  unfold bitrSetval
  rw [if_pos hv]
  refine ⟨r, hset, hwrote.congr fun k h1 h2 => ?_⟩
  obtain rfl : k = i := by omega
  rw [hold, Option.map_some]

/-! ## Ranges -/

theorem memcpy_bit {a r : Bitarray} {offset : ℕ} {src : List UInt8} (h : memcpy a offset src = .ok r) :
    Wrote a r (8 * offset) (8 * (offset + src.length)) fun i => bitAt src (i - 8 * offset) := by
  unfold memcpy at h
  split_ifs at h with hle
  · obtain rfl := Except.ok.inj h
    refine ⟨rfl, fun i => Buffer.bitAt_write a.buffer ?_⟩
    rwa [← size_eq]

/-- `memcpy` goes through where there is room. -/
theorem memcpy_iff {a : Bitarray} {offset : ℕ} {src : List UInt8} :
    (∃ r, memcpy a offset src = .ok r) ↔ offset + src.length ≤ a.size := by
  unfold memcpy
  constructor
  · rintro ⟨r, h⟩
    split_ifs at h with hle
    exact hle
  · intro h
    exact ⟨_, if_pos h⟩

theorem copyBits_bit {src a : Bitarray} {start dest count : ℕ} (hsrc : start + count ≤ src.width)
    (hbits : src.width < 2 ^ 32) (hdest : dest + count ≤ a.width) (hwidth : a.width < 2 ^ 32) :
    ∃ r, copyBits src start dest count a = .ok r ∧
      Wrote a r dest (dest + count) fun i => src.bit? (start + (i - dest)) := by
  induction count with
  | zero => exact ⟨a, rfl, Wrote.nil a⟩
  | succ count ih =>
    obtain ⟨b, hcopy, hwrote⟩ := ih (by omega) (by omega)
    obtain ⟨v, hv⟩ := exists_bit hbits (show start + count < src.width by omega)
    have hget : bitrGet src (start + (count + 1)) = .ok (v.toNat : ℤ) := by
      rw [← Nat.add_assoc, bitrGet_eq (by omega), hv, Option.elim_some]
    have hin : dest + count < b.width := by
      rw [hwrote.width]
      omega
    have hroom : dest + count < 8 * b.size := by
      rw [hwrote.size, size_eq, calculateRequiredSize_of_lt hwidth]
      omega
    obtain ⟨r, hset, hlast⟩ := bitrSetval_bit hin hroom v
    have hpos : (dest + (count + 1)) % 2 ^ 64 = dest + count + 1 := Nat.mod_eq_of_lt (by omega)
    refine ⟨r, ?_, hwrote.trans (hlast.congr fun i h1 h2 => ?_) (by omega) (by omega)⟩
    · simp only [copyBits, hcopy, hget, hpos, hset, bind, Except.bind, pure, Except.pure]
    · have hi : start + (i - dest) = start + count := by omega
      rw [hi, hv]

/-! ## New arrays -/

/-- `fill_bitarray__`. -/
def fillBitarray (bitr : Bitarray) (byte : UInt8) : Bitarray :=
  { bitr with buffer := bitr.buffer.write 0 (List.replicate bitr.size byte) }

def bitrNew (nbits : ℕ) (one : Bool) : Except MemFault (Option Bitarray) := do
  match ← allocateBitarray nbits with
  | none => return none
  | some new => return some (fillBitarray new (if one then 0xFF else 0x00))

def bitrSlice (bitr : Bitarray) (start stop : ℕ) : Except MemFault Bitarray :=
  let start := if start = 0 then 1 else start
  let stop := if stop = 0 then (bitr.width + 1) % 2 ^ 64 else stop
  if stop ≤ start then throw .assertion
  else if (bitr.width + 1) % 2 ^ 64 < stop then throw .assertion
  else do
    match ← bitrNew (stop - start) false with
    -- `Bitr_setval` asserts that there is an array
    | none => throw .assertion
    | some new => copyBits bitr (start - 1) 0 (stop - start) new

def bytes2bits (nbytes : ℕ) : ℕ := nbytes * 8 % 2 ^ 64

/-- `Bitr_frombuff`, of a buffer of `buffsz` bytes. -/
def bitrFrombuff (bitr : Option Bitarray) (buffer : List UInt8) : Except MemFault (Option Bitarray) :=
  match bitr with
  | some bitr => if bits2bytes bitr.width false < buffer.length then return none else some <$> memcpy bitr 0 buffer
  | none =>
    if bitrMaxcap < buffer.length then return none
    else do
      match ← allocateBitarray (bytes2bits buffer.length) with
      | none => return none
      | some new => some <$> memcpy new 0 buffer

/-! ## Arrays by their bits -/

variable {a b bitr : Bitarray}

theorem eq_of_bits (hwidth : a.width = b.width) (hbits : ∀ i, a.bit? i = b.bit? i) : a = b := by
  obtain ⟨width, buffer, hpos, hlt⟩ := a
  obtain ⟨width', buffer', hpos', hlt'⟩ := b
  change width = width' at hwidth
  subst hwidth
  obtain rfl : buffer = buffer' := Buffer.ext (eq_of_bitAt hbits)
  rfl

/-- Nothing is left of the bits there were. -/
theorem Wrote.eq_of_cover {r r' : Bitarray} {bit : ℕ → Option Bool} {stop : ℕ} (h : Wrote a r 0 stop bit)
    (h' : Wrote a r' 0 stop bit) : r = r' := by
  refine eq_of_bits (h.width.trans h'.width.symm) fun i => ?_
  rw [h.bits, h'.bits]

theorem fillBitarray_width (byte : UInt8) : (fillBitarray bitr byte).width = bitr.width := rfl

theorem bitrNew_eq {nbits : ℕ} (one : Bool) (h0 : 0 < nbits) (h : nbits < 2 ^ 64) :
    ∃ new, bitrNew nbits one = .ok (some new) ∧ new.width = nbits := by
  obtain ⟨new, hnew, hwidth, -⟩ := allocateBitarray_eq h0 h
  unfold bitrNew
  rw [hnew]
  exact ⟨_, rfl, hwidth⟩

/-- A slice has the bits it is of. -/
theorem bitrSlice_bit {start count : ℕ} (hcount : 0 < count) (hin : start + count ≤ bitr.width)
    (hwidth : bitr.width < 2 ^ 32) :
    ∃ new, bitrSlice bitr (start + 1) (start + count + 1) = .ok new ∧ new.width = count ∧
      ∀ i < count, new.bit? i = bitr.bit? (start + i) := by
  have hwrap : (bitr.width + 1) % 2 ^ 64 = bitr.width + 1 := Nat.mod_eq_of_lt (by omega)
  have hlen : start + count + 1 - (start + 1) = count := by omega
  obtain ⟨new, hnew, hnew_width⟩ := bitrNew_eq false hcount (by omega)
  obtain ⟨r, hr, hwrote⟩ := copyBits_bit hin hwidth (show 0 + count ≤ new.width by omega) (by omega)
  unfold bitrSlice
  simp only [if_neg (Nat.succ_ne_zero _), hwrap, hlen, Nat.add_sub_cancel]
  rw [if_neg (by omega), if_neg (by omega), hnew]
  refine ⟨r, hr, hwrote.width.trans hnew_width, fun i hi => ?_⟩
  rw [hwrote.bits, if_pos ⟨Nat.zero_le i, by omega⟩, Nat.sub_zero]

end Libtarp.Bitr
