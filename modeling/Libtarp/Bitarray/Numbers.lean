import Libtarp.Bitarray.Model
import Libtarp.Bits.Codec

/-!
# Numbers in bit arrays (`bitarray.c`, `Bitr_fromu16` and the like)

A number is packed with its least significant byte first and copied to the front of the array; it is read again bit by
bit.

* `bitrFromu_iff`: when a number can be stored in an array.
* `bitrTou_eq`: what is read of an array.
* `codec_iff`: the codecs of numbers, and when an array of a sufficient width takes one.
-/

namespace Libtarp.Bitr

open Lib Bits

variable {N : ℕ}

/-! ## The functions of the source -/

/-- `Bitr_fromu8`, `Bitr_fromu16`, `Bitr_fromu32` and `Bitr_fromu64`. -/
def bitrFromu (bitr : Option Bitarray) (val : BitVec N) : Except (Undefined ⊕ MemFault) (Option Bitarray) := do
  -- every byte of the local array is overwritten
  let buff ← (packBuffLe val (List.replicate (N / 8) 0)).mapError .inl
  (bitrFrombuff bitr buff).mapError .inr

/-- The loop of `Bitr_tou8` and the like. -/
def touBits (M : ℕ) (bitr : Bitarray) : ℕ → Except MemFault (BitVec M)
  | 0 => return 0
  | i + 1 => do
    let num ← touBits M bitr i
    return setBitval num (i + 1) (← bitrGet bitr (i + 1))

/-- `Bitr_tou8`, `Bitr_tou16`, `Bitr_tou32` and `Bitr_tou64`. -/
def bitrTou (M : ℕ) (bitr : Bitarray) : Except MemFault (BitVec M) :=
  if 0 < bitr.width then touBits M bitr (min M bitr.width) else throw .assertion

/-! ## What is stored and read -/

variable {a : Bitarray} {M : ℕ}

/-- The bits of a packed number. -/
theorem packBuffLe_bits (hN : N = N / 8 * 8) (val : BitVec N) :
    ∃ buff, packBuffLe val (List.replicate (N / 8) 0) = .ok buff ∧ buff.length = N / 8 ∧
      ∀ i, i < N → bitAt buff i = some (val.getLsbD i) := by
  have hlength : (List.replicate (N / 8) (0 : UInt8)).length = N / 8 := List.length_replicate
  obtain ⟨buff, hpack, hbuff, -, hbytes⟩ := packBytes_eq val (order_le (N / 8)) (le_of_eq hlength.symm) le_rfl
  refine ⟨buff, hpack, hbuff.trans hlength, fun i hi => ?_⟩
  obtain ⟨byte, hbyte, hbits⟩ := hbytes (i / 8) (by omega)
  unfold bitAt
  rw [hbyte, Option.map_some, hbits _ (by omega)]
  congr 2
  omega

/-- A number is stored in the lowest bits where the buffer has room for its bytes. -/
theorem bitrFromu_iff (hN : N = N / 8 * 8) (hwidth : N ≤ a.width) (val : BitVec N) :
    (∃ r, bitrFromu (some a) val = .ok (some r) ∧ Wrote a r 0 N fun i => some (val.getLsbD i)) ↔
      N / 8 ≤ calculateRequiredSize a.width := by
  obtain ⟨buff, hpack, hlength, hbits⟩ := packBuffLe_bits hN val
  have hfits : ¬bits2bytes a.width false < buff.length := by
    rw [bits2bytes_floor]
    omega
  have hrun : bitrFromu (some a) val = (some <$> memcpy a 0 buff).mapError .inr := by
    unfold bitrFromu bitrFrombuff
    rw [hpack]
    exact congrArg (Except.mapError Sum.inr) (if_neg hfits)
  have hroom : (∃ r, memcpy a 0 buff = .ok r) ↔ 0 + buff.length ≤ a.size := memcpy_iff
  rw [hlength, Nat.zero_add, size_eq] at hroom
  rw [hrun, ← hroom]
  constructor
  · rintro ⟨r, h, -⟩
    cases hcpy : memcpy a 0 buff with
    | error e =>
      rw [hcpy] at h
      cases h
    | ok r => exact ⟨r, rfl⟩
  · rintro ⟨r, h⟩
    refine ⟨r, by rw [h]; rfl, ?_⟩
    have hwrote := memcpy_bit h
    rw [Nat.zero_add, hlength, Nat.mul_zero, Nat.mul_comm, ← hN] at hwrote
    exact hwrote.congr (fun i _ hi => by rw [Nat.sub_zero, hbits i hi])

/-- What is read of an array. -/
theorem touBits_eq {bit : ℕ → Bool} {count : ℕ} (hcount : count ≤ a.width) (hbits : ∀ i, i < count → a.bit? i = some (bit i)) :
    ∃ num, touBits M a count = .ok num ∧ ∀ j, j < M → num.getLsbD j = (decide (j < count) && bit j) := by
  induction count with
  | zero =>
    refine ⟨0, rfl, fun j _ => ?_⟩
    rw [BitVec.ofNat_eq_ofNat, BitVec.getLsbD_zero, decide_eq_false (Nat.not_lt_zero j), Bool.false_and]
  | succ count ih =>
    obtain ⟨num, hrun, hnum⟩ := ih (by omega) (fun i hi => hbits i (by omega))
    refine ⟨setBitval num (count + 1) ((bit count).toNat : ℤ), ?_, fun j hj => ?_⟩
    · rw [touBits, hrun, ok_bind, bitrGet_eq (by omega), hbits count (Nat.lt_succ_self count)]
      rfl
    · rw [getLsbD_setBitval num hj, Nat.add_sub_cancel, hnum j hj]
      by_cases h : j = count
      · rw [if_pos h, h, decide_eq_true (Nat.lt_succ_self count), Bool.true_and]
      · rw [if_neg h]
        congr 1
        exact decide_eq_decide.2 (by omega)

/-- A new array holds the number, which is read with as many bits as are asked for. -/
theorem bitrTou_bitrFromu (hN : N = N / 8 * 8) (hpos : 0 < N) (hN64 : N ≤ 64) (M : ℕ) (val : BitVec N) :
    ∃ new num, bitrFromu none val = .ok (some new) ∧ new.width = N ∧ bitrTou M new = .ok num ∧
      num.toNat = val.toNat % 2 ^ M := by
  obtain ⟨buff, hpack, hlength, hbits⟩ := packBuffLe_bits hN val
  have hbytes : bytes2bits buff.length = N := by
    unfold bytes2bits
    rw [hlength, Nat.mod_eq_of_lt (by omega), ← hN]
  -- the new array has a bit for each of the number, and room for its bytes
  obtain ⟨new, hnew, hwidth, -⟩ := allocateBitarray_eq hpos (by omega : N < 2 ^ 64)
  have hroom : 0 + buff.length ≤ new.size := by
    rw [size_eq, hwidth, calculateRequiredSize_of_lt (by omega), hlength]
    omega
  obtain ⟨r, hr⟩ := memcpy_iff.2 hroom
  have hwrote := memcpy_bit hr
  rw [Nat.zero_add, hlength, Nat.mul_zero, Nat.mul_comm, ← hN] at hwrote
  have hbit : ∀ i, i < N → r.bit? i = some (val.getLsbD i) := by
    intro i hi
    rw [hwrote.bits, if_pos ⟨Nat.zero_le i, hi⟩, Nat.sub_zero, hbits i hi]
  have hrwidth : r.width = N := hwrote.width.trans hwidth
  obtain ⟨num, hnum, hnum_bits⟩ := touBits_eq (M := M) (Nat.min_le_right M r.width)
    (fun i hi => hbit i (by omega))
  refine ⟨r, num, ?_, hrwidth, ?_, ?_⟩
  · have hcap : ¬bitrMaxcap < buff.length := by
      rw [bitrMaxcap_eq]
      omega
    unfold bitrFromu bitrFrombuff
    rw [hpack]
    change Except.mapError Sum.inr (if bitrMaxcap < buff.length then _ else _) = _
    rw [if_neg hcap, hbytes, hnew]
    change Except.mapError Sum.inr (some <$> memcpy new 0 buff) = _
    rw [hr]
    rfl
  · unfold bitrTou
    rw [if_pos r.width_pos]
    exact hnum
  · refine Nat.eq_of_testBit_eq (fun j => ?_)
    rw [Nat.testBit_mod_two_pow]
    change num.getLsbD j = (decide (j < M) && val.getLsbD j)
    rcases Nat.lt_or_ge j M with hj | hj
    · rw [hnum_bits j hj, decide_eq_true hj, Bool.true_and]
      rcases Nat.lt_or_ge j N with hjN | hjN
      · rw [decide_eq_true (by omega), Bool.true_and]
      · rw [BitVec.getLsbD_of_ge val j hjN, Bool.and_false]
    · rw [BitVec.getLsbD_of_ge num j hj, decide_eq_false (by omega), Bool.false_and]

/-- **Numbers in memory and in bit arrays**: what is packed is loaded again, and reversed in the other order; a new
array holds the number; and an array of a sufficient width takes it where its buffer has room for the bytes, which it
has unless the width wrapped when the buffer was made. -/
theorem codec_iff (t : UintType) (x : BitVec t.width) (M : ℕ) {a : Bitarray} (hwidth : t.width ≤ a.width) :
    Coded t x ∧
      (∃ new num, bitrFromu none x = .ok (some new) ∧ new.width = t.width ∧ bitrTou M new = .ok num ∧
        num.toNat = x.toNat % 2 ^ M) ∧
      ((∃ r, bitrFromu (some a) x = .ok (some r) ∧ Wrote a r 0 t.width fun i => some (x.getLsbD i)) ↔
        t.width / 8 ≤ calculateRequiredSize a.width) := by
  have hbounds : 0 < t.width ∧ t.width ≤ 64 := by cases t <;> decide
  exact ⟨coded t x, bitrTou_bitrFromu t.width_eq hbounds.1 hbounds.2 M x, bitrFromu_iff t.width_eq hwidth x⟩

/-- An array whose width wraps to 0 has no byte. -/
theorem not_stored_wide : bitrFromu (some (ofBytes (2 ^ 32) [] (by decide))) 7#16 = .error (.inr .outside) :=
  rfl

theorem codec_iff_three_bytes : Coded .u16 7#16 ∧
    (∃ new num, bitrFromu none 7#16 = .ok (some new) ∧ new.width = 16 ∧ bitrTou 8 new = .ok num ∧
      num.toNat = 7 % 2 ^ 8) ∧
    ((∃ r, bitrFromu (some (ofBytes 20 [1, 2, 3] (by decide))) 7#16 = .ok (some r) ∧
      Wrote (ofBytes 20 [1, 2, 3] (by decide)) r 0 16 fun i => some ((7#16).getLsbD i)) ↔ 2 ≤ calculateRequiredSize 20) :=
  codec_iff .u16 7#16 8 (by decide)

end Libtarp.Bitr
