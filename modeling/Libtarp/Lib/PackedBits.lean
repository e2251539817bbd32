import Libtarp.Lib.Bytes

/-!
# Bits packed in bytes

Bit `i` of a string of bytes is bit `i % 8` of byte `i / 8`, the least significant one first.

* `bitAt`: a bit, where there is one.
* `bitAt_append`, `Buffer.bitAt_write`: the bits of what is put together.
* `getElem?_eq_of_bitAt`, `eq_of_bitAt`: bytes with the same bits are the same.
* `bitAt_leValue`: the bits of the number in memory.
-/

namespace Libtarp.Lib

def bitAt (bytes : List UInt8) (i : ℕ) : Option Bool := bytes[i / 8]?.map fun b => b.toBitVec.getLsbD (i % 8)

variable {bytes src : List UInt8} {i : ℕ}

theorem bitAt_of_lt (h : i / 8 < bytes.length) : bitAt bytes i = some (bytes[i / 8].toBitVec.getLsbD (i % 8)) := by
  unfold bitAt
  rw [List.getElem?_eq_getElem h, Option.map_some]

theorem bitAt_eq_none_iff : bitAt bytes i = none ↔ 8 * bytes.length ≤ i := by
  unfold bitAt
  rw [Option.map_eq_none_iff, List.getElem?_eq_none_iff]
  omega

theorem exists_bitAt (h : i < 8 * bytes.length) : ∃ v, bitAt bytes i = some v := by
  apply Option.ne_none_iff_exists'.1
  rw [Ne, bitAt_eq_none_iff]
  omega

theorem lt_of_bitAt {v : Bool} (h : bitAt bytes i = some v) : i < 8 * bytes.length := by
  by_contra hle
  rw [bitAt_eq_none_iff.2 (by omega)] at h
  cases h

theorem bitAt_append : bitAt (bytes ++ src) i =
    if i < 8 * bytes.length then bitAt bytes i else bitAt src (i - 8 * bytes.length) := by
  unfold bitAt
  by_cases h : i < 8 * bytes.length
  · rw [if_pos h, List.getElem?_append_left (by omega)]
  · have hdiv : (i - 8 * bytes.length) / 8 = i / 8 - bytes.length := Nat.sub_mul_div i 8 bytes.length
    have hmod : (i - 8 * bytes.length) % 8 = i % 8 := by omega
    rw [if_neg h, List.getElem?_append_right (by omega), hdiv, hmod]

theorem bitAt_take {n : ℕ} (h : i < 8 * n) : bitAt (bytes.take n) i = bitAt bytes i := by
  unfold bitAt
  rw [List.getElem?_take_of_lt (by omega)]

theorem bitAt_drop {n : ℕ} : bitAt (bytes.drop n) i = bitAt bytes (8 * n + i) := by
  have hdiv : (8 * n + i) / 8 = n + i / 8 := by omega
  have hmod : (8 * n + i) % 8 = i % 8 := by omega
  unfold bitAt
  rw [List.getElem?_drop, hdiv, hmod]

theorem bitAt_zeros {n : ℕ} (h : i < 8 * n) : bitAt (Buffer.zeros n).bytes i = some false := by
  have hlt : i / 8 < (Buffer.zeros n).bytes.length := by
    rw [(Buffer.zeros n).size]
    omega
  rw [bitAt_of_lt hlt]
  simp only [Buffer.zeros, List.getElem_replicate]
  exact congrArg some BitVec.getLsbD_zero

theorem bitAt_congr {k : ℕ} (h : bytes[k]? = src[k]?) (hi : i / 8 = k) : bitAt bytes i = bitAt src i := by
  unfold bitAt
  rw [hi, h]

/-- Bytes with the same bits are the same. -/
theorem getElem?_eq_of_bitAt {k : ℕ} (h : ∀ i, i / 8 = k → bitAt bytes i = bitAt src i) : bytes[k]? = src[k]? := by
  have hbit (i : ℕ) (hi : i < 8) : bytes[k]?.map (fun b => b.toBitVec.getLsbD i) =
      src[k]?.map fun b => b.toBitVec.getLsbD i := by
    have hdiv : (8 * k + i) / 8 = k := by omega
    have hmod : (8 * k + i) % 8 = i := by omega
    have heq := h (8 * k + i) hdiv
    unfold bitAt at heq
    rwa [hdiv, hmod] at heq
  cases hx : bytes[k]? with
  | none =>
    have hnone := hbit 0 (by decide)
    rw [hx, Option.map_none] at hnone
    exact (Option.map_eq_none_iff.1 hnone.symm).symm
  | some x =>
    rw [hx] at hbit
    obtain ⟨y, hy, -⟩ := Option.map_eq_some_iff.1 (hbit 0 (by decide)).symm
    rw [hy] at hbit ⊢
    congr 1
    apply UInt8.toBitVec_inj.1
    exact BitVec.eq_of_getLsbD_eq fun i hi => Option.some.inj (hbit i hi)

/-- All bytes at once. -/
theorem eq_of_bitAt (h : ∀ i, bitAt bytes i = bitAt src i) : bytes = src := by
  apply List.ext_getElem?
  intro k
  exact getElem?_eq_of_bitAt fun i _ => h i

/-- The bits of the number in memory. -/
theorem bitAt_leValue (h : i < 8 * bytes.length) : bitAt bytes i = some ((leValue bytes).testBit i) := by
  induction bytes generalizing i with
  | nil => cases h
  | cons b bytes ih =>
    have hb : b.toNat < 2 ^ 8 := b.toNat_lt
    have hval : leValue (b :: bytes) = 2 ^ 8 * leValue bytes + b.toNat := Nat.add_comm ..
    have hcons : bitAt (b :: bytes) i = if i < 8 then bitAt [b] i else bitAt bytes (i - 8) :=
      @bitAt_append [b] bytes i
    rw [hcons, hval, Nat.testBit_two_pow_mul_add _ hb]
    by_cases hlow : i < 8
    · have hdiv : i / 8 = 0 := Nat.div_eq_of_lt hlow
      unfold bitAt
      rw [if_pos hlow, if_pos hlow, hdiv, List.getElem?_cons_zero, Option.map_some, Nat.mod_eq_of_lt hlow]
      rfl
    · rw [List.length_cons] at h
      rw [if_neg hlow, if_neg hlow, ih (by omega)]

/-- The bits of a buffer bytes were copied into. -/
theorem Buffer.bitAt_write {n offset : ℕ} (b : Buffer n) (h : offset + src.length ≤ n) :
    bitAt (b.write offset src).bytes i =
      if 8 * offset ≤ i ∧ i < 8 * (offset + src.length) then bitAt src (i - 8 * offset) else bitAt b.bytes i := by
  have hsize := b.size
  have htake : (b.bytes.take offset).length = offset := by
    rw [List.length_take]
    omega
  rw [b.write_bytes h, bitAt_append, bitAt_append, List.length_append, htake]
  by_cases hlow : i < 8 * offset
  · rw [if_pos (by omega), if_pos hlow, if_neg (by omega), bitAt_take hlow]
  by_cases hhigh : i < 8 * (offset + src.length)
  · rw [if_pos hhigh, if_neg hlow, if_pos ⟨by omega, hhigh⟩]
  · rw [if_neg hhigh, if_neg (by omega), bitAt_drop]
    congr 1
    omega

end Libtarp.Lib
