import Libtarp.Bits
import Libtarp.Lib.Promotion

/-!
# Fields of bits (`bits.hxx`)

The masks of `set_bit` are made of an `int`: it has 32 bits, and is widened with its sign. The mask of `get_bits` is
shifted by the width of the field, which may be that of the operand.

* `setBits_bit`, `getMaskedBits_bit`, `setBit_bit`, `getBits_bit`: the bits of what the helpers return.
* `fields_iff`: the helpers that are right, and when the other two are.
-/

namespace Libtarp.Bits.Cxx

open Lib

variable {w : ℕ}

/-! ## The functions of the source -/

/-- `get_bits`, of a field inside the number. -/
def getBits (num : BitVec w) (pos nbits : ℕ) : Except Undefined (BitVec w) := do
  let mask := assign w (~~~(← shl (~~~promote (0 : BitVec w)) nbits))
  let shift := pos - nbits
  let masked := assign w (promote num &&& (← shl (promote mask) shift))
  return assign w (← shr (promote masked) shift)

/-- `set_bits`, of a value of any integral type. -/
def setBits (target mask shift : BitVec w) (value : ℤ) : Except Undefined (BitVec w) := do
  let target := assign w (promote target &&& ~~~(← shl (promote mask) shift.toNat))
  let value := promote (BitVec.ofInt w value) &&& promote mask
  return assign w (promote target ||| (← shl value shift.toNat))

/-- `set_bit`; `0x1` is an `int`. -/
def setBit (target shift : BitVec w) : Except Undefined (BitVec w) := do
  let one ← shl 1#32 shift.toNat
  let target := assign w (promote target &&& (~~~one).signExtend (max w 32))
  return assign w (promote target ||| one.signExtend (max w 32))

/-- `clear_bits`. -/
def clearBits (target mask shift : BitVec w) : Except Undefined (BitVec w) := setBits target mask shift 0

/-- `get_masked_bits`. -/
def getMaskedBits (target mask shift : BitVec w) : Except Undefined (BitVec w) := do
  return assign w ((← shr (promote target) shift.toNat) &&& promote mask)

/-- `get_bit`. -/
def getBit (target shift : BitVec w) : Except Undefined (BitVec w) := do
  return assign w ((← shr (promote target) shift.toNat) &&& 1)

/-! ## The bits of the results -/

variable {target mask shift num : BitVec w} {value : ℤ} {pos nbits i : ℕ}

/-- That a field has a bit. -/
def inField (mask shift : BitVec w) (i : ℕ) : Bool := decide (shift.toNat ≤ i) && mask.getLsbD (i - shift.toNat)

theorem getLsbD_shl_promote (x : BitVec w) (k : ℕ) (hi : i < w) :
    (promote x <<< k).getLsbD i = (decide (k ≤ i) && x.getLsbD (i - k)) := by
  rw [BitVec.getLsbD_shiftLeft, getLsbD_promote, decide_eq_true (by omega : i < max w 32), Bool.true_and, ← decide_not]
  congr 1
  exact decide_eq_decide.2 Nat.not_lt

/-- The addressed bits are those of the value, and the others are left. -/
theorem setBits_bit (hshift : shift.toNat < w) (target mask : BitVec w) (value : ℤ) :
    ∃ out, setBits target mask shift value = .ok out ∧ ∀ i, i < w → out.getLsbD i =
      if inField mask shift i then (BitVec.ofInt w value).getLsbD (i - shift.toNat) else target.getLsbD i := by
  have hs : shift.toNat < max w 32 := by omega
  refine ⟨assign w (promote (assign w (promote target &&& ~~~(promote mask <<< shift.toNat))) |||
    (promote (BitVec.ofInt w value) &&& promote mask) <<< shift.toNat), ?_, fun i hi => ?_⟩
  · unfold setBits
    rw [shl_ok hs]
    change (shl _ _ >>= fun x => Except.ok _) = _
    rw [shl_ok hs]
    rfl
  · have hwide : i < max w 32 := by omega
    rw [getLsbD_assign _ hi, BitVec.getLsbD_or, getLsbD_promote, getLsbD_assign _ hi, BitVec.getLsbD_and,
      getLsbD_promote, BitVec.getLsbD_not, getLsbD_shl_promote mask _ hi, BitVec.getLsbD_shiftLeft, BitVec.getLsbD_and,
      getLsbD_promote, getLsbD_promote, decide_eq_true hwide, Bool.true_and, Bool.true_and, ← decide_not]
    unfold inField
    by_cases hle : shift.toNat ≤ i
    · rw [decide_eq_true hle, decide_eq_true (Nat.not_lt.2 hle), Bool.true_and, Bool.true_and]
      cases mask.getLsbD (i - shift.toNat) with
      | false => simp
      | true => simp
    · rw [decide_eq_false hle, decide_eq_false (fun h => hle (Nat.not_lt.1 h)), Bool.false_and, Bool.false_and]
      simp

/-- What was set is read back, as far as it is inside the number. -/
theorem getMaskedBits_bit (hshift : shift.toNat < w) (target mask : BitVec w) :
    ∃ out, getMaskedBits target mask shift = .ok out ∧
      ∀ i, i < w → out.getLsbD i = (target.getLsbD (shift.toNat + i) && mask.getLsbD i) := by
  unfold getMaskedBits
  rw [shr_ok (by omega)]
  refine ⟨_, rfl, fun i hi => ?_⟩
  rw [getLsbD_assign _ hi, BitVec.getLsbD_and, BitVec.getLsbD_ushiftRight, getLsbD_promote, getLsbD_promote]

theorem getBit_bit (hshift : shift.toNat < w) (target : BitVec w) :
    ∃ out, getBit target shift = .ok out ∧
      ∀ i, i < w → out.getLsbD i = (decide (i = 0) && target.getLsbD shift.toNat) := by
  unfold getBit
  rw [shr_ok (by omega)]
  refine ⟨_, rfl, fun i hi => ?_⟩
  rw [getLsbD_assign _ hi, BitVec.getLsbD_and, BitVec.getLsbD_ushiftRight, getLsbD_promote, BitVec.ofNat_eq_ofNat,
    BitVec.getLsbD_one]
  by_cases h : i = 0
  · rw [h, Nat.add_zero, decide_eq_true rfl, decide_eq_true (by omega), Bool.and_true, Bool.and_true, Bool.true_and]
  · rw [decide_eq_false h, Bool.and_false, Bool.and_false, Bool.false_and]

/-- `set_bit` sets the bit, and with bit 31 all those from 32 on. -/
theorem setBit_bit (hshift : shift.toNat < 32) (target : BitVec w) :
    ∃ out, setBit target shift = .ok out ∧ ∀ i, i < w → out.getLsbD i =
      (decide (i = shift.toNat ∨ 32 ≤ i ∧ shift.toNat = 31) || target.getLsbD i) := by
  unfold setBit
  rw [shl_ok hshift]
  refine ⟨_, rfl, fun i hi => ?_⟩
  rw [getLsbD_assign _ hi, BitVec.getLsbD_or, getLsbD_promote, getLsbD_assign _ hi, BitVec.getLsbD_and,
    getLsbD_promote, BitVec.getLsbD_signExtend, BitVec.getLsbD_signExtend, decide_eq_true (by omega : i < max w 32)]
  have hmsb : (1#32 <<< shift.toNat).msb = decide (shift.toNat = 31) := by
    rw [BitVec.msb_eq_getLsbD_last, getLsbD_one_shiftLeft (by decide)]
    exact decide_eq_decide.2 eq_comm
  by_cases h : i < 32
  · rw [if_pos h, if_pos h, BitVec.getLsbD_not, getLsbD_one_shiftLeft h, decide_eq_true h]
    by_cases heq : i = shift.toNat
    · rw [decide_eq_true heq, decide_eq_true (.inl heq)]
      simp
    · rw [decide_eq_false heq, decide_eq_false (by omega)]
      simp
  · rw [if_neg h, if_neg h, BitVec.msb_not, hmsb, decide_eq_true (by decide : 0 < 32), Bool.true_and]
    by_cases heq : shift.toNat = 31
    · rw [decide_eq_true heq, decide_eq_true (.inr ⟨by omega, heq⟩)]
      simp
    · rw [decide_eq_false heq, decide_eq_false (by omega)]
      simp

/-- `get_bits` returns the field where its width is below that of the operand. -/
theorem getBits_bit (hle : nbits ≤ pos) (hpos : pos ≤ w) (hpositive : 0 < nbits) (hwidth : nbits < max w 32) (num : BitVec w) :
    ∃ out, getBits num pos nbits = .ok out ∧ ∀ i, i < w → out.getLsbD i =
      (decide (i < nbits) && num.getLsbD (pos - nbits + i)) := by
  obtain ⟨mask, hmask⟩ : ∃ mask : BitVec w, mask = assign w (~~~(~~~promote (0 : BitVec w) <<< nbits)) := ⟨_, rfl⟩
  have hmask_bit : ∀ i, i < w → mask.getLsbD i = decide (i < nbits) := by
    intro i hi
    rw [hmask, getLsbD_assign _ hi, BitVec.getLsbD_not, BitVec.getLsbD_shiftLeft, BitVec.getLsbD_not, getLsbD_promote,
      BitVec.ofNat_eq_ofNat, BitVec.getLsbD_zero, decide_eq_true (by omega : i < max w 32),
      decide_eq_true (by omega : i - nbits < max w 32)]
    simp
  have hs : pos - nbits < max w 32 := by omega
  refine ⟨assign w (promote (assign w (promote num &&& promote mask <<< (pos - nbits))) >>> (pos - nbits)), ?_,
    fun i hi => ?_⟩
  · unfold getBits
    rw [shl_ok hwidth]
    change (shl (promote (assign w _)) (pos - nbits) >>= fun x => shr (promote (assign w (promote num &&& x))) (pos - nbits)
      >>= fun x => Except.ok (assign w x)) = _
    rw [← hmask, shl_ok hs]
    change (shr _ _ >>= fun x => Except.ok (assign w x)) = _
    rw [shr_ok hs]
    rfl
  · rw [assign_shr, BitVec.getLsbD_ushiftRight, Bool.and_comm]
    rcases Nat.lt_or_ge (pos - nbits + i) w with hin | hout
    · rw [getLsbD_assign _ hin, BitVec.getLsbD_and, getLsbD_promote, getLsbD_shl_promote mask _ hin, Nat.add_sub_cancel_left,
        hmask_bit i hi, decide_eq_true (Nat.le_add_right _ _), Bool.true_and]
    · rw [BitVec.getLsbD_of_ge _ _ hout, BitVec.getLsbD_of_ge _ _ hout, Bool.false_and]

/-- When `set_bit` sets the bit and no other. -/
theorem setBit_iff (hshift : shift.toNat < w) (target : BitVec w) :
    (∃ out, setBit target shift = .ok out ∧
        ∀ i, i < w → out.getLsbD i = (decide (i = shift.toNat) || target.getLsbD i)) ↔
      shift.toNat ≤ 30 ∨ w ≤ 32 ∨ shift.toNat = 31 ∧ ∀ i, 32 ≤ i → i < w → target.getLsbD i = true := by
  rcases Nat.lt_or_ge shift.toNat 32 with hnarrow | hwide
  · obtain ⟨out, hout, hbits⟩ := setBit_bit hnarrow target
    constructor
    · rintro ⟨out', hout', hright⟩
      obtain rfl : out = out' := Except.ok.inj (hout.symm.trans hout')
      by_cases hlow : shift.toNat ≤ 30
      · exact .inl hlow
      refine .inr (.inr ⟨by omega, fun i hi hiw => ?_⟩)
      have heq := (hbits i hiw).symm.trans (hright i hiw)
      rwa [decide_eq_true (.inr ⟨hi, by omega⟩), decide_eq_false (by omega), Bool.true_or, Bool.false_or, eq_comm] at heq
    · intro h
      refine ⟨out, hout, fun i hi => ?_⟩
      rw [hbits i hi]
      by_cases hset : 32 ≤ i ∧ shift.toNat = 31
      · have htarget : target.getLsbD i = true := by
          rcases h with h | h | h
          · omega
          · omega
          · exact h.2 i hset.1 hi
        rw [htarget, Bool.or_true, Bool.or_true]
      · congr 1
        exact decide_eq_decide.2 (or_iff_left hset)
  · have herror : setBit target shift = .error .shift := by
      unfold setBit
      rw [shl_error hwide]
      rfl
    refine iff_of_false ?_ (by omega)
    rintro ⟨out, hout, -⟩
    rw [herror] at hout
    cases hout

/-- When `get_bits` returns the field. -/
theorem getBits_iff (hpositive : 0 < nbits) (hle : nbits ≤ pos) (hpos : pos ≤ w) (num : BitVec w) :
    (∃ out, getBits num pos nbits = .ok out ∧
        ∀ i, i < w → out.getLsbD i = (decide (i < nbits) && num.getLsbD (pos - nbits + i))) ↔ nbits < w ∨ w < 32 := by
  by_cases hwidth : nbits < max w 32
  · exact iff_of_true (getBits_bit hle hpos hpositive hwidth num) (by omega)
  · have herror : getBits num pos nbits = .error .shift := by
      unfold getBits
      rw [shl_error (by omega)]
      rfl
    refine iff_of_false ?_ (by omega)
    rintro ⟨out, hout, -⟩
    rw [herror] at hout
    cases hout

/-- **Fields of bits**: `set_bits`, `clear_bits`, `get_masked_bits` and `get_bit` do what they say everywhere. `set_bit`
does up to bit 30, in types of at most 32 bits, and at bit 31 where the bits from 32 on are set. `get_bits` does unless
the field is as wide as an operand. -/
theorem fields_iff (target mask : BitVec w) (value : ℤ) (hshift : shift.toNat < w) (hpositive : 0 < nbits)
    (hle : nbits ≤ pos) (hpos : pos ≤ w) :
    (∃ out back, setBits target mask shift value = .ok out ∧ getMaskedBits out mask shift = .ok back ∧
      ∀ i, i < w → (out.getLsbD i =
          if inField mask shift i then (BitVec.ofInt w value).getLsbD (i - shift.toNat) else target.getLsbD i) ∧
        back.getLsbD i = (decide (shift.toNat + i < w) && mask.getLsbD i && (BitVec.ofInt w value).getLsbD i)) ∧
      (∃ out, clearBits target mask shift = .ok out ∧
        ∀ i, i < w → out.getLsbD i = (!inField mask shift i && target.getLsbD i)) ∧
      (∃ out, getBit target shift = .ok out ∧
        ∀ i, i < w → out.getLsbD i = (decide (i = 0) && target.getLsbD shift.toNat)) ∧
      ((∃ out, setBit target shift = .ok out ∧
          ∀ i, i < w → out.getLsbD i = (decide (i = shift.toNat) || target.getLsbD i)) ↔
        shift.toNat ≤ 30 ∨ w ≤ 32 ∨ shift.toNat = 31 ∧ ∀ i, 32 ≤ i → i < w → target.getLsbD i = true) ∧
      ((∃ out, getBits target pos nbits = .ok out ∧
          ∀ i, i < w → out.getLsbD i = (decide (i < nbits) && target.getLsbD (pos - nbits + i))) ↔
        nbits < w ∨ w < 32) := by
  refine ⟨?_, ?_, getBit_bit hshift target, ?_, ?_⟩
  · obtain ⟨out, hout, hbits⟩ := setBits_bit hshift target mask value
    obtain ⟨back, hback, hback_bits⟩ := getMaskedBits_bit hshift out mask
    refine ⟨out, back, hout, hback, fun i hi => ⟨hbits i hi, ?_⟩⟩
    rw [hback_bits i hi]
    rcases Nat.lt_or_ge (shift.toNat + i) w with hin | hout
    · rw [hbits _ hin, decide_eq_true hin, Bool.true_and, Bool.and_comm]
      unfold inField
      rw [decide_eq_true (Nat.le_add_right _ _), Nat.add_sub_cancel_left, Bool.true_and]
      cases mask.getLsbD i with
      | false => rw [Bool.false_and, Bool.false_and]
      | true => rw [if_pos rfl]
    · rw [BitVec.getLsbD_of_ge out _ hout, decide_eq_false (Nat.not_lt.2 hout), Bool.false_and, Bool.false_and]
  · obtain ⟨out, hout, hbits⟩ := setBits_bit hshift target mask 0
    refine ⟨out, hout, fun i hi => ?_⟩
    have hzero : (BitVec.ofInt w 0).getLsbD (i - shift.toNat) = false := BitVec.getLsbD_zero
    rw [hbits i hi, hzero]
    cases inField mask shift i with
    | false => rfl
    | true => rfl
  · exact setBit_iff hshift target
  · exact getBits_iff hpositive hle hpos target

/-- Bit 31 of a wider type, with the bits above it clear, and a field of 32 bits of 32. -/
theorem not_fields : setBit 0#64 31 = .ok 0xffffffff80000000#64 ∧ getBits 7#32 32 32 = .error .shift := by
  decide

theorem fields_iff_uint32 : (∃ out, getBits 7#32 32 32 = .ok out ∧
    ∀ i, i < 32 → out.getLsbD i = (decide (i < 32) && (7#32).getLsbD (32 - 32 + i))) ↔ 32 < 32 ∨ 32 < 32 :=
  (fields_iff 7#32 1#32 5 (by decide : (3#32).toNat < 32) (by decide) le_rfl le_rfl).2.2.2.2

end Libtarp.Bits.Cxx
