import Mathlib.Data.Nat.Bitwise
import Mathlib.Tactic.Common

/-!
# Bits (`bits.h`)

Positions of bits are counted from 1, from the least significant bit on.
-/

namespace Libtarp.Bits

/-- The loop of `posmsb`; a number is not shifted more often than it is large. -/
def posmsbLoop : ℕ → ℕ → ℕ → ℕ
  | 0, _, pos => pos
  | rounds + 1, v, pos => if v >>> 1 = 0 then pos else posmsbLoop rounds (v >>> 1) (pos + 1)

def posmsb (v : ℕ) : ℕ := if v = 0 then 0 else posmsbLoop v v 0 + 1

def getBit (num pos : ℕ) : ℕ := (num >>> (pos - 1)) &&& 1

def getBits (num pos nbits : ℕ) : ℕ := (num &&& ((2 ^ nbits - 1) <<< (pos - nbits))) >>> (pos - nbits)

/-- `set_bitval`, at the type of `num`. -/
def setBitval {w : ℕ} (num : BitVec w) (pos : ℕ) (bitval : ℤ) : BitVec w :=
  (num &&& ~~~(1#w <<< (pos - 1))) ||| BitVec.ofInt w bitval <<< (pos - 1)

/-- `clear_bit`, at the type of `num`. -/
def clearBit {w : ℕ} (num : BitVec w) (pos : ℕ) : BitVec w := num &&& ~~~(1#w <<< (pos - 1))

/-- `toggle_bit`, at the type of `num`. -/
def toggleBit {w : ℕ} (num : BitVec w) (pos : ℕ) : BitVec w := num ^^^ (1#w <<< (pos - 1))

def ispow2 (x : ℕ) : Bool := x &&& (x - 1) == 0

def ismult2 (x : ℕ) : Bool := x &&& 1 == 0

def bits2bytes (nbits : ℕ) (round : Bool) : ℕ := nbits / 8 + if round ∧ nbits % 8 ≠ 0 then 1 else 0

theorem ispow2_two_pow (k : ℕ) : ispow2 (2 ^ k) = true := by
  unfold ispow2
  rw [Nat.and_two_pow_sub_one_eq_mod, Nat.mod_self]
  rfl

theorem posmsbLoop_eq {rounds v : ℕ} (h0 : 0 < v) (hr : v ≤ rounds) (pos : ℕ) :
    posmsbLoop rounds v pos = pos + v.log2 := by
  induction rounds generalizing v pos with
  | zero => omega
  | succ rounds ih =>
    unfold posmsbLoop
    rw [Nat.shiftRight_eq_div_pow, pow_one]
    by_cases h1 : v / 2 = 0
    · rw [if_pos h1, Nat.log2_def, if_neg (by omega)]; rfl
    · rw [if_neg h1, ih (by omega) (by omega), Nat.log2_def v, if_pos (by omega)]; omega

theorem posmsb_eq {v : ℕ} (h0 : 0 < v) : posmsb v = v.log2 + 1 := by
  unfold posmsb
  rw [if_neg (by omega), posmsbLoop_eq h0 le_rfl, Nat.zero_add]

/-- The lowest bits of a number. -/
theorem getBits_self (num nbits : ℕ) : getBits num nbits nbits = num % 2 ^ nbits := by
  unfold getBits
  rw [Nat.sub_self, Nat.shiftLeft_zero, Nat.shiftRight_zero, Nat.and_two_pow_sub_one_eq_mod]

theorem getBit_eq_one_iff (num pos : ℕ) : getBit num pos = 1 ↔ num / 2 ^ (pos - 1) % 2 = 1 := by
  unfold getBit
  rw [Nat.and_one_is_mod, Nat.shiftRight_eq_div_pow]

theorem getBit_toNat {w : ℕ} (num : BitVec w) (pos : ℕ) : getBit num.toNat pos = (num.getLsbD (pos - 1)).toNat := by
  unfold getBit
  rw [Nat.and_one_is_mod, BitVec.getLsbD, Nat.testBit_eq_decide_div_mod_eq, Nat.shiftRight_eq_div_pow]
  rcases Nat.mod_two_eq_zero_or_one (num.toNat / 2 ^ (pos - 1)) with h | h <;> rw [h] <;> rfl

theorem getLsbD_ofNat_toNat {w k : ℕ} (v : Bool) (hk : k < w) :
    (BitVec.ofNat w v.toNat).getLsbD k = (decide (k = 0) && v) := by
  rw [BitVec.getLsbD_ofNat, decide_eq_true hk, Bool.true_and]
  cases v with
  | false => rw [Bool.toNat_false, Nat.zero_testBit, Bool.and_false]
  | true =>
    rw [Bool.toNat_true, Bool.and_true, Bool.eq_iff_iff, decide_eq_true_iff]
    exact Nat.testBit_one_eq_true_iff_self_eq_zero

/-- The one bit of a mask. -/
theorem getLsbD_one_shiftLeft {w i : ℕ} (hi : i < w) (k : ℕ) : (1#w <<< k).getLsbD i = decide (i = k) := by
  have hone := getLsbD_ofNat_toNat true (by omega : i - k < w)
  rw [Bool.toNat_true] at hone
  rw [BitVec.getLsbD_shiftLeft, hone]
  grind

/-- A bit is cleared, and the others are left. -/
theorem getLsbD_clearBit {w : ℕ} (num : BitVec w) {pos i : ℕ} (hi : i < w) :
    (clearBit num pos).getLsbD i = if i = pos - 1 then false else num.getLsbD i := by
  unfold clearBit
  rw [BitVec.getLsbD_and, BitVec.getLsbD_not, getLsbD_one_shiftLeft hi, decide_eq_true hi, Bool.true_and]
  by_cases h : i = pos - 1
  · rw [if_pos h, decide_eq_true h, Bool.not_true, Bool.and_false]
  · rw [if_neg h, decide_eq_false h, Bool.not_false, Bool.and_true]

/-- A bit is toggled, and the others are left. -/
theorem getLsbD_toggleBit {w : ℕ} (num : BitVec w) {pos i : ℕ} (hi : i < w) :
    (toggleBit num pos).getLsbD i = if i = pos - 1 then !num.getLsbD i else num.getLsbD i := by
  unfold toggleBit
  rw [BitVec.getLsbD_xor, getLsbD_one_shiftLeft hi]
  by_cases h : i = pos - 1
  · rw [if_pos h, decide_eq_true h, Bool.xor_true]
  · rw [if_neg h, decide_eq_false h, Bool.xor_false]

/-- A bit is set to a value, and the others are left. -/
theorem getLsbD_setBitval {w : ℕ} (num : BitVec w) {pos i : ℕ} (hi : i < w) (v : Bool) :
    (setBitval num pos (v.toNat : ℤ)).getLsbD i = if i = pos - 1 then v else num.getLsbD i := by
  have hmask := getLsbD_one_shiftLeft hi (pos - 1)
  have hval : (BitVec.ofInt w (v.toNat : ℤ) <<< (pos - 1)).getLsbD i = (decide (i = pos - 1) && v) := by
    rw [BitVec.ofInt_natCast, BitVec.getLsbD_shiftLeft, getLsbD_ofNat_toNat v (by omega)]
    grind
  unfold setBitval
  rw [BitVec.getLsbD_or, BitVec.getLsbD_and, BitVec.getLsbD_not, hmask, hval]
  by_cases h : i = pos - 1
  · rw [if_pos h, decide_eq_true h, decide_eq_true hi, Bool.not_true, Bool.and_false, Bool.and_false, Bool.false_or,
      Bool.true_and]
  · rw [if_neg h, decide_eq_false h, decide_eq_true hi, Bool.not_false, Bool.and_true, Bool.and_true, Bool.false_and,
      Bool.or_false]

theorem ismult2_iff (x : ℕ) : ismult2 x = true ↔ x % 2 = 0 := by
  unfold ismult2
  rw [Nat.and_one_is_mod, beq_iff_eq]

theorem bits2bytes_round (nbits : ℕ) : bits2bytes nbits true = (nbits + 7) / 8 := by
  unfold bits2bytes
  split_ifs with h <;> simp only [true_and] at h <;> omega

theorem bits2bytes_floor (nbits : ℕ) : bits2bytes nbits false = nbits / 8 := by
  unfold bits2bytes
  rw [if_neg (fun h => Bool.noConfusion h.1), Nat.add_zero]

end Libtarp.Bits
