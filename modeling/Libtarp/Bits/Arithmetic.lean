import Libtarp.Bits
import Mathlib.Algebra.Order.Field.Power
import Mathlib.Algebra.Order.Ring.Rat

/-!
# Arithmetic by masks and shifts (`bits.h`)

* `moduloPow2_eq`: the generated modulo functions return one bit of the number.
* `helpers_iff`: when each helper agrees with the arithmetic it stands for.
-/

namespace Libtarp.Bits

def wideEnough (width : ℤ) (val : ℕ) : Bool := width ≥ posmsb val

/-- A function of `define_modulo_pow2`. -/
def moduloPow2 (powOf2 val : ℕ) : ℕ := val &&& powOf2

theorem ispow2_iff (x : ℕ) : ispow2 x = true ↔ x = 0 ∨ x.isPowerOfTwo := by
  unfold ispow2
  rw [beq_iff_eq]
  rcases Nat.eq_zero_or_pos x with rfl | hpos
  · -- `0 & (0 - 1)` is 0, whatever `0 - 1` wraps to
    exact iff_of_true rfl (.inl rfl)
  · rw [Nat.and_sub_one_eq_zero_iff_isPowerOfTwo hpos.ne', or_iff_right hpos.ne']

theorem posmsb_cases (x : ℕ) : posmsb x = if x = 0 then 0 else x.log2 + 1 := by
  split_ifs with h
  · rw [h]
    rfl
  · exact posmsb_eq (Nat.pos_of_ne_zero h)

/-- A width of at least 0 is wide enough for the numbers below its power of two. -/
theorem wideEnough_iff (w x : ℕ) : wideEnough w x = true ↔ x < 2 ^ w := by
  unfold wideEnough
  rw [decide_eq_true_iff, ge_iff_le, Nat.cast_le, posmsb_cases]
  split_ifs with h
  · rw [h]
    exact iff_of_true (Nat.zero_le w) (Nat.two_pow_pos w)
  · rw [Nat.succ_le_iff, Nat.log2_lt h]

theorem wideEnough_neg {w : ℤ} (hw : w < 0) (x : ℕ) : wideEnough w x = false :=
  decide_eq_false (by omega)

/-- The generated modulo functions return one bit of the number. -/
theorem moduloPow2_eq (k x : ℕ) : moduloPow2 (2 ^ k) x = (x.testBit k).toNat * 2 ^ k := Nat.and_two_pow x k

theorem moduloPow2_iff (k x : ℕ) : moduloPow2 (2 ^ k) x = x % 2 ^ k ↔ 2 ^ (k + 1) ∣ x := by
  have hpos := Nat.two_pow_pos k
  have hlt := Nat.mod_lt x hpos
  have hdiv := Nat.div_add_mod x (2 ^ k)
  rw [moduloPow2_eq, Nat.testBit_eq_decide_div_mod_eq]
  constructor
  · intro h
    have heven : x / 2 ^ k % 2 = 0 := by
      by_contra hodd
      rw [decide_eq_true (by omega), Bool.toNat_true] at h
      omega
    rw [decide_eq_false (by omega), Bool.toNat_false, Nat.zero_mul] at h
    rw [← h, Nat.add_zero] at hdiv
    rw [← hdiv, pow_succ]
    exact Nat.mul_dvd_mul_left _ (Nat.dvd_of_mod_eq_zero heven)
  · rintro ⟨m, rfl⟩
    have hhalf : 2 ^ (k + 1) * m = 2 ^ k * (2 * m) := by rw [pow_succ, Nat.mul_assoc]
    rw [hhalf, Nat.mul_div_cancel_left _ hpos, Nat.mul_mod_right, Nat.mul_mod_right, decide_eq_false (by decide)]
    exact Nat.zero_mul _

/-- **Arithmetic by masks and shifts**: 0 counts as a power of two, and no negative width is wide enough for it; the
position of the highest bit is right; and the generated modulo functions are right for the multiples of twice the
modulus. -/
theorem helpers_iff (x : ℕ) (w : ℤ) (k : ℕ) :
    ((ispow2 x = true ↔ x.isPowerOfTwo) ↔ x ≠ 0) ∧ posmsb x = (if x = 0 then 0 else x.log2 + 1) ∧
      ((wideEnough w x = true ↔ (x : ℚ) < 2 ^ w) ↔ x ≠ 0 ∨ 0 ≤ w) ∧
      (moduloPow2 (2 ^ k) x = x % 2 ^ k ↔ 2 ^ (k + 1) ∣ x) := by
  refine ⟨?_, posmsb_cases x, ?_, moduloPow2_iff k x⟩
  · rw [ispow2_iff]
    constructor
    · rintro h rfl
      exact Nat.not_isPowerOfTwo_zero (h.1 (.inl rfl))
    · exact fun h => or_iff_right h
  · rcases Int.lt_or_le w 0 with hneg | hnonneg
    · have hsmall : (2 : ℚ) ^ w < 1 := zpow_lt_one_of_neg₀ (by norm_num) hneg
      have hpos : (0 : ℚ) < 2 ^ w := zpow_pos (by norm_num) w
      rw [wideEnough_neg hneg, or_iff_left (Int.not_le.2 hneg)]
      constructor
      · rintro h rfl
        exact Bool.false_ne_true (h.2 hpos)
      · intro h
        have hone : (1 : ℚ) ≤ x := by exact_mod_cast Nat.one_le_iff_ne_zero.2 h
        exact iff_of_false Bool.false_ne_true (not_lt.2 (hsmall.le.trans hone))
    · obtain ⟨n, rfl⟩ := Int.eq_ofNat_of_zero_le hnonneg
      refine iff_of_true ?_ (.inr hnonneg)
      rw [wideEnough_iff, zpow_natCast]
      exact_mod_cast Iff.rfl

/-- 0 counts as a power of two, and a number is not its own remainder. -/
theorem not_helpers : (ispow2 0 = true ∧ ¬Nat.isPowerOfTwo 0) ∧ moduloPow2 (2 ^ 3) 5 = 0 ∧ 5 % 2 ^ 3 = 5 := by
  decide

end Libtarp.Bits
