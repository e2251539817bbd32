import Mathlib.Logic.Function.Iterate
import Mathlib.Tactic.Common

/-!
# Division by a polynomial over two elements

A register of `w` bits holds a remainder, and `g` the divisor without its leading one.

* `divStep`: the register moves up, and a one that leaves it takes the divisor away.
* `divSteps_xor`: steps are linear.
* `divSteps_clear`: bits that do not leave the register only move up.
* `feed`: bits brought in at the top one by one; `feed_eq`: a register's width of them at once.
* `feed_burst`: where the divisor is odd, bits that differ in no more than the width of the register leave
  different remainders.
-/

namespace Libtarp.Lib

variable {w : ℕ} (g : BitVec w)

def divStep (r : BitVec w) : BitVec w := if r.msb then r <<< 1 ^^^ g else r <<< 1

def divSteps (n : ℕ) (r : BitVec w) : BitVec w := (divStep g)^[n] r

theorem divStep_xor (a b : BitVec w) : divStep g (a ^^^ b) = divStep g a ^^^ divStep g b := by
  unfold divStep
  rw [BitVec.msb_xor, BitVec.shiftLeft_xor_distrib]
  cases a.msb <;> cases b.msb
  · rfl
  · exact BitVec.xor_assoc ..
  · simp only [Bool.xor_false, if_true, Bool.false_eq_true, if_false]
    rw [BitVec.xor_assoc, BitVec.xor_comm (b <<< 1), ← BitVec.xor_assoc]
  · simp only [Bool.xor_self, Bool.false_eq_true, if_false, if_true]
    rw [BitVec.xor_comm (b <<< 1), BitVec.xor_assoc, ← BitVec.xor_assoc g, BitVec.xor_self, BitVec.zero_xor]

@[simp] theorem divSteps_zero (r : BitVec w) : divSteps g 0 r = r := rfl

theorem divSteps_succ (n : ℕ) (r : BitVec w) : divSteps g (n + 1) r = divStep g (divSteps g n r) :=
  Function.iterate_succ_apply' ..

theorem divSteps_add (m n : ℕ) (r : BitVec w) : divSteps g (m + n) r = divSteps g n (divSteps g m r) := by
  rw [Nat.add_comm]
  exact Function.iterate_add_apply ..

theorem divSteps_comm (m n : ℕ) (r : BitVec w) : divSteps g m (divSteps g n r) = divSteps g n (divSteps g m r) := by
  rw [← divSteps_add, Nat.add_comm, divSteps_add]

theorem divSteps_xor (n : ℕ) (a b : BitVec w) : divSteps g n (a ^^^ b) = divSteps g n a ^^^ divSteps g n b := by
  induction n with
  | zero => rfl
  | succ n ih => rw [divSteps_succ, ih, divStep_xor, divSteps_succ, divSteps_succ]

/-- Steps of a register whose highest bits are clear. -/
theorem divSteps_clear {n : ℕ} {r : BitVec w} (h : ∀ i < n, r.getMsbD i = false) : divSteps g n r = r <<< n := by
  induction n with
  | zero => exact (BitVec.shiftLeft_zero r).symm
  | succ n ih =>
    rw [divSteps_succ, ih fun i hi => h i (by omega)]
    have hmsb : (r <<< n).msb = false := by
      rw [BitVec.msb_shiftLeft]
      exact h n (by omega)
    unfold divStep
    rw [hmsb, BitVec.shiftLeft_add]
    rfl

theorem divSteps_zero_right (n : ℕ) : divSteps g n 0#w = 0#w := by
  rw [divSteps_clear g (by simp), BitVec.zero_shiftLeft]

/-! ## Bits brought in at the top -/

/-- A bit in the highest place of the register. -/
def topBit (w : ℕ) (b : Bool) : BitVec w := if b then BitVec.twoPow w (w - 1) else 0#w

/-- Bits in the highest places, the first one on top. -/
def packTop (w : ℕ) : List Bool → BitVec w
  | [] => 0#w
  | b :: bits => topBit w b ^^^ packTop w bits >>> 1

def feed (r : BitVec w) (bits : List Bool) : BitVec w := bits.foldl (fun r b => divStep g (r ^^^ topBit w b)) r

theorem getMsbD_topBit (b : Bool) {i : ℕ} (hi : i < w) : (topBit w b).getMsbD i = (decide (i = 0) && b) := by
  unfold topBit
  cases b with
  | false => simp
  | true =>
    rw [if_pos rfl, BitVec.getMsbD_twoPow, show w - (w - 1) - 1 = 0 by omega]
    simp [show w - 1 < w by omega]

theorem getMsbD_packTop (bits : List Bool) {i : ℕ} (hi : i < w) : (packTop w bits).getMsbD i = bits.getD i false := by
  induction bits generalizing i with
  | nil => simp [packTop]
  | cons b bits ih =>
    unfold packTop
    rw [BitVec.getMsbD_xor, getMsbD_topBit b hi, BitVec.getMsbD_ushiftRight]
    cases i with
    | zero => simp [hi]
    | succ i => simp [hi, ih (show i < w by omega)]

theorem packTop_injective {a b : List Bool} (hlen : a.length = b.length) (hw : a.length ≤ w)
    (h : packTop w a = packTop w b) : a = b := by
  refine List.ext_getElem hlen fun i hi hi' => ?_
  have hbit := congrArg (fun r => r.getMsbD i) h
  simp only [getMsbD_packTop _ (show i < w by omega)] at hbit
  simpa [hi, hi'] using hbit

theorem feed_append (r : BitVec w) (bits more : List Bool) : feed g r (bits ++ more) = feed g (feed g r bits) more :=
  List.foldl_append

/-- **Up to a register's width of bits** can be brought in at once. -/
theorem feed_eq (r : BitVec w) {bits : List Bool} (hlen : bits.length ≤ w) :
    feed g r bits = divSteps g bits.length (r ^^^ packTop w bits) := by
  induction bits generalizing r with
  | nil => simp [feed, packTop]
  | cons b bits ih =>
    simp only [List.length_cons] at hlen ⊢
    -- what is below the top can wait for one step
    have hback : divStep g (packTop w bits >>> 1) = packTop w bits := by
      have hmsb : (packTop w bits >>> 1).msb = false := by
        rw [BitVec.msb, BitVec.getMsbD_ushiftRight]
        simp
      unfold divStep
      rw [hmsb, if_neg Bool.false_ne_true]
      refine BitVec.eq_of_getMsbD_eq fun i hi => ?_
      rw [BitVec.getMsbD_shiftLeft, BitVec.getMsbD_ushiftRight]
      by_cases hlast : i + 1 < w
      · simp [hlast]
      · rw [getMsbD_packTop _ hi, List.getD_eq_getElem?_getD, List.getElem?_eq_none (by omega)]
        simp [hlast]
    have hone : divSteps g 1 (r ^^^ packTop w (b :: bits)) = divStep g (r ^^^ topBit w b) ^^^ packTop w bits := by
      rw [packTop, ← BitVec.xor_assoc, divSteps_xor]
      exact congrArg _ hback
    rw [show bits.length + 1 = 1 + bits.length by omega, divSteps_add, hone]
    exact ih _ (by omega)

/-! ## Odd divisors -/

variable {g}

theorem divStep_injective (hodd : g.getLsbD 0 = true) : Function.Injective (divStep g) := by
  intro a b h
  -- it is enough that only zero goes to zero
  have hzero : divStep g (a ^^^ b) = 0#w := by rw [divStep_xor, h, BitVec.xor_self]
  have hw : 0 < w := by
    rcases Nat.eq_zero_or_pos w with rfl | hw
    · simp at hodd
    · exact hw
  have hmsb : (a ^^^ b).msb = false := by
    by_contra hmsb
    unfold divStep at hzero
    rw [if_pos (by simpa using hmsb)] at hzero
    have hlow := congrArg (fun r => r.getLsbD 0) hzero
    simp only [BitVec.getLsbD_xor, BitVec.getLsbD_shiftLeft, hodd] at hlow
    simp [hw] at hlow
  have hxor : a ^^^ b = 0#w := by
    unfold divStep at hzero
    rw [hmsb, if_neg Bool.false_ne_true] at hzero
    refine BitVec.eq_of_getMsbD_eq fun i hi => ?_
    cases i with
    | zero => simpa [BitVec.msb] using hmsb
    | succ i =>
      have hbit := congrArg (fun r => r.getMsbD i) hzero
      simpa [BitVec.getMsbD_shiftLeft] using hbit
  exact BitVec.xor_eq_zero_iff.1 hxor

theorem divSteps_injective (hodd : g.getLsbD 0 = true) (n : ℕ) : Function.Injective (divSteps g n) :=
  (divStep_injective hodd).iterate n

theorem feed_injective (hodd : g.getLsbD 0 = true) (bits : List Bool) : Function.Injective fun r => feed g r bits := by
  induction bits with
  | nil => exact fun s t h => h
  | cons b bits ih =>
    intro s t h
    have hstep : s ^^^ topBit w b = t ^^^ topBit w b := divStep_injective hodd (ih h)
    simpa using hstep

/-- **Bits that differ in no more than the width of the register** are told apart, whatever comes before and after. -/
theorem feed_burst (hodd : g.getLsbD 0 = true) (r : BitVec w) {pre a b post : List Bool} (hlen : a.length = b.length)
    (hw : a.length ≤ w) (h : feed g r (pre ++ a ++ post) = feed g r (pre ++ b ++ post)) : a = b := by
  rw [feed_append, feed_append, feed_append, feed_append] at h
  have hburst := feed_injective hodd post h
  have hwb : b.length ≤ w := hlen ▸ hw
  rw [feed_eq g (feed g r pre) hw, feed_eq g (feed g r pre) hwb, ← hlen] at hburst
  have hpack := divSteps_injective hodd _ hburst
  exact packTop_injective hlen hw (by simpa using hpack)

end Libtarp.Lib
