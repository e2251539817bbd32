import Mathlib.Data.Nat.Notation
import Mathlib.Tactic.Common

/-!
# Operands

An operand has at least the 32 bits of an `int`: a narrower word is widened before an operation, and the result is cut
down again where it is assigned.

* `Undefined`: what an operation can leave undefined.
* `promote`, `assign`: a word as an operand, and back. `shl`, `shr`: shifts, which are not defined for amounts from the
  width of the operand on.
* `getLsbD_assign_shl`, `getLsbD_assign_shr`: the bits of what is assigned after a shift.
-/

namespace Libtarp.Lib

/-- What an operation can leave undefined: a result that is not a number of its signed type, and a shift by an amount
that is not smaller than the width of what is shifted. -/
inductive Undefined
  | overflow
  | shift
  deriving DecidableEq, Repr

variable {w n : ℕ}

/-- An unsigned word as an operand. -/
def promote (x : BitVec w) : BitVec (max w 32) := x.setWidth (max w 32)

/-- What is left of an operand where it is assigned. -/
def assign (w : ℕ) (x : BitVec n) : BitVec w := x.setWidth w

/-- `x << k`. -/
def shl (x : BitVec w) (k : ℕ) : Except Undefined (BitVec w) := if k < w then .ok (x <<< k) else .error .shift

/-- `x >> k`, of an unsigned `x`. -/
def shr (x : BitVec w) (k : ℕ) : Except Undefined (BitVec w) := if k < w then .ok (x >>> k) else .error .shift

variable {x : BitVec w} {k i : ℕ}

theorem shl_ok (h : k < w) : shl x k = .ok (x <<< k) := if_pos h

theorem shl_error (h : w ≤ k) : shl x k = .error .shift := if_neg (by omega)

theorem shr_ok (h : k < w) : shr x k = .ok (x >>> k) := if_pos h

@[simp] theorem getLsbD_promote (x : BitVec w) (i : ℕ) : (promote x).getLsbD i = x.getLsbD i := by
  unfold promote
  rw [BitVec.getLsbD_setWidth]
  by_cases h : i < max w 32
  · rw [decide_eq_true h, Bool.true_and]
  · rw [decide_eq_false h, Bool.false_and, BitVec.getLsbD_of_ge x i (by omega)]

@[simp] theorem getLsbD_assign (x : BitVec n) (hi : i < w) : (assign w x).getLsbD i = x.getLsbD i := by
  unfold assign
  rw [BitVec.getLsbD_setWidth, decide_eq_true hi, Bool.true_and]

/-- A word is shifted as its operand is. -/
theorem assign_shl (x : BitVec w) (k : ℕ) : assign w (promote x <<< k) = x <<< k := by
  refine BitVec.eq_of_getLsbD_eq (fun i hi => ?_)
  rw [getLsbD_assign _ hi, BitVec.getLsbD_shiftLeft, BitVec.getLsbD_shiftLeft, getLsbD_promote, decide_eq_true hi,
    decide_eq_true (by omega : i < max w 32)]

theorem assign_shr (x : BitVec w) (k : ℕ) : assign w (promote x >>> k) = x >>> k := by
  refine BitVec.eq_of_getLsbD_eq (fun i hi => ?_)
  rw [getLsbD_assign _ hi, BitVec.getLsbD_ushiftRight, BitVec.getLsbD_ushiftRight, getLsbD_promote]

end Libtarp.Lib
