import Libtarp.Common
import Mathlib.Algebra.Group.Nat.Defs

/-!
# Integer arithmetic (`math.hxx`)

A type of `w` bits wraps round at `2 ^ w`. The loop of `sqrt` takes a number of rounds. `intpow` multiplies in any type;
`intpow_eq`: it is the power.
-/

namespace Libtarp.Math

/-- The binary search of `sqrt`. -/
def sqrtLoop (w x : ℕ) (rounds l r : ℕ) : Except Fault (ℕ × ℕ) :=
  if r > (l + 1) % 2 ^ w then
    match rounds with
    | 0 => .error .rounds
    | rounds + 1 =>
      let m := (l + (r - l) / 2) % 2 ^ w
      if m ≤ x / m then sqrtLoop w x rounds m r else sqrtLoop w x rounds l m
  else .ok (l, r)

/-- `sqrt`, for an unsigned type of `w` bits. -/
def sqrt (w rounds x : ℕ) : Except Fault ℕ :=
  if x = 0 then .ok 0
  else if x < 4 then .ok 1
  else do
    let (l, r) ← sqrtLoop w x rounds 0 ((x / 2 + 1) % 2 ^ w)
    pure (if r ≤ x / r then r else l)

/-! ## Powers -/

variable {T : Type*} [Monoid T]

/-- The loop of `intpow`. -/
def intpowLoop (res base : T) (exp : ℕ) : T :=
  let res := if exp % 2 = 1 then res * base else res
  if _h : exp / 2 = 0 then res else intpowLoop res (base * base) (exp / 2)
termination_by exp
decreasing_by omega

/-- `intpow`. -/
def intpow (base : T) (exp : ℕ) : T := intpowLoop 1 base exp

theorem intpowLoop_eq (res base : T) (exp : ℕ) : intpowLoop res base exp = res * base ^ exp := by
  induction exp using Nat.strongRecOn generalizing res base with
  | ind exp ih =>
    have hsquares : (base * base) ^ (exp / 2) = base ^ (2 * (exp / 2)) := by rw [← pow_two, ← pow_mul]
    have hbit : (if exp % 2 = 1 then res * base else res) = res * base ^ (exp % 2) := by
      split_ifs with hodd
      · rw [hodd, pow_one]
      · rw [show exp % 2 = 0 by omega, pow_zero, mul_one]
    have hexp : exp % 2 + 2 * (exp / 2) = exp := by omega
    unfold intpowLoop
    dsimp only
    rw [hbit]
    split_ifs with hlast
    · rw [show exp % 2 = exp by omega]
    · rw [ih (exp / 2) (by omega), hsquares, mul_assoc, ← pow_add, hexp]

theorem intpow_eq (base : T) (exp : ℕ) : intpow base exp = base ^ exp := by
  unfold intpow
  rw [intpowLoop_eq, one_mul]

end Libtarp.Math
