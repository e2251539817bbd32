import Libtarp.Math
import Mathlib.Algebra.Group.Int.Defs

/-!
# The integer square root (`math.hxx`)

`sqrtHeld` is the code of `sqrt` again, with every value on the way held against the type.

* `sqrtLoop_spec`: the search narrows the interval down to the root.
* `sqrt_largest`: what is returned is the largest number whose square is not larger.
-/

namespace Libtarp.Math

variable {w x rounds l r : ℕ}

/-- A value of an unsigned type of `w` bits, or nothing where it is none. -/
def held (w : ℕ) (v : ℤ) : Option ℕ := if 0 ≤ v ∧ v < 2 ^ w then some v.toNat else none

/-- `m <= x / m`, or nothing where this divides by zero. -/
def heldSquare (x m : ℕ) : Option Bool := if m = 0 then none else some (m ≤ x / m)

/-- The binary search of `sqrt`, ending where a value wraps or the rounds are used up. -/
def sqrtLoopHeld (w x : ℕ) (rounds l r : ℕ) : Option (ℕ × ℕ) := do
  if r > (← held w (l + 1)) then
    match rounds with
    | 0 => none
    | rounds + 1 =>
      let d ← held w (r - l)
      let m ← held w (l + (d / 2 : ℕ))
      if ← heldSquare x m then sqrtLoopHeld w x rounds m r else sqrtLoopHeld w x rounds l m
  else some (l, r)

/-- `sqrt`, ending where a value wraps. -/
def sqrtHeld (w rounds x : ℕ) : Option ℕ :=
  if x = 0 then some 0
  else if x < 4 then some 1
  else do
    let r ← held w ((x / 2 : ℕ) + 1)
    let (l, r) ← sqrtLoopHeld w x rounds 0 r
    return if ← heldSquare x r then r else l

theorem held_eq {v : ℕ} {z : ℤ} (hz : z = v) (h : v < 2 ^ w) : held w z = some v := by
  have hcast : (v : ℤ) < 2 ^ w := by exact_mod_cast h
  unfold held
  rw [hz, if_pos ⟨Int.natCast_nonneg v, hcast⟩, Int.toNat_natCast]

theorem heldSquare_eq {m : ℕ} (h : 0 < m) : heldSquare x m = some (decide (m ≤ x / m)) := by
  unfold heldSquare
  rw [if_neg (by omega)]

/-- A number whose square is not larger is below one whose square is. -/
theorem root_lt (hl : l * l ≤ x) (hr : x < r * r) : l < r := by
  by_contra h
  have hle := Nat.mul_le_mul (Nat.le_of_not_lt h) (Nat.le_of_not_lt h)
  omega

/-- The search of an interval between neighbours ends. -/
theorem sqrtLoop_neighbours (hw : l + 1 < 2 ^ w) (rounds : ℕ) :
    sqrtLoopHeld w x rounds l (l + 1) = some (l, l + 1) ∧ sqrtLoop w x rounds l (l + 1) = .ok (l, l + 1) := by
  constructor
  · unfold sqrtLoopHeld
    rw [held_eq (Int.natCast_succ l).symm hw]
    exact if_neg (Nat.lt_irrefl _)
  · unfold sqrtLoop
    rw [Nat.mod_eq_of_lt hw, if_neg (Nat.lt_irrefl _)]

/-- The search of a longer interval goes on with one of its halves. -/
theorem sqrtLoop_halve {m : ℕ} (hm : m = l + (r - l) / 2) (hlong : l + 1 < r) (hw : r < 2 ^ w) (rounds : ℕ) :
    (sqrtLoopHeld w x (rounds + 1) l r =
        if m ≤ x / m then sqrtLoopHeld w x rounds m r else sqrtLoopHeld w x rounds l m) ∧
      sqrtLoop w x (rounds + 1) l r = if m ≤ x / m then sqrtLoop w x rounds m r else sqrtLoop w x rounds l m := by
  constructor
  · have hspan : held w ((r : ℤ) - l) = some (r - l) := held_eq (by omega) (by omega)
    have hmid : held w ((l : ℤ) + ((r - l) / 2 : ℕ)) = some m := held_eq (by omega) (by omega)
    rw [sqrtLoopHeld, held_eq (Int.natCast_succ l).symm (by omega)]
    refine (if_pos hlong).trans ?_
    rw [hspan]
    dsimp only [Option.bind_eq_bind, Option.bind_some]
    rw [hmid]
    dsimp only [Option.bind_eq_bind, Option.bind_some]
    rw [heldSquare_eq (by omega)]
    simp only [Option.bind_some, decide_eq_true_eq]
  · rw [sqrtLoop, Nat.mod_eq_of_lt (by omega), if_pos hlong]
    dsimp only
    rw [← hm, Nat.mod_eq_of_lt (by omega)]

/-- The search, with the root in an interval of at most `2 ^ rounds` numbers. -/
theorem sqrtLoop_spec (hl : l * l ≤ x) (hr : x < r * r) (hw : r < 2 ^ w) (hrounds : r - l ≤ 2 ^ rounds) :
    ∃ n, n * n ≤ x ∧ x < (n + 1) * (n + 1) ∧ n + 1 < 2 ^ w ∧ sqrtLoopHeld w x rounds l r = some (n, n + 1) ∧
      sqrtLoop w x rounds l r = .ok (n, n + 1) := by
  induction rounds generalizing l r with
  | zero =>
    have hlr := root_lt hl hr
    obtain rfl : r = l + 1 := by omega
    exact ⟨l, hl, hr, hw, sqrtLoop_neighbours hw 0⟩
  | succ rounds ih =>
    have hlr := root_lt hl hr
    rcases Nat.eq_or_lt_of_le hlr with hnext | hlong
    · subst hnext
      exact ⟨l, hl, hr, hw, sqrtLoop_neighbours hw (rounds + 1)⟩
    · obtain ⟨m, hm⟩ : ∃ m, m = l + (r - l) / 2 := ⟨_, rfl⟩
      obtain ⟨hheld, hloop⟩ := sqrtLoop_halve (x := x) hm hlong hw rounds
      have hpow : 2 ^ (rounds + 1) = 2 * 2 ^ rounds := Nat.pow_succ'
      rw [hheld, hloop]
      split_ifs with hsquare
      · rw [Nat.le_div_iff_mul_le (by omega)] at hsquare
        exact ih hsquare hr hw (by omega)
      · rw [Nat.le_div_iff_mul_le (by omega)] at hsquare
        exact ih hl (by omega) (by omega) (by omega)

/-- **The integer square root**: for every value of an unsigned type, the search ends with the largest number whose
square is not larger, and nothing wraps on the way. -/
theorem sqrt_largest (hx : x < 2 ^ w) : ∃ n, sqrtHeld w w x = some n ∧ sqrt w w x = .ok n ∧ n * n ≤ x ∧
    ∀ m, m * m ≤ x → m ≤ n := by
  by_cases h0 : x = 0
  · refine ⟨0, if_pos h0, if_pos h0, by omega, fun m hm => ?_⟩
    have := Nat.le_mul_self m
    omega
  by_cases h4 : x < 4
  · refine ⟨1, ?_, ?_, by omega, fun m hm => ?_⟩
    · rw [sqrtHeld, if_neg h0, if_pos h4]
    · rw [sqrt, if_neg h0, if_pos h4]
    · by_contra h
      have := Nat.mul_le_mul (show 2 ≤ m by omega) (show 2 ≤ m by omega)
      omega
  obtain ⟨r, hr⟩ : ∃ r, r = x / 2 + 1 := ⟨_, rfl⟩
  have habove : x < r * r := by
    have hsquare := Nat.mul_le_mul_left r (show 2 ≤ r by omega)
    omega
  have hrw : r < 2 ^ w := by omega
  have hspan : r - 0 ≤ 2 ^ w := by omega
  obtain ⟨n, hle, hlt, hfits, hheld, hloop⟩ := sqrtLoop_spec (Nat.zero_le x) habove hrw hspan
  have hlast : ¬n + 1 ≤ x / (n + 1) := by
    rw [Nat.le_div_iff_mul_le (by omega)]
    omega
  refine ⟨n, ?_, ?_, hle, fun m hm => Nat.le_of_lt_succ (root_lt hm hlt)⟩
  · rw [sqrtHeld, if_neg h0, if_neg h4, held_eq (by omega : (((x / 2 : ℕ) : ℤ) + 1) = r) (by omega)]
    dsimp only [Option.bind_eq_bind, Option.bind_some]
    rw [hheld]
    dsimp only [Option.bind_eq_bind, Option.bind_some]
    rw [heldSquare_eq (by omega), decide_eq_false hlast]
    rfl
  · rw [sqrt, if_neg h0, if_neg h4, ← hr, Nat.mod_eq_of_lt (by omega), hloop]
    exact congrArg Except.ok (if_neg hlast)

theorem sqrt_largest_uint8 : ∃ n, sqrtHeld 8 8 255 = some n ∧ sqrt 8 8 255 = .ok n ∧ n * n ≤ 255 ∧
    ∀ m, m * m ≤ 255 → m ≤ n :=
  sqrt_largest (by decide)

end Libtarp.Math
