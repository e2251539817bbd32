import Libtarp.Lib.Promotion
import Libtarp.Strings.Digits
import Mathlib.Algebra.Order.Group.Unbundled.Int

/-!
# Comparison up to a distance (`math.hxx`)

`equals` compares the numbers of the unsigned type that two integers are converted to. The distance is cut off at the
end of that type, and what is left of it is used below as well as above.

* `equals_eq`: what is compared.
* `equals_iff`: when the answer is that of the two integers.
-/

namespace Libtarp.Strings.IntType

open Lib

/-- The type in which a number of the type is an operand. -/
def promote (T : IntType) : IntType := if T.size < 4 then int32 else T

/-- `std::make_unsigned_t`. -/
def makeUnsigned (T : IntType) : IntType := ⟨false, T.size, 8 * T.size, T.size_mem, .inl rfl⟩

/-- An operation on two numbers of the type. -/
def operate (T : IntType) (op : ℤ → ℤ → ℤ) (x y : ℤ) : Except Undefined ℤ :=
  if T.promote.signed ∧ ¬T.promote.Fits (op x y) then .error .overflow else .ok (T.promote.wrap (op x y))

variable {T : IntType} {op : ℤ → ℤ → ℤ} {x y : ℤ}

/-- The limits of a type other than `bool`, in terms of the first number beyond its unsigned counterpart. -/
theorem limits (hT : T.bits = 8 * T.size) :
    T.makeUnsigned.max = 2 ^ T.bits - 1 ∧ (T.signed = false → T.min = 0 ∧ T.max = 2 ^ T.bits - 1) ∧
      (T.signed = true → 2 * T.min = -2 ^ T.bits ∧ 2 * T.max = 2 ^ T.bits - 2) := by
  have hsize := T.size_cases
  have hpow : (2 : ℤ) ^ T.bits = 2 * 2 ^ (T.bits - 1) := by
    rw [← pow_succ', Nat.sub_add_cancel (by omega)]
  refine ⟨?_, fun h => ?_, fun h => ?_⟩
  · rw [hT]
    rfl
  · unfold min max
    rw [h]
    exact ⟨rfl, rfl⟩
  · unfold min max
    rw [h, if_pos rfl, if_pos rfl]
    omega

theorem promote_narrow (h : T.size < 4) : T.promote = int32 := if_pos h

theorem promote_wide (h : 4 ≤ T.size) : T.promote = T := if_neg (by omega)

/-- The limits of a type that is narrower than an `int`. -/
theorem narrow_limits (h : T.size < 4) : -65536 ≤ T.min ∧ T.max ≤ 65535 := by
  have hbits := T.bits_le
  have hsizes := T.size_cases
  have hle : (2 : ℤ) ^ T.bits ≤ 2 ^ 16 := pow_le_pow_right₀ (by decide) (by omega)
  have hle' : (2 : ℤ) ^ (T.bits - 1) ≤ 2 ^ 16 := pow_le_pow_right₀ (by decide) (by omega)
  constructor
  · unfold min
    split_ifs <;> omega
  · unfold max
    split_ifs <;> omega

/-- What is an `int`. -/
theorem fits_int32 (hlow : -2147483648 ≤ x) (hhigh : x ≤ 2147483647) : int32.Fits x := by
  constructor
  · rwa [show int32.min = -2147483648 by decide]
  · rwa [show int32.max = 2147483647 by decide]

/-- Every number of the type is an operand. -/
theorem fits_promote (h : T.Fits x) : T.promote.Fits x := by
  unfold promote
  split_ifs with hsize
  · obtain ⟨hmin, hmax⟩ := h
    obtain ⟨hlow, hhigh⟩ := narrow_limits hsize
    exact fits_int32 (by omega) (by omega)
  · exact h

theorem operate_of_fits (h : T.promote.Fits (op x y)) : T.operate op x y = .ok (op x y) := by
  unfold operate
  rw [if_neg (fun hover => hover.2 h), wrap_of_fits h]

theorem operate_fits (h : T.Fits (op x y)) : T.operate op x y = .ok (op x y) := operate_of_fits (fits_promote h)

theorem operate_narrow (hsize : T.size < 4) (h : int32.Fits (op x y)) : T.operate op x y = .ok (op x y) :=
  operate_of_fits (by rwa [promote_narrow hsize])

theorem operate_overflow (hsize : 4 ≤ T.size) (hs : T.signed = true) (h : ¬T.Fits (op x y)) :
    T.operate op x y = .error .overflow := by
  unfold operate
  rw [promote_wide hsize, if_pos ⟨hs, h⟩]

/-- What a number of the type becomes in the unsigned type. -/
theorem makeUnsigned_wrap (hT : T.bits = 8 * T.size) (h : T.Fits x) :
    T.makeUnsigned.wrap x = if x < 0 then x + 2 ^ T.bits else x := by
  obtain ⟨-, hunsigned, hsigned⟩ := limits hT
  obtain ⟨hmin, hmax⟩ := h
  have hpos : (0 : ℤ) < 2 ^ T.bits := Int.pow_pos (by decide)
  have hmod : T.makeUnsigned.wrap x = x % 2 ^ T.bits := by
    rw [hT]
    rfl
  have hlt : x < 2 ^ T.bits ∧ -2 ^ T.bits ≤ x := by
    cases hs : T.signed with
    | true =>
      have := hsigned hs
      omega
    | false =>
      have := hunsigned hs
      omega
  rw [hmod]
  split_ifs with hneg
  · rw [← Int.add_emod_right, Int.emod_eq_of_lt (by omega) (by omega)]
  · rw [Int.emod_eq_of_lt (by omega) hlt.1]

/-- Converted to the type first, a number becomes the same in the unsigned type. -/
theorem makeUnsigned_wrap_wrap (hT : T.bits = 8 * T.size) (x : ℤ) :
    T.makeUnsigned.wrap (T.wrap x) = T.makeUnsigned.wrap x := by
  have hmod : ∀ y, T.makeUnsigned.wrap y = y % 2 ^ T.bits := by
    intro y
    rw [hT]
    rfl
  rw [hmod, hmod]
  unfold wrap
  split_ifs
  · have hcast : ((2 ^ T.bits : ℕ) : ℤ) = 2 ^ T.bits := by push_cast; rfl
    rw [← hcast, Int.bmod_emod]
  · rw [Int.emod_emod]

theorem makeUnsigned_fits (T : IntType) (x : ℤ) : T.makeUnsigned.Fits (T.makeUnsigned.wrap x) := by
  have hpos : (0 : ℤ) < 2 ^ (8 * T.size) := Int.pow_pos (by decide)
  have hnonneg : 0 ≤ x % 2 ^ (8 * T.size) := Int.emod_nonneg x (by omega)
  exact ⟨hnonneg, Int.le_sub_one_of_lt (Int.emod_lt_of_pos x hpos)⟩

end Libtarp.Strings.IntType

namespace Libtarp.Math

open Lib Strings

/-- The distance without its sign. -/
def discardSign (T : IntType) (E : ℤ) : Except Undefined ℤ :=
  if E < 0 then T.wrap <$> T.operate (· - ·) 0 E else .ok E

/-- The comparison in the unsigned type. -/
def compareUnsigned (U : IntType) (Au Bu Eu : ℤ) : Except Undefined Bool := do
  let head ← U.wrap <$> U.operate (· - ·) U.max Bu
  let Eu := if Eu > head then head else Eu
  if Au > (← U.operate (· + ·) Bu Eu) then return false
  let tail ← U.wrap <$> U.operate (· - ·) Bu U.min
  let Eu := if Eu > tail then tail else Eu
  if Au < (← U.operate (· - ·) Bu Eu) then return false
  return true

/-- `equals`, for an integral type and a distance of the same type. A `bool` has no unsigned counterpart. -/
def equals (T : IntType) (a b epsilon : ℤ) : Except Undefined Bool := do
  let E ← discardSign T epsilon
  let U := T.makeUnsigned
  compareUnsigned U (U.wrap a) (U.wrap b) (U.wrap E)

variable {T : IntType} {a b epsilon : ℤ}

/-- The sign is discarded, unless this overflows. -/
theorem discardSign_eq (hT : T.bits = 8 * T.size) (he : T.Fits epsilon) :
    discardSign T epsilon =
      if T.signed = true ∧ 4 ≤ T.size ∧ epsilon = T.min then .error .overflow
      else .ok (if epsilon < 0 then T.wrap (-epsilon) else epsilon) := by
  obtain ⟨-, hunsigned, hsigned⟩ := IntType.limits hT
  have hpos : (0 : ℤ) < 2 ^ T.bits := Int.pow_pos (by decide)
  unfold discardSign
  by_cases hneg : epsilon < 0
  · rw [if_pos hneg, if_pos hneg]
    have hs : T.signed = true := by
      cases hs : T.signed with
      | true => rfl
      | false => exact absurd he (IntType.not_fits_neg hs hneg)
    obtain ⟨hmin, hmax⟩ := hsigned hs
    obtain ⟨he, he'⟩ := he
    by_cases hlast : epsilon = T.min
    · by_cases hsize : 4 ≤ T.size
      · rw [if_pos ⟨hs, hsize, hlast⟩]
        rw [IntType.operate_overflow hsize hs (fun hfits => absurd hfits.2 (by omega))]
        rfl
      · rw [if_neg (fun h => hsize h.2.1)]
        obtain ⟨hlow, -⟩ := IntType.narrow_limits (Nat.not_le.1 hsize)
        rw [IntType.operate_narrow (by omega) (IntType.fits_int32 (by omega) (by omega)), Int.zero_sub]
        rfl
    · have hfits : T.Fits (0 - epsilon) := ⟨by omega, by omega⟩
      rw [if_neg (fun h => hlast h.2.2), IntType.operate_fits hfits, Int.zero_sub]
      rfl
  · rw [if_neg hneg, if_neg hneg, if_neg]
    · rintro ⟨hs, -, hlast⟩
      have := hsigned hs
      omega

/-- Its value in the unsigned type. -/
theorem discardSign_value (hT : T.bits = 8 * T.size) (he : T.Fits epsilon) :
    T.makeUnsigned.wrap (if epsilon < 0 then T.wrap (-epsilon) else epsilon) = epsilon.natAbs := by
  obtain ⟨hU, hunsigned, hsigned⟩ := IntType.limits hT
  have hpos : (0 : ℤ) < 2 ^ T.bits := Int.pow_pos (by decide)
  have hfits : T.makeUnsigned.Fits epsilon.natAbs := by
    obtain ⟨he, he'⟩ := he
    refine ⟨Int.natCast_nonneg _, ?_⟩
    rw [hU]
    cases hs : T.signed with
    | true =>
      have := hsigned hs
      omega
    | false =>
      have := hunsigned hs
      omega
  split_ifs with hneg
  · rw [IntType.makeUnsigned_wrap_wrap hT, show -epsilon = epsilon.natAbs by omega, IntType.wrap_of_fits hfits]
  · rw [show epsilon = epsilon.natAbs by omega]
    exact IntType.wrap_of_fits hfits

/-- **What is compared**: the distance is cut off above `Bu` for both sides. -/
theorem compareUnsigned_eq {U : IntType} {Au Bu Eu : ℤ} (hmin : U.min = 0) (hA : U.Fits Au) (hB : U.Fits Bu)
    (hE : U.Fits Eu) : compareUnsigned U Au Bu Eu =
      .ok (decide (Au - Bu ≤ Eu ∧ Bu - Au ≤ Eu ∧ Bu - Au ≤ U.max - Bu)) := by
  obtain ⟨hA, hA'⟩ := hA
  obtain ⟨hB, hB'⟩ := hB
  obtain ⟨hE, hE'⟩ := hE
  have hhead : U.Fits (U.max - Bu) := ⟨by omega, by omega⟩
  have htail : U.Fits (Bu - U.min) := ⟨by omega, by omega⟩
  obtain ⟨Eh, hEh⟩ : ∃ Eh, Eh = if Eu > U.max - Bu then U.max - Bu else Eu := ⟨_, rfl⟩
  obtain ⟨Et, hEt⟩ : ∃ Et, Et = if Eh > Bu - U.min then Bu - U.min else Eh := ⟨_, rfl⟩
  have hadd : U.Fits (Bu + Eh) := by
    constructor
    · split_ifs at hEh <;> omega
    · split_ifs at hEh <;> omega
  have hsub : U.Fits (Bu - Et) := by
    constructor
    · split_ifs at hEh hEt <;> omega
    · split_ifs at hEh hEt <;> omega
  unfold compareUnsigned
  rw [IntType.operate_fits hhead, IntType.operate_fits htail]
  simp only [Functor.map, Except.map, bind, Except.bind, pure, Except.pure, IntType.wrap_of_fits hhead,
    IntType.wrap_of_fits htail, ← hEh, ← hEt, IntType.operate_fits hadd, IntType.operate_fits hsub]
  split_ifs with h1 h2
  · rw [decide_eq_false]
    split_ifs at hEh <;> omega
  · rw [decide_eq_false]
    split_ifs at hEh hEt <;> omega
  · rw [decide_eq_true]
    split_ifs at hEh hEt <;> omega

theorem equals_eq (hT : T.bits = 8 * T.size) (he : T.Fits epsilon) : equals T a b epsilon =
    if T.signed = true ∧ 4 ≤ T.size ∧ epsilon = T.min then .error .overflow
    else .ok (decide (T.makeUnsigned.wrap a - T.makeUnsigned.wrap b ≤ epsilon.natAbs ∧
      T.makeUnsigned.wrap b - T.makeUnsigned.wrap a ≤ epsilon.natAbs ∧
      T.makeUnsigned.wrap b - T.makeUnsigned.wrap a ≤ T.makeUnsigned.max - T.makeUnsigned.wrap b)) := by
  have hfits := T.makeUnsigned_fits
  unfold equals
  rw [discardSign_eq hT he]
  split_ifs with hlast
  · rfl
  all_goals
    refine (compareUnsigned_eq rfl (hfits _) (hfits _) (hfits _)).trans ?_
    have hvalue := discardSign_value hT he
    simp only [*, if_true, if_false] at hvalue
    rw [hvalue]

/-- The integers that are compared as they should be: the sign of the distance can be discarded, and what the comparison
of the unsigned counterparts says is what the integers say. Counterparts of integers of one sign are as far apart as
these, and those of others round the other end of the type. -/
structure Comparable (T : IntType) (a b epsilon : ℤ) : Prop where
  discarded : ¬(T.signed = true ∧ 4 ≤ T.size ∧ epsilon = T.min)
  unsigned : T.signed = false → |epsilon| < b - a ∨ b - a ≤ T.max - b
  negative : T.signed = true → a < 0 → b < 0 → |epsilon| < b - a ∨ b - a ≤ -1 - b
  above : T.signed = true → b < 0 → 0 ≤ a →
    |epsilon| < a - b ∧ (|epsilon| < 2 ^ T.bits - (a - b) ∨ -1 - b < 2 ^ T.bits - (a - b))
  below : T.signed = true → a < 0 → 0 ≤ b → (|epsilon| < b - a ↔ |epsilon| < 2 ^ T.bits - (b - a))

/-- **Comparison up to a distance**: when the answer is whether the integers are that near. -/
theorem equals_iff (hT : T.bits = 8 * T.size) (ha : T.Fits a) (hb : T.Fits b) (he : T.Fits epsilon) :
    equals T a b epsilon = .ok (decide (|a - b| ≤ |epsilon|)) ↔ Comparable T a b epsilon := by
  obtain ⟨hU, hunsigned, hsigned⟩ := IntType.limits hT
  have hpos : (0 : ℤ) < 2 ^ T.bits := Int.pow_pos (by decide)
  rw [equals_eq hT he, IntType.makeUnsigned_wrap hT ha, IntType.makeUnsigned_wrap hT hb, hU]
  obtain ⟨ha, ha'⟩ := ha
  obtain ⟨hb, hb'⟩ := hb
  obtain ⟨he, he'⟩ := he
  by_cases hlast : T.signed = true ∧ 4 ≤ T.size ∧ epsilon = T.min
  · rw [if_pos hlast]
    exact ⟨nofun, fun h => absurd hlast h.discarded⟩
  · rw [if_neg hlast, Except.ok.injEq, decide_eq_decide, Int.abs_eq_natAbs, Int.abs_eq_natAbs]
    cases hs : T.signed with
    | false =>
      obtain ⟨hmin, hmax⟩ := hunsigned hs
      rw [if_neg (by omega), if_neg (by omega)]
      constructor
      · intro h
        refine ⟨hlast, fun _ => ?_, ?_, ?_, ?_⟩
        · rw [Int.abs_eq_natAbs]
          omega
        all_goals
          intro hs'
          exact absurd (hs.symm.trans hs') Bool.false_ne_true
      · intro h
        have hroom := h.unsigned hs
        rw [Int.abs_eq_natAbs] at hroom
        omega
    -- the counterparts of two integers are as far apart as they are, or what is left of the type is
    | true =>
      obtain ⟨hmin, hmax⟩ := hsigned hs
      constructor
      · intro h
        refine ⟨hlast, fun hs' => absurd (hs'.symm.trans hs) Bool.false_ne_true, ?_, ?_, ?_⟩
        all_goals
          intro _ h1 h2
          rw [Int.abs_eq_natAbs]
          split_ifs at h <;> omega
      · intro h
        have hnegative := h.negative hs
        have habove := h.above hs
        have hbelow := h.below hs
        rw [Int.abs_eq_natAbs] at hnegative habove hbelow
        split_ifs <;> omega

/-- Two integers round 0. -/
theorem not_equals_round_zero :
    equals IntType.int32 (-1) 1 2 = .ok false ∧
      equals IntType.int32 (-1) 1 2 ≠ .ok (decide (|(-1 : ℤ) - 1| ≤ |(2 : ℤ)|)) := by
  decide

theorem equals_iff_int32 : equals IntType.int32 (-1) 1 2 = .ok (decide (|(-1 : ℤ) - 1| ≤ |(2 : ℤ)|)) ↔
    Comparable IntType.int32 (-1) 1 2 :=
  equals_iff rfl (by decide) (by decide) (by decide)

end Libtarp.Math
