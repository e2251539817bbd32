import Libtarp.Math
import Libtarp.Strings.Integer
import Mathlib.Algebra.Order.Ring.Int
import Mathlib.Data.Nat.Log

/-!
# Clearing digits (`string_utils.hxx`, `functools.hxx`)

The power of ten is computed as an `int` and then divided by as an `unsigned`, to which a negative number of no more
bits is converted.

* `IntType.convert`: a conversion, and whether it changes the number.
* `intpow_exact_iff`: when the power is computed without wrapping.
* `clear_iff`: when digits are cleared.
-/

namespace Libtarp.Strings

open Lib

/-! ## Arithmetic that wraps -/

/-- A number, and whether anything wrapped on the way to it. -/
structure Computed where
  value : ℤ
  wrapped : Bool
  deriving DecidableEq, Repr

namespace IntType

/-- The number of the type that a number is converted to. A `bool` is only made of 0 and 1 here. -/
def wrap (T : IntType) (x : ℤ) : ℤ := if T.signed then x.bmod (2 ^ T.bits) else x % 2 ^ T.bits

/-- A conversion to the type. -/
def convert (T : IntType) (a : Computed) : Computed := ⟨T.wrap a.value, a.wrapped || !decide (T.Fits a.value)⟩

/-- An operation in the type. -/
def compute (T : IntType) (op : ℤ → ℤ → ℤ) (a b : Computed) : Computed :=
  T.convert ⟨op a.value b.value, a.wrapped || b.wrapped⟩

/-- The type that a number of the type and an `unsigned` are converted to for an operation. -/
def withUnsigned (T : IntType) : IntType := if T.size = 8 then T else uint32

variable {T : IntType} {x y : ℤ} {a b : Computed} {op : ℤ → ℤ → ℤ} {w : Bool}

theorem wrap_of_fits (h : T.Fits x) : T.wrap x = x := by
  obtain ⟨hmin, hmax⟩ := h
  have hbits := T.bits_le
  unfold wrap
  unfold min at hmin
  unfold max at hmax
  split_ifs at hmin hmax ⊢ with hsigned
  · obtain ⟨k, hk⟩ : ∃ k, T.bits = k + 1 := ⟨T.bits - 1, by omega⟩
    have hpow : (2 : ℤ) ^ (k + 1) = 2 * 2 ^ k := Int.pow_succ' ..
    rw [hk, Nat.add_sub_cancel] at hmin hmax
    rw [hk]
    refine Int.bmod_eq_of_le_mul_two ?_ ?_
    · push_cast
      omega
    · push_cast
      omega
  · exact Int.emod_eq_of_lt hmin (by omega)

/-- A number of the type is kept. -/
theorem convert_fits (h : T.Fits x) (w : Bool) : T.convert ⟨x, w⟩ = ⟨x, w⟩ := by
  unfold convert
  rw [wrap_of_fits h, decide_eq_true h, Bool.not_true, Bool.or_false]

theorem convert_wrapped (h : a.wrapped = true ∨ ¬T.Fits a.value) : (T.convert a).wrapped = true := by
  unfold convert
  dsimp only
  rcases h with h | h
  · rw [h, Bool.true_or]
  · rw [decide_eq_false h, Bool.not_false, Bool.or_true]

theorem fits_of_convert (h : (T.convert a).wrapped = false) : a.wrapped = false ∧ T.Fits a.value := by
  constructor
  · by_contra ha
    exact Bool.false_ne_true (h.symm.trans (convert_wrapped (.inl (eq_true_of_ne_false ha))))
  · by_contra hfits
    exact Bool.false_ne_true (h.symm.trans (convert_wrapped (.inr hfits)))

/-- An operation that does not wrap makes what it does of numbers that did not wrap. -/
theorem fits_of_compute (h : (T.compute op a b).wrapped = false) :
    a.wrapped = false ∧ b.wrapped = false ∧ T.Fits (op a.value b.value) ∧ (T.compute op a b).value = op a.value b.value := by
  obtain ⟨hwrapped, hfits⟩ := fits_of_convert h
  obtain ⟨ha, hb⟩ := Bool.or_eq_false_iff.1 hwrapped
  exact ⟨ha, hb, hfits, wrap_of_fits hfits⟩

theorem compute_fits (h : T.Fits (op x y)) : T.compute op ⟨x, false⟩ ⟨y, false⟩ = ⟨op x y, false⟩ := convert_fits h false

theorem compute_wrapped (h : a.wrapped = true ∨ b.wrapped = true) : (T.compute op a b).wrapped = true := by
  refine convert_wrapped (.inl ?_)
  rcases h with h | h
  · exact Bool.or_eq_true_iff.2 (.inl h)
  · exact Bool.or_eq_true_iff.2 (.inr h)

theorem one_fits (T : IntType) : T.Fits 1 := by
  have hmin := T.min_nonpos
  refine ⟨by omega, ?_⟩
  unfold max
  have hbits := T.bits_eq
  have hsize := T.size_cases
  split_ifs with hsigned
  · have hpow : (2 : ℤ) ^ 1 ≤ 2 ^ (T.bits - 1) := by
      refine pow_le_pow_right₀ (by decide) ?_
      rcases hbits with hbits | ⟨-, -, hunsigned⟩
      · omega
      · exact absurd (hsigned.symm.trans hunsigned) nofun
    omega
  · have hpow : (2 : ℤ) ^ 1 ≤ 2 ^ T.bits := pow_le_pow_right₀ (by decide) (by omega)
    omega

/-- Between a number of the type and 0 there are only numbers of the type. -/
theorem fits_between (h : T.Fits x) (hy : 0 ≤ y ∧ y ≤ x ∨ x ≤ y ∧ y ≤ 0) : T.Fits y := by
  have hmin := T.min_nonpos
  have hmax := T.max_nonneg
  obtain ⟨hx, hx'⟩ := h
  exact ⟨by omega, by omega⟩

end IntType

/-! ## The power -/

/-- The loop of `intpow`, in a type that wraps. -/
def intpowLoop (T : IntType) (res base : Computed) (exp : ℕ) : Computed :=
  let res := if exp % 2 = 1 then T.compute (· * ·) res base else res
  if _h : exp / 2 = 0 then res else intpowLoop T res (T.compute (· * ·) base base) (exp / 2)
termination_by exp
decreasing_by omega

/-- `intpow`, in a type that wraps. -/
def intpow (T : IntType) (base : ℤ) (exp : ℕ) : Computed := intpowLoop T ⟨1, false⟩ ⟨base, false⟩ exp

section Power

variable {T : IntType} {res base : Computed} {exp : ℕ} {r b : ℤ}

/-- Without wrapping the loop is that of whole numbers, and stays in the type. -/
theorem intpowLoop_exact (h : (intpowLoop T res base exp).wrapped = false) :
    res.wrapped = false ∧ (exp ≠ 0 → base.wrapped = false) ∧
      (intpowLoop T res base exp).value = Math.intpowLoop res.value base.value exp ∧
      (T.Fits res.value → T.Fits (intpowLoop T res base exp).value) := by
  induction exp using Nat.strong_induction_on generalizing res base with
  | _ exp ih =>
    -- the multiplication of a round, if there is one
    have hround : ∀ {res'}, (if exp % 2 = 1 then T.compute (· * ·) res base else res) = res' → res'.wrapped = false →
        res.wrapped = false ∧ (exp % 2 = 1 → base.wrapped = false) ∧
          res'.value = (if exp % 2 = 1 then res.value * base.value else res.value) ∧
          (T.Fits res.value → T.Fits res'.value) := by
      rintro res' rfl hres'
      split_ifs at hres' ⊢ with hodd
      · obtain ⟨hres, hbase, hfits, hvalue⟩ := IntType.fits_of_compute hres'
        exact ⟨hres, fun _ => hbase, hvalue, fun _ => hvalue ▸ hfits⟩
      · exact ⟨hres', fun hodd' => absurd hodd' hodd, rfl, id⟩
    unfold intpowLoop at h ⊢
    unfold Math.intpowLoop
    dsimp only at h ⊢
    by_cases hlast : exp / 2 = 0
    · rw [dif_pos hlast] at h ⊢
      rw [dif_pos hlast]
      obtain ⟨hres, hbase, hvalue, hfits⟩ := hround rfl h
      exact ⟨hres, fun hexp => hbase (by omega), hvalue, hfits⟩
    · rw [dif_neg hlast] at h ⊢
      rw [dif_neg hlast]
      obtain ⟨hres', hbase', hvalue', hfits'⟩ := ih (exp / 2) (by omega) h
      obtain ⟨hbase, -, -, hsquare⟩ := IntType.fits_of_compute (hbase' hlast)
      obtain ⟨hres, -, hvalue, hfits⟩ := hround rfl hres'
      rw [hvalue, hsquare] at hvalue'
      exact ⟨hres, fun _ => hbase, hvalue', fun hr => hfits' (hfits hr)⟩

/-- A power of the type is computed without wrapping. -/
theorem intpowLoop_fits (hr : 1 ≤ r) (hb : 1 ≤ b) (hmax : r * b ^ exp ≤ T.max) :
    intpowLoop T ⟨r, false⟩ ⟨b, false⟩ exp = ⟨r * b ^ exp, false⟩ := by
  have hfits : ∀ {y}, 1 ≤ y → y ≤ T.max → T.Fits y := by
    intro y hy hle
    have hmin := T.min_nonpos
    exact ⟨by omega, hle⟩
  induction exp using Nat.strong_induction_on generalizing r b with
  | _ exp ih =>
    have hone : ∀ k, 1 ≤ b ^ k := fun k => one_le_pow₀ hb
    have hsquares : (b * b) ^ (exp / 2) = b ^ (2 * (exp / 2)) := by rw [← pow_two, ← pow_mul]
    -- a round keeps `r * b ^ exp`
    obtain ⟨r', hr', hvalue, hres⟩ : ∃ r', 1 ≤ r' ∧ r' * (b * b) ^ (exp / 2) = r * b ^ exp ∧
        (if exp % 2 = 1 then T.compute (· * ·) ⟨r, false⟩ ⟨b, false⟩ else ⟨r, false⟩) = ⟨r', false⟩ := by
      split_ifs with hodd
      · have hexp : exp = 1 + 2 * (exp / 2) := by omega
        have hpower : r * b * (b * b) ^ (exp / 2) = r * b ^ exp := by
          rw [hsquares, mul_assoc, ← pow_succ']
          congr 2
          omega
        have hrb : 1 ≤ r * b := one_le_mul_of_one_le_of_one_le hr hb
        refine ⟨r * b, hrb, hpower, IntType.compute_fits (hfits hrb ?_)⟩
        refine le_trans ?_ hmax
        rw [← hpower, hsquares]
        exact le_mul_of_one_le_right (by omega) (hone _)
      · refine ⟨r, hr, ?_, rfl⟩
        rw [hsquares]
        congr 2
        omega
    -- the round that `hres` is about is followed by the others, unless it is the last one
    unfold intpowLoop
    dsimp only
    rw [hres]
    by_cases hlast : exp / 2 = 0
    · rw [dif_pos hlast, ← hvalue, hlast, pow_zero, mul_one]
    · have hbb : 1 ≤ b * b := one_le_mul_of_one_le_of_one_le hb hb
      have hsquare : T.Fits (b * b) := by
        refine hfits hbb (le_trans ?_ hmax)
        have hle : b * b ≤ b ^ exp := by
          rw [← pow_two]
          exact pow_le_pow_right₀ hb (by omega)
        exact hle.trans (le_mul_of_one_le_left (by omega) hr)
      rw [dif_neg hlast, IntType.compute_fits hsquare, ih (exp / 2) (by omega) hr' hbb (hvalue ▸ hmax), hvalue]

/-- **A power is computed without wrapping** if it is of the type. -/
theorem intpow_exact_iff (hb : 1 ≤ b) : (intpow T b exp).wrapped = false ↔ b ^ exp ≤ T.max := by
  constructor
  · intro h
    obtain ⟨-, -, hvalue, hfits⟩ := intpowLoop_exact h
    have hmax := (hfits T.one_fits).2
    rwa [hvalue, Math.intpowLoop_eq, one_mul] at hmax
  · intro hmax
    unfold intpow
    rw [intpowLoop_fits (le_refl 1) hb (by rwa [one_mul])]

theorem intpow_value (hb : 1 ≤ b) (hmax : b ^ exp ≤ T.max) : intpow T b exp = ⟨b ^ exp, false⟩ := by
  unfold intpow
  rw [intpowLoop_fits (le_refl 1) hb (by rwa [one_mul]), one_mul]

end Power

/-! ## Clearing -/

/-- The bits that a power of ten needs: `n / log10(2)`, rounded up. For the numbers of digits that get here the rounding
of a `float` makes no difference. -/
def numBitsNeeded (n : ℕ) : ℕ := Nat.clog 2 (10 ^ n)

/-- `clear_lo_digits`: what is returned, and whether anything wrapped. -/
def clearLoDigits (T : IntType) (input : ℤ) (numDigitsToClear : UInt8) : Except Exception Computed :=
  if numDigitsToClear.toNat > (decimal input).length then .ok ⟨0, false⟩
  else if numBitsNeeded numDigitsToClear.toNat > T.size * 8 then
    .error (.invalidArgument "Excessive input values would cause wraparound")
  else
    let divisor := IntType.uint32.convert (intpow .int32 10 numDigitsToClear.toNat)
    let divisor := T.withUnsigned.convert divisor
    let quotient := T.withUnsigned.compute Int.tdiv (T.withUnsigned.convert ⟨input, false⟩) divisor
    .ok (T.convert (T.withUnsigned.compute (· * ·) quotient divisor))

/-- `clear_digits::operator()`. -/
def clearDigits (T : IntType) (mNumDigits : UInt8) (input : ℤ) : Except Exception Computed :=
  clearLoDigits T input mNumDigits

/-- The number without its last digits, and nothing wrapped; or an exception. -/
def Cleared (input : ℤ) (n : ℕ) : Except Exception Computed → Prop
  | .error _ => True
  | .ok result => result = ⟨input.tdiv (10 ^ n) * 10 ^ n, false⟩

/-- Both of the functions clear the digits. -/
structure ClearRight (T : IntType) (input : ℤ) (n : UInt8) : Prop where
  function : Cleared input n.toNat (clearLoDigits T input n)
  functor : Cleared input n.toNat (clearDigits T n input)

variable {T : IntType} {x : ℤ} {k : ℤ} {n : UInt8}

/-- A number of fewer digits. -/
theorem tdiv_eq_zero_of_length (h : (decimal x).length < n.toNat) : x.tdiv (10 ^ n.toNat) = 0 := by
  have hdigits : (Nat.toDigits 10 x.natAbs).length ≤ (decimal x).length := by
    unfold decimal
    split_ifs
    · exact Nat.le_succ _
    · exact Nat.le_refl _
  have hlt : x.natAbs < 10 ^ n.toNat := (Nat.length_toDigits_le_iff (by decide) (by omega)).1 (hdigits.trans h.le)
  refine Int.natAbs_eq_zero.1 ?_
  rw [Int.natAbs_tdiv, Int.natAbs_pow]
  exact Nat.div_eq_of_lt hlt

theorem numBitsNeeded_gt_iff (T : IntType) (n : ℕ) : numBitsNeeded n > T.size * 8 ↔ 2 ^ (8 * T.size) < 10 ^ n := by
  unfold numBitsNeeded
  rw [gt_iff_lt, Nat.lt_clog_iff_pow_lt (by decide), Nat.mul_comm]

/-- Division toward zero, and what it leaves of the number. -/
theorem tdiv_between (hk : 1 ≤ k) (x : ℤ) :
    (0 ≤ x.tdiv k ∧ x.tdiv k ≤ x ∨ x ≤ x.tdiv k ∧ x.tdiv k ≤ 0) ∧
      (0 ≤ x.tdiv k * k ∧ x.tdiv k * k ≤ x ∨ x ≤ x.tdiv k * k ∧ x.tdiv k * k ≤ 0) := by
  have hnonneg : ∀ y : ℤ, 0 ≤ y → (0 ≤ y.tdiv k ∧ y.tdiv k ≤ y) ∧ (0 ≤ y.tdiv k * k ∧ y.tdiv k * k ≤ y) := by
    intro y hy
    have hquotient := Int.tdiv_nonneg hy (by omega : 0 ≤ k)
    have hle := Int.mul_tdiv_self_le (k := k) hy
    rw [Int.mul_comm] at hle
    exact ⟨⟨hquotient, Int.tdiv_le_self k hy⟩, Int.mul_nonneg hquotient (by omega), hle⟩
  by_cases hx : 0 ≤ x
  · obtain ⟨hquotient, hproduct⟩ := hnonneg x hx
    exact ⟨.inl hquotient, .inl hproduct⟩
  · obtain ⟨hquotient, hproduct⟩ := hnonneg (-x) (by omega)
    rw [Int.neg_tdiv] at hquotient hproduct
    rw [Int.neg_mul] at hproduct
    exact ⟨.inr (by omega), .inr (by omega)⟩

/-- Up to nine digits the power of ten is an `int`. -/
theorem ten_pow_le_iff (m : ℕ) : (10 : ℤ) ^ m ≤ IntType.int32.max ↔ m ≤ 9 := by
  constructor
  · intro hle
    by_contra hm
    have hpow : (10 : ℤ) ^ 10 ≤ 10 ^ m := pow_le_pow_right₀ (by decide) (by omega)
    exact absurd (hpow.trans hle) (by decide)
  · intro hm
    have hpow : (10 : ℤ) ^ m ≤ 10 ^ 9 := pow_le_pow_right₀ (by decide) hm
    exact hpow.trans (by decide)

namespace IntType

theorem max_of_size (hsize : T.size = 8) : T.max = if T.signed then 2 ^ 63 - 1 else 2 ^ 64 - 1 := by
  have hbits : T.bits = 64 := by
    have hbits := T.bits_eq
    omega
  unfold max
  rw [hbits]

theorem max_le (hsize : T.size ≠ 8) : T.max ≤ 2 ^ 32 - 1 := by
  have hsizes := T.size_cases
  have hbits := T.bits_le
  unfold max
  split_ifs
  · have hpow : (2 : ℤ) ^ (T.bits - 1) ≤ 2 ^ 32 := pow_le_pow_right₀ (by decide) (by omega)
    omega
  · have hpow : (2 : ℤ) ^ T.bits ≤ 2 ^ 32 := pow_le_pow_right₀ (by decide) (by omega)
    omega

/-- A number of up to nine digits is of every type that is computed with. -/
theorem withUnsigned_fits_small (hx : 0 ≤ x) (hlt : x < 2 ^ 31) : T.withUnsigned.Fits x := by
  have hmin := T.withUnsigned.min_nonpos
  refine ⟨by omega, ?_⟩
  unfold withUnsigned
  split_ifs with hsize
  · rw [max_of_size hsize]
    split_ifs <;> omega
  · have hmax : uint32.max = 2 ^ 32 - 1 := rfl
    omega

/-- A number is converted as it is unless it is negative and the type has no more bits than an `unsigned`. -/
theorem withUnsigned_fits_iff (hx : T.Fits x) : T.withUnsigned.Fits x ↔ 0 ≤ x ∨ T.size = 8 := by
  unfold withUnsigned
  split_ifs with hsize
  · exact iff_of_true hx (.inr hsize)
  · constructor
    · rintro ⟨hmin, -⟩
      exact .inl hmin
    · rintro (hnonneg | hsize')
      · exact ⟨hnonneg, hx.2.trans (max_le hsize)⟩
      · exact absurd hsize' hsize

end IntType

/-- What comes of a power of ten that is an `int`. -/
theorem clear_small (hx : T.Fits x) (hn : n.toNat ≤ 9) (hlength : ¬n.toNat > (decimal x).length)
    (hbits : ¬numBitsNeeded n.toNat > T.size * 8) :
    ∃ result, clearLoDigits T x n = .ok result ∧
      (result = ⟨x.tdiv (10 ^ n.toNat) * 10 ^ n.toNat, false⟩ ↔ 0 ≤ x ∨ T.size = 8) := by
  have hone : (1 : ℤ) ≤ 10 ^ n.toNat := one_le_pow₀ (by decide)
  have hten : (10 : ℤ) ^ n.toNat < 2 ^ 31 := Int.lt_of_le_of_lt ((ten_pow_le_iff _).2 hn) (by decide)
  have hpower : intpow .int32 10 n.toNat = ⟨10 ^ n.toNat, false⟩ := intpow_value (by decide) ((ten_pow_le_iff _).2 hn)
  have hmin : IntType.uint32.min = 0 := rfl
  have huint : IntType.uint32.Fits (10 ^ n.toNat) := ⟨by omega, Int.le_of_lt (hten.trans (by decide))⟩
  have hwide : T.withUnsigned.Fits (10 ^ n.toNat) := IntType.withUnsigned_fits_small (by omega) hten
  obtain ⟨hquotient, hproduct⟩ := tdiv_between hone x
  unfold clearLoDigits
  rw [if_neg hlength, if_neg hbits]
  dsimp only
  rw [hpower, IntType.convert_fits huint, IntType.convert_fits hwide]
  refine ⟨_, rfl, ?_⟩
  rw [← IntType.withUnsigned_fits_iff hx]
  constructor
  · intro hexact
    -- the input is converted, and that is seen at the end
    obtain ⟨hwrapped, -⟩ := IntType.fits_of_convert (congrArg Computed.wrapped hexact)
    obtain ⟨hwrapped, -⟩ := IntType.fits_of_compute hwrapped
    obtain ⟨hwrapped, -⟩ := IntType.fits_of_compute hwrapped
    exact (IntType.fits_of_convert hwrapped).2
  · intro hfits
    rw [IntType.convert_fits hfits, IntType.compute_fits (IntType.fits_between hfits hquotient),
      IntType.compute_fits (IntType.fits_between hfits hproduct), IntType.convert_fits (IntType.fits_between hx hproduct)]

/-- What comes of one that is not. -/
theorem clear_large (hn : ¬n.toNat ≤ 9) (hlength : ¬n.toNat > (decimal x).length)
    (hbits : ¬numBitsNeeded n.toNat > T.size * 8) :
    ∃ result, clearLoDigits T x n = .ok result ∧ result.wrapped = true := by
  have hpower : (intpow .int32 10 n.toNat).wrapped = true := by
    by_contra hexact
    exact hn ((ten_pow_le_iff _).1 ((intpow_exact_iff (by decide)).1 (eq_false_of_ne_true hexact)))
  unfold clearLoDigits
  rw [if_neg hlength, if_neg hbits]
  refine ⟨_, rfl, ?_⟩
  refine IntType.convert_wrapped (.inl (IntType.compute_wrapped (.inr ?_)))
  exact IntType.convert_wrapped (.inl (IntType.convert_wrapped (.inl hpower)))

/-- **Digits are cleared** where there are fewer, where the power of ten has more bits than the type, and of up to nine
digits unless the number is negative and of a type that an `unsigned` is no narrower than. -/
theorem clear_iff (hx : T.Fits x) (n : UInt8) : ClearRight T x n ↔ (decimal x).length < n.toNat ∨
    2 ^ (8 * T.size) < 10 ^ n.toNat ∨ n.toNat ≤ 9 ∧ (0 ≤ x ∨ T.size = 8) := by
  have hright : ClearRight T x n ↔ Cleared x n.toNat (clearLoDigits T x n) := ⟨fun h => h.function, fun h => ⟨h, h⟩⟩
  rw [hright]
  by_cases hlength : n.toNat > (decimal x).length
  · refine iff_of_true ?_ (.inl hlength)
    unfold clearLoDigits
    rw [if_pos hlength]
    unfold Cleared
    rw [tdiv_eq_zero_of_length hlength, Int.zero_mul]
  by_cases hbits : numBitsNeeded n.toNat > T.size * 8
  · refine iff_of_true ?_ (.inr (.inl ((numBitsNeeded_gt_iff T _).1 hbits)))
    unfold clearLoDigits
    rw [if_neg hlength, if_pos hbits]
    exact trivial
  -- what is left is the division, and nine digits are the most that the power of ten has room for
  have hbits' := mt (numBitsNeeded_gt_iff T n.toNat).2 hbits
  by_cases hn : n.toNat ≤ 9
  · obtain ⟨result, hresult, hexact⟩ := clear_small hx hn hlength hbits
    rw [hresult]
    unfold Cleared
    dsimp only
    rw [hexact]
    constructor
    · exact fun h => .inr (.inr ⟨hn, h⟩)
    · rintro (hlength' | hbits'' | ⟨-, h⟩)
      · exact absurd hlength' hlength
      · exact absurd hbits'' hbits'
      · exact h
  · obtain ⟨result, hresult, hwrapped⟩ := clear_large (T := T) (x := x) hn hlength hbits
    rw [hresult]
    refine iff_of_false ?_ ?_
    · rintro rfl
      cases hwrapped
    · rintro (hlength' | hbits'' | ⟨hn', -⟩)
      · exact hlength hlength'
      · exact hbits' hbits''
      · exact hn hn'

/-- A negative number of 64 bits. -/
theorem int64_cleared : ClearRight .int64 (-123) 1 ↔ (decimal (-123)).length < (1 : UInt8).toNat ∨
    2 ^ (8 * IntType.int64.size) < 10 ^ (1 : UInt8).toNat ∨
      (1 : UInt8).toNat ≤ 9 ∧ ((0 : ℤ) ≤ -123 ∨ IntType.int64.size = 8) :=
  clear_iff (by decide) 1

/-- A negative `int`. -/
theorem negative_int : clearLoDigits .int32 (-123) 1 = .ok ⟨-126, true⟩ ∧ ¬ClearRight .int32 (-123) 1 := by
  have hwrapped : clearLoDigits .int32 (-123) 1 = .ok ⟨-126, true⟩ := by decide +kernel
  refine ⟨hwrapped, fun hright => ?_⟩
  have hcleared := hright.function
  rw [hwrapped] at hcleared
  exact absurd (Computed.mk.inj hcleared).2 nofun

end Libtarp.Strings
