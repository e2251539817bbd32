import Libtarp.Strings.Strip

/-!
# Integers in strings (`string_utils.hxx`)

`to_integer` converts with `strtoll`, for every type.

* `toInteger_numeral`: what is made of a numeral.
* `toInteger_iff`: it is right unless the value is one of the type and does not fit into a `long long`.
-/

namespace Libtarp.Strings

open Lib

/-- An integral type of up to 64 bits: how many bytes it takes, and how many of its bits are of the value. `bool` has
one. -/
structure IntType where
  signed : Bool
  size : ℕ
  bits : ℕ
  size_mem : size ∈ [1, 2, 4, 8]
  bits_eq : bits = 8 * size ∨ bits = 1 ∧ size = 1 ∧ signed = false

namespace IntType

/-- `std::numeric_limits<T>::max`. -/
def max (T : IntType) : ℤ := if T.signed then 2 ^ (T.bits - 1) - 1 else 2 ^ T.bits - 1

/-- `std::numeric_limits<T>::min`. -/
def min (T : IntType) : ℤ := if T.signed then -2 ^ (T.bits - 1) else 0

/-- That a number is one of the type. -/
def Fits (T : IntType) (x : ℤ) : Prop := T.min ≤ x ∧ x ≤ T.max

instance (T : IntType) (x : ℤ) : Decidable (T.Fits x) := inferInstanceAs (Decidable (_ ∧ _))

variable {T : IntType} {x : ℤ}

theorem size_cases (T : IntType) : T.size = 1 ∨ T.size = 2 ∨ T.size = 4 ∨ T.size = 8 := by
  simpa using T.size_mem

theorem bits_le (T : IntType) : 0 < T.bits ∧ T.bits ≤ 8 * T.size ∧ T.bits ≤ 64 := by
  have hsize := T.size_cases
  have hbits := T.bits_eq
  omega

theorem max_nonneg (T : IntType) : 0 ≤ T.max := by
  unfold max
  split_ifs
  · have hpow : (0 : ℤ) < 2 ^ (T.bits - 1) := Int.pow_pos (by decide)
    omega
  · have hpow : (0 : ℤ) < 2 ^ T.bits := Int.pow_pos (by decide)
    omega

theorem min_nonpos (T : IntType) : T.min ≤ 0 := by
  unfold min
  split_ifs
  · have hpow : (0 : ℤ) < 2 ^ (T.bits - 1) := Int.pow_pos (by decide)
    omega
  · exact Int.le_refl 0

/-- No type goes below a `long long`. -/
theorem le_min (T : IntType) : -2 ^ 63 ≤ T.min := by
  unfold min
  split_ifs
  · have hbits := T.bits_le
    have hle : (2 : ℕ) ^ (T.bits - 1) ≤ 2 ^ 63 := Nat.pow_le_pow_right (by decide) (by omega)
    have hcast : (2 : ℤ) ^ (T.bits - 1) ≤ 2 ^ 63 := by exact_mod_cast hle
    omega
  · decide

theorem not_fits_neg (hsigned : T.signed = false) (hneg : x < 0) : ¬T.Fits x := by
  rintro ⟨hmin, -⟩
  unfold min at hmin
  rw [hsigned, if_neg Bool.false_ne_true] at hmin
  omega

/-- `int`. -/
def int32 : IntType := ⟨true, 4, 32, by decide, .inl rfl⟩

/-- `std::uint32_t`, and `unsigned`. -/
def uint32 : IntType := ⟨false, 4, 32, by decide, .inl rfl⟩

/-- `std::int64_t`. -/
def int64 : IntType := ⟨true, 8, 64, by decide, .inl rfl⟩

/-- `std::uint64_t`. -/
def uint64 : IntType := ⟨false, 8, 64, by decide, .inl rfl⟩

end IntType

/-- `to_integer`. -/
def toInteger (T : IntType) (input : List Char) : Except Exception (Option ℤ) :=
  match strip input none with
  | .error e => .error e
  | .ok s =>
    if s = [] then .ok none
    else
      let converted := strtoll (cStr s) 10
      if converted.endptr ≠ [] then .ok none
      else if converted.erange then .ok none
      else if converted.value ≥ 0 then if converted.value ≤ T.max then .ok (some converted.value) else .ok none
      else if T.signed then if T.min ≤ converted.value then .ok (some converted.value) else .ok none
      else .ok none

variable {T : IntType} {x : ℤ} {pre text post : List Char}

/-- The comparisons with the limits of the type. -/
theorem limits_eq (T : IntType) (x : ℤ) : (if x ≥ 0 then if x ≤ T.max then .ok (some x) else .ok none
    else if T.signed then if T.min ≤ x then .ok (some x) else .ok none
    else .ok none : Except Exception (Option ℤ)) = .ok (if T.Fits x then some x else none) := by
  have hnonpos := T.min_nonpos
  have hnonneg := T.max_nonneg
  by_cases hneg : x ≥ 0
  · rw [if_pos hneg]
    split_ifs with hmax hfits hfits
    · rfl
    · exact absurd ⟨by omega, hmax⟩ hfits
    · exact absurd hfits.2 hmax
    · rfl
  · rw [if_neg hneg]
    cases hsigned : T.signed with
    | true =>
      rw [if_pos rfl]
      split_ifs with hmin hfits hfits
      · rfl
      · exact absurd ⟨hmin, by omega⟩ hfits
      · exact absurd hfits.1 hmin
      · rfl
    | false => rw [if_neg Bool.false_ne_true, if_neg (IntType.not_fits_neg hsigned (Int.not_le.1 hneg))]

/-- What is made of a numeral between blanks. -/
theorem toInteger_numeral (T : IntType) (hpre : ∀ c ∈ pre, isSpace c = true) (hpost : ∀ c ∈ post, isSpace c = true)
    (htext : Numeral 10 text x) : toInteger T (pre ++ text ++ post) = .ok (if T.Fits x ∧ x < 2 ^ 63 then some x else none) := by
  obtain ⟨hne, hchars⟩ := numeral_chars htext
  have hstrip : strip (pre ++ text ++ post) none = .ok text := by
    rw [strip_eq]
    refine congrArg Except.ok (trimmed_append hpre hpost (fun c hc => ?_) fun c hc => ?_)
    · exact (hchars c (List.mem_of_mem_head? hc)).1
    · exact (hchars c (List.mem_of_mem_getLast? hc)).1
  have hcStr : cStr text = text := List.takeWhile_eq_self_iff.2 fun c hc => decide_eq_true (hchars c hc).2
  have hconverted := strtoll_numeral htext
  have hmin := T.le_min
  unfold toInteger
  rw [hstrip]
  dsimp only
  rw [if_neg hne, hcStr, hconverted]
  -- out of the range of a long long
  by_cases hover : x > 2 ^ 63 - 1
  · have hnot : ¬(T.Fits x ∧ x < 2 ^ 63) := fun h => by omega
    rw [if_pos hover, if_neg hnot]
    rfl
  rw [if_neg hover]
  by_cases hunder : x < -2 ^ 63
  · have hnot : ¬(T.Fits x ∧ x < 2 ^ 63) := fun h => by
      have hle := h.1.1
      omega
    rw [if_pos hunder, if_neg hnot]
    rfl
  have hlt : x < 2 ^ 63 := by omega
  have hboth : T.Fits x ↔ T.Fits x ∧ x < 2 ^ 63 := (and_iff_left hlt).symm
  rw [if_neg hunder]
  dsimp only
  rw [if_neg (not_not_intro rfl), if_neg Bool.false_ne_true, limits_eq, if_congr hboth rfl rfl]

/-- **A numeral is converted to its value** if the type has it, unless a `long long` has not. -/
theorem toInteger_iff (T : IntType) (hpre : ∀ c ∈ pre, isSpace c = true) (hpost : ∀ c ∈ post, isSpace c = true)
    (htext : Numeral 10 text x) :
    toInteger T (pre ++ text ++ post) = .ok (if T.Fits x then some x else none) ↔ (T.Fits x → x < 2 ^ 63) := by
  rw [toInteger_numeral T hpre hpost htext]
  by_cases hfits : T.Fits x
  · rw [if_pos hfits]
    split_ifs with hboth
    · exact iff_of_true rfl fun _ => hboth.2
    · refine iff_of_false nofun fun hlt => hboth ⟨hfits, hlt hfits⟩
  · rw [if_neg hfits, if_neg fun h => hfits h.1]
    exact iff_of_true rfl fun h => absurd h hfits

/-- A negative number between blanks. -/
theorem toInteger_minus_one :
    toInteger .int32 ([' '] ++ decimal (-1) ++ ['\n']) = .ok (if IntType.int32.Fits (-1) then some (-1) else none) ↔
      (IntType.int32.Fits (-1) → (-1 : ℤ) < 2 ^ 63) :=
  toInteger_iff .int32 (List.forall_mem_singleton.2 rfl) (List.forall_mem_singleton.2 rfl) (numeral_decimal (-1))

/-- The largest 64-bit number without a sign. -/
theorem uint64_max_lost : IntType.uint64.Fits (2 ^ 64 - 1) ∧ toInteger .uint64 (decimal (2 ^ 64 - 1)) = .ok none ∧
    toInteger .uint64 (decimal (2 ^ 64 - 1)) ≠ .ok (some (2 ^ 64 - 1)) := by
  have hnone : toInteger .uint64 (decimal (2 ^ 64 - 1)) = .ok none := by decide +kernel
  exact ⟨by decide +kernel, hnone, fun h => absurd (hnone.symm.trans h) nofun⟩

end Libtarp.Strings
