import Libtarp.Guard.TimeGuardRuns

/-!
# Guards with an exponential interval (`ExpTimeGuard` in `timeguard.hxx`)

The factor of the interval is a power of the base, by an index that counts the advances. What makes the first advance
of a guard that starts high is not what is to make it: in the constructor it is `advance` of the base class, which does
not count, and in `reset` it is an `advance` that goes on from the index of before. The factor of the base 2 is shifted
as an `int`.

* `ExpFields.factor`, `ExpTimeGuard.advance`, `ExpTimeGuard.initializeGuard`, `ExpTimeGuard.new`: the code.
* `moves`: the intervals of a shift, as the end of the guard shows them.
* `RightAt`, `right_iff_exact`: which intervals are right, by their number.
-/

namespace Libtarp.Guard

/-- What `ExpTimeGuard` adds. -/
structure ExpFields where
  base : UInt32
  lastIndex : ℕ

abbrev ExpTimeGuard := TimeGuard × ExpFields

/-- The factor of the next interval. What an `int` is that was shifted by 32 bits or more is anything. -/
def ExpFields.factor (shifted : ℕ → BitVec 32) (e : ExpFields) : Ticks :=
  if e.base = 2 then (if e.lastIndex < 32 then 1#32 <<< e.lastIndex else shifted e.lastIndex).signExtend 64
  else Math.intpow (e.base.toNat : Ticks) (e.lastIndex % 2 ^ 32)

/-- The increment of `m_last_index`. -/
def ExpFields.next (e : ExpFields) : ExpFields := { e with lastIndex := (e.lastIndex + 1) % 2 ^ 64 }

/-- `ExpTimeGuard::advance`. -/
def ExpTimeGuard.advance (shifted : ℕ → BitVec 32) (g : ExpTimeGuard) : ExpTimeGuard :=
  ({ g.1 with nextTimepoint := g.1.nextTimepoint + g.1.baseInterval * g.2.factor shifted }, g.2.next)

/-- `ExpTimeGuard::initialize`, which is what `reset` calls. -/
def ExpTimeGuard.initializeGuard (shifted : ℕ → BitVec 32) (now : Ticks) (g : ExpTimeGuard) : ExpTimeGuard :=
  let g := Guard.initializeGuard (ExpTimeGuard.advance shifted) now g
  (g.1, { g.2 with lastIndex := 0 })

/-- The constructor. While it constructs its base class, the guard is a `TimeGuard`. -/
def ExpTimeGuard.new (undef : TimeGuard) (interval : Ticks) (base : UInt32) (startLow : Bool) (maxIntervals : Int32)
    (now : Ticks) : ExpTimeGuard :=
  ((TimeGuard.new undef interval startLow maxIntervals now).1, ⟨base, 0⟩)

/-! ## Moves -/

section Moves

variable {ε : Type} {advance : TimeGuard × ε → TimeGuard × ε} {amount : ε → Ticks → Ticks} {next : ε → ε}

/-- The intervals by which a number of advances move the end of a guard, one by one. -/
def moves (advance : TimeGuard × ε → TimeGuard × ε) (n : ℕ) (g : TimeGuard × ε) : List Ticks :=
  (List.range n).map fun i => (advance^[i + 1] g).1.nextTimepoint - (advance^[i] g).1.nextTimepoint

theorem Steps.moves_eq (h : Steps advance amount next) (n : ℕ) (g : TimeGuard × ε) :
    moves advance n g = (List.range n).map fun i => amount (next^[i] g.2) g.1.baseInterval := by
  unfold moves
  apply List.map_congr_left
  intro i _
  rw [Function.iterate_succ_apply', h.iterate i g, h _]
  dsimp only
  rw [BitVec.add_comm, BitVec.add_sub_cancel]

/-- What a shift leaves as it is. -/
theorem Steps.shift_kept (h : Steps advance amount next) (numIntervals : ℕ) (g : TimeGuard × ε) :
    ∃ enabled up interval, shift advance numIntervals g =
      ({ g.1 with
          enabled := enabled
          up := up
          intervalsLeft := g.1.intervalsLeft - performed numIntervals g.1
          nextInterval := interval
          nextTimepoint :=
            g.1.nextTimepoint + total amount next g.1.baseInterval (performed numIntervals g.1) g.2 },
        next^[performed numIntervals g.1] g.2) := by
  have hzero : g.1.nextTimepoint + total amount next g.1.baseInterval 0 g.2 = g.1.nextTimepoint := BitVec.add_zero _
  rw [shift_eq h]
  by_cases henabled : g.1.enabled = false
  · have hnone : performed numIntervals g.1 = 0 := by
      unfold performed
      rw [if_pos henabled]
    rw [if_pos henabled, hnone, hzero]
    exact ⟨_, _, _, rfl⟩
  rw [if_neg henabled]
  by_cases hleft : g.1.intervalsLeft = 0
  · have hnone : performed numIntervals g.1 = 0 := by
      rw [performed_eq (Bool.eq_true_of_not_eq_false henabled), hleft, Nat.zero_min]
    rw [if_pos hleft, hnone, hzero]
    exact ⟨_, _, _, rfl⟩
  · rw [if_neg hleft]
    exact ⟨_, _, _, rfl⟩

/-- A guard with a limit when it has been initialised. One that starts high has advanced. -/
theorem Steps.initializeGuard_eq (h : Steps advance amount next) (now : Ticks) {g : TimeGuard × ε}
    (hpos : 0 < g.1.maxIntervals) :
    ∃ up left interval timepoint, initializeGuard advance now g =
        ({ g.1 with
            up := up, enabled := true, intervalsLeft := left, nextInterval := interval, nextTimepoint := timepoint },
          if g.1.startLow then g.2 else next g.2) ∧
      left = g.1.maxIntervals.toInt.toNat - (if g.1.startLow then 0 else 1) ∧
      timepoint = now + if g.1.startLow then 0 else amount g.2 g.1.baseInterval := by
  have hm := pos_toInt hpos
  have hne : g.1.maxIntervals ≠ 0 := by
    intro hzero
    rw [hzero] at hm
    exact absurd hm (by decide)
  unfold initializeGuard
  dsimp only
  rw [if_pos (show g.1.maxIntervals > 0 from hpos), decide_eq_true hne]
  by_cases hlow : g.1.startLow = true
  · rw [if_neg (hlow ▸ Ne.symm Bool.false_ne_true), if_pos hlow, if_pos hlow, if_pos hlow]
    exact ⟨_, _, _, _, rfl, rfl, (BitVec.add_zero _).symm⟩
  · have hone : min g.1.maxIntervals.toInt.toNat 1 = 1 := by omega
    rw [if_pos (Bool.eq_false_of_not_eq_true hlow), if_neg hlow, if_neg hlow, if_neg hlow, shift_eq h]
    dsimp only
    rw [if_neg (Ne.symm Bool.false_ne_true), if_neg (by omega), performed_eq rfl]
    dsimp only
    rw [hone, total_one]
    exact ⟨_, _, _, _, rfl, rfl, rfl⟩

end Moves

/-! ## Powers of the base -/

/-- What a duration of 64 bits can be. -/
def Representable (x : ℤ) : Prop := -2 ^ 63 ≤ x ∧ x < 2 ^ 63

theorem toInt_cast {x : ℤ} (h : Representable x) : ((x : ℤ) : Ticks).toInt = x := by
  unfold Representable at h
  rw [BitVec.toInt_intCast]
  exact Int.bmod_eq_of_le (by omega) (by omega)

theorem cast_toInt (a : Ticks) : ((a.toInt : ℤ) : Ticks) = a := BitVec.ofInt_toInt

theorem representable_toInt (a : Ticks) : Representable a.toInt := ⟨BitVec.le_toInt a, BitVec.toInt_lt⟩

theorem Representable.of_le {x : ℤ} {a b : ℕ} (h : Representable (b * x)) (hle : a ≤ b) : Representable (a * x) := by
  have hcast : (a : ℤ) ≤ b := Int.ofNat_le.2 hle
  have ha : (0 : ℤ) ≤ a := Int.natCast_nonneg a
  obtain ⟨hlow, hhigh⟩ := h
  rcases le_total 0 x with hx | hx
  · have hmul := Int.mul_le_mul_of_nonneg_right hcast hx
    have hnonneg := Int.mul_nonneg ha hx
    exact ⟨by omega, by omega⟩
  · have hmul := Int.mul_le_mul_of_nonpos_right hcast hx
    have hnonpos := Int.mul_nonpos_of_nonneg_of_nonpos ha hx
    exact ⟨by omega, by omega⟩

variable {shifted : ℕ → BitVec 32} {interval : Ticks} {base : UInt32} {startLow : Bool} {j l : ℕ}

theorem factor_eq (hbase : base ≠ 2) (hj : j < 2 ^ 32) :
    ExpFields.factor shifted ⟨base, j⟩ = (base.toNat : Ticks) ^ j := by
  unfold ExpFields.factor
  rw [if_neg hbase, Math.intpow_eq, Nat.mod_eq_of_lt hj]

theorem factor_two (hj : j < 31) : ExpFields.factor shifted ⟨2, j⟩ = (2 : Ticks) ^ j := by
  have hall : ∀ i : Fin 31, (1#32 <<< i.1).signExtend 64 = (2 : Ticks) ^ i.1 := by decide
  unfold ExpFields.factor
  rw [if_pos rfl, if_pos (show j < 32 by omega)]
  exact hall ⟨j, hj⟩

theorem factor_zero : ExpFields.factor shifted ⟨base, 0⟩ = 1 := by
  by_cases hbase : base = 2
  · rw [hbase]
    exact factor_two (by omega)
  · rw [factor_eq hbase (by omega), pow_zero]

/-- The last bit of an `int` is its sign. -/
theorem factor_sign : ExpFields.factor shifted ⟨2, 31⟩ = ((-2 ^ 31 : ℤ) : Ticks) := by
  unfold ExpFields.factor
  rw [if_pos rfl, if_pos (show 31 < 32 by omega)]
  decide

/-- How many intervals a guard has had when it is initialised. -/
def ahead (startLow : Bool) : ℕ := if startLow then 0 else 1

/-- The interval with a number is right, if it can be. -/
def RightAt (shifted : ℕ → BitVec 32) (interval : Ticks) (base : UInt32) (startLow : Bool) (j : ℕ) : Prop :=
  Representable (base.toNat ^ j * interval.toInt) →
    (interval * ExpFields.factor shifted ⟨base, j - ahead startLow⟩).toInt = base.toNat ^ j * interval.toInt

/-- Which numbers of intervals are right: a guard that starts high has its first interval again, and one that starts
low with base 2 has an interval that is negative. -/
def Exact (interval : Ticks) (base : UInt32) (startLow : Bool) (l : ℕ) : Prop :=
  if startLow then
    base = 2 → 32 ≤ l → interval.toInt = 0 ∨ interval.toInt = -2 ^ 32 ∨ ¬Representable (2 ^ 31 * interval.toInt)
  else 2 ≤ l → interval.toInt = 0 ∨ base = 1 ∨ ¬Representable (base.toNat * interval.toInt)

theorem rightAt_of_factor
    (h : ExpFields.factor shifted ⟨base, j - ahead startLow⟩ = (base.toNat : Ticks) ^ j) :
    RightAt shifted interval base startLow j := by
  intro hrep
  have hcast : interval * (base.toNat : Ticks) ^ j = ((base.toNat ^ j * interval.toInt : ℤ) : Ticks) := by
    push_cast
    rw [cast_toInt, mul_comm]
  rw [h, hcast, toInt_cast hrep]

theorem rightAt_of_zero (h : interval.toInt = 0) : RightAt shifted interval base startLow j := by
  have hzero : interval = 0 := by
    rw [← cast_toInt interval, h]
    rfl
  intro _
  rw [h, hzero, zero_mul, mul_zero]
  rfl

theorem rightAt_of_not_representable {a : ℕ} (hle : a ≤ base.toNat ^ j) (h : ¬Representable (a * interval.toInt)) :
    RightAt shifted interval base startLow j := by
  intro hrep
  rw [← Nat.cast_pow] at hrep
  exact absurd (hrep.of_le hle) h

/-- **The 32nd interval with base 2.** It has the wrong sign. -/
theorem rightAt_sign : RightAt shifted interval 2 true 31 ↔
    interval.toInt = 0 ∨ interval.toInt = -2 ^ 32 ∨ ¬Representable (2 ^ 31 * interval.toInt) := by
  have hfactor : (interval * ExpFields.factor shifted ⟨2, 31 - ahead true⟩).toInt =
      (-2 ^ 31 * interval.toInt).bmod (2 ^ 64) := by
    have hcast : interval * ((-2 ^ 31 : ℤ) : Ticks) = ((-2 ^ 31 * interval.toInt : ℤ) : Ticks) := by
      rw [Int.cast_mul, cast_toInt, mul_comm]
    rw [show 31 - ahead true = 31 from rfl, factor_sign, hcast, BitVec.toInt_intCast]
  unfold RightAt
  rw [hfactor]
  change (Representable (2 ^ 31 * interval.toInt) →
    (-2 ^ 31 * interval.toInt).bmod (2 ^ 64) = 2 ^ 31 * interval.toInt) ↔ _
  constructor
  · intro h
    by_cases hrep : Representable (2 ^ 31 * interval.toInt)
    · -- the two products differ by a multiple of 2 ^ 64
      have hdvd : ((2 ^ 64 : ℕ) : ℤ) ∣ (-2 ^ 31 * interval.toInt).bmod (2 ^ 64) - -2 ^ 31 * interval.toInt :=
        Int.dvd_bmod_sub_self
      rw [h hrep] at hdvd
      unfold Representable at hrep
      obtain ⟨k, hk⟩ := hdvd
      omega
    · exact .inr (.inr hrep)
  · rintro (hzero | hlow | hno) hrep
    · rw [hzero]
      rfl
    · rw [hlow]
      rfl
    · exact absurd hrep hno

theorem exact_of_rightAt (h : ∀ j < l, RightAt shifted interval base startLow j) : Exact interval base startLow l := by
  unfold Exact
  split_ifs with hlow
  · rintro rfl hl
    exact rightAt_sign.1 (hlow ▸ h 31 (by omega))
  · intro hl
    by_cases hrep : Representable (base.toNat * interval.toInt)
    · -- the second interval has the factor of the first
      have hone := h 1 (by omega)
      rw [Bool.eq_false_of_not_eq_true hlow] at hone
      unfold RightAt at hone
      rw [pow_one, show 1 - ahead false = 0 from rfl, factor_zero, mul_one] at hone
      have hmul : ((base.toNat : ℤ) - 1) * interval.toInt = 0 := by
        rw [sub_mul, one_mul, ← hone hrep, sub_self]
      rcases Int.mul_eq_zero.1 hmul with hbase | hzero
      · exact .inr (.inl (UInt32.toNat_inj.1 (by rw [UInt32.toNat_one]; omega)))
      · exact .inl hzero
    · exact .inr (.inr hrep)

/-- **Which intervals are right**, of those that a guard can have. -/
theorem right_iff_exact (hl : l < 2 ^ 32) :
    (∀ j < l, RightAt shifted interval base startLow j) ↔ Exact interval base startLow l := by
  refine ⟨exact_of_rightAt, ?_⟩
  intro h j hj
  unfold Exact at h
  by_cases hlow : startLow = true
  · rw [if_pos hlow] at h
    subst hlow
    by_cases hbase : base = 2
    · subst hbase
      -- up to the sign of an `int` a shift is a power of 2
      rcases lt_or_ge j 31 with hj31 | hj31
      · exact rightAt_of_factor (factor_two hj31)
      have hsign : RightAt shifted interval 2 true 31 := rightAt_sign.2 (h rfl (by omega))
      rcases Nat.eq_or_lt_of_le hj31 with rfl | hj32
      · exact hsign
      · rcases h rfl (by omega) with hzero | hlow | hno
        · exact rightAt_of_zero hzero
        · apply rightAt_of_not_representable (Nat.pow_le_pow_right Nat.two_pos hj32)
          rw [hlow]
          exact fun hrep => absurd hrep.1 (by decide)
        · exact rightAt_of_not_representable (Nat.pow_le_pow_right Nat.two_pos hj31) hno
    · exact rightAt_of_factor (factor_eq hbase (by omega))
  · rw [if_neg hlow] at h
    rw [Bool.eq_false_of_not_eq_true hlow]
    cases j with
    | zero =>
      apply rightAt_of_factor
      rw [pow_zero]
      exact factor_zero
    | succ j =>
      -- the factor is the power before, which is right where there is nothing to multiply or the base does nothing
      rcases h (by omega) with hzero | hone | hno
      · exact rightAt_of_zero hzero
      · apply rightAt_of_factor
        have hpow : (((1 : UInt32).toNat : ℕ) : Ticks) ^ j = ((1 : UInt32).toNat : Ticks) ^ (j + 1) := by
          rw [UInt32.toNat_one, Nat.cast_one, one_pow, one_pow]
        rw [hone]
        exact (factor_eq (by decide) (by omega)).trans hpow
      · refine rightAt_of_not_representable ?_ hno
        rcases Nat.eq_zero_or_pos base.toNat with hbase | hbase
        · rw [hbase]
          exact Nat.zero_le _
        · exact Nat.le_self_pow j.succ_ne_zero _

end Libtarp.Guard
