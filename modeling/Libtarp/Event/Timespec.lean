import Mathlib.Algebra.Group.Nat.Defs
import Mathlib.Algebra.Order.Ring.Int

/-!
# Time points and durations (`timeutils.c`)

`tv_sec` is signed and wraps around; `tv_nsec` is below 10^9, as the type demands.

* `timespecCmp_spec`: the order is that of the nanoseconds.
* `timespecAdd_value`: the sum is exact, unless the seconds wrap around.
-/

namespace Libtarp.Event

/-- `NSECS_PER_SEC`. -/
def nsecsPerSec : ℕ := 1000000000

theorem nsecsPerSec_pos : 0 < nsecsPerSec := by decide

/-- `struct timespec`. -/
structure Timespec where
  sec : Int64
  nsec : ℕ
  nsec_lt : nsec < nsecsPerSec

/-- In nanoseconds. -/
def Timespec.value (ts : Timespec) : ℤ := ts.sec.toInt * nsecsPerSec + ts.nsec

/-- `enum comparatorResult`. -/
inductive ComparatorResult
  | lt
  | eq
  | gt
  deriving DecidableEq

/-- `timespec_cmp`. -/
def timespecCmp (a b : Timespec) : ComparatorResult :=
  if a.sec > b.sec then .gt
  else if a.sec < b.sec then .lt
  else if a.nsec > b.nsec then .gt
  else if a.nsec < b.nsec then .lt
  else .eq

/-- `timespec_add`. -/
def timespecAdd (a b : Timespec) : Timespec where
  sec := a.sec + b.sec + Int64.ofNat ((a.nsec + b.nsec) / nsecsPerSec)
  nsec := (a.nsec + b.nsec) % nsecsPerSec
  nsec_lt := Nat.mod_lt _ nsecsPerSec_pos

theorem timespecCmp_spec (a b : Timespec) :
    timespecCmp a b = if a.value < b.value then .lt else if a.value = b.value then .eq else .gt := by
  have ha := a.nsec_lt
  have hb := b.nsec_lt
  unfold timespecCmp Timespec.value
  simp only [gt_iff_lt, Int64.lt_iff_toInt_lt]
  unfold nsecsPerSec at *
  split_ifs <;> first
    | rfl
    | omega

/-- The seconds wrap around where they are too large. -/
theorem bmod_cases {x : ℤ} (hlow : -2 ^ 63 ≤ x) (hhigh : x < 2 ^ 64) :
    x.bmod (2 ^ 64) = if x < 2 ^ 63 then x else x - 2 ^ 64 := by
  unfold Int.bmod
  dsimp only
  split_ifs <;> omega

theorem timespecAdd_sec (a b : Timespec) : (timespecAdd a b).sec.toInt =
    (a.sec.toInt + b.sec.toInt + ((a.nsec + b.nsec) / nsecsPerSec : ℕ)).bmod (2 ^ 64) := by
  have ha := a.nsec_lt
  have hb := b.nsec_lt
  have hcarry : (a.nsec + b.nsec) / nsecsPerSec < 2 ^ 63 := by
    unfold nsecsPerSec at *
    omega
  unfold timespecAdd
  rw [Int64.toInt_add, Int64.toInt_add, Int64.toInt_ofNat_of_lt hcarry, Int.bmod_add_bmod]

/-- **Overflow is seen**: after a time point that is not negative, the sum has fewer seconds than the duration
only if they wrapped around, and else is exact. -/
theorem timespecAdd_value {now ts : Timespec} (hnow : 0 ≤ now.sec.toInt) (h : ¬(timespecAdd now ts).sec < ts.sec) :
    (timespecAdd now ts).value = now.value + ts.value := by
  have hn := now.nsec_lt
  have ht := ts.nsec_lt
  have hcarry := Nat.div_add_mod (now.nsec + ts.nsec) nsecsPerSec
  have hsmall : (now.nsec + ts.nsec) / nsecsPerSec ≤ 1 := by
    unfold nsecsPerSec at *
    omega
  have hlow := ts.sec.le_toInt
  have hhigh := ts.sec.toInt_lt
  have hhigh' := now.sec.toInt_lt
  have hnsec : (timespecAdd now ts).nsec = (now.nsec + ts.nsec) % nsecsPerSec := rfl
  have hsec := timespecAdd_sec now ts
  generalize (now.nsec + ts.nsec) / nsecsPerSec = carry at hcarry hsmall hsec
  rw [bmod_cases (by omega) (by omega)] at hsec
  rw [Int64.lt_iff_toInt_lt, hsec] at h
  unfold Timespec.value
  rw [hnsec, hsec]
  split_ifs at h ⊢ with hlt
  · unfold nsecsPerSec at *
    omega
  · omega

end Libtarp.Event
