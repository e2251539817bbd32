import Libtarp.Math
import Mathlib.Data.BitVec

/-!
# Guards of time intervals (`timeguard.hxx`)

Time points and durations are the 64 bits in which `std::chrono` counts the ticks of the clock; sums and products wrap
round. Two member functions are virtual. `advance` is a parameter of the functions that call it, and a guard goes
with whatever a class that extends `TimeGuard` adds to it: nothing, or what `ExpTimeGuard` adds. While a base class is
constructed, its own `advance` is called.

* `Steps`: what `advance` does, by the amount and by what it leaves.
* `shift_eq`: a shift by the intervals that are left.
-/

namespace Libtarp.Guard

/-- Ticks of the clock, signed. -/
abbrev Ticks := BitVec 64

/-- `TimeGuard`. -/
structure TimeGuard where
  startLow : Bool
  baseInterval : Ticks
  maxIntervals : Int32
  enabled : Bool
  up : Bool
  intervalsLeft : ℕ
  nextInterval : Ticks
  nextTimepoint : Ticks

/-- `TimeGuard::advance`. -/
def TimeGuard.advance (g : TimeGuard) : TimeGuard := { g with nextTimepoint := g.nextTimepoint + g.baseInterval }

/-- `up`, which lowers the guard where its end is past. -/
def TimeGuard.isUp (now : Ticks) (g : TimeGuard) : TimeGuard × Bool :=
  if g.enabled = false then (g, false)
  else
    let g := if g.nextTimepoint.sle now then { g with up := false } else g
    (g, g.up)

/-- The members before `initialize` is called. What is not set is anything. -/
def TimeGuard.members (undef : TimeGuard) (interval : Ticks) (startLow : Bool) (maxIntervals : Int32) : TimeGuard :=
  { undef with baseInterval := interval, startLow := startLow, maxIntervals := maxIntervals }

variable {ε : Type} (advance : TimeGuard × ε → TimeGuard × ε)

/-- `shift`. -/
def shift (numIntervals : ℕ) (g : TimeGuard × ε) : TimeGuard × ε :=
  if g.1.enabled = false then g
  else if g.1.intervalsLeft = 0 then ({ g.1 with enabled := false }, g.2)
  else
    let numIntervals := if g.1.intervalsLeft < numIntervals then g.1.intervalsLeft else numIntervals
    let lastTimepoint := g.1.nextTimepoint
    let g := advance^[numIntervals] ({ g.1 with intervalsLeft := g.1.intervalsLeft - numIntervals }, g.2)
    ({ g.1 with nextInterval := g.1.nextTimepoint - lastTimepoint, up := true }, g.2)

/-- `TimeGuard::initialize`, where the clock reads `now`. -/
def initializeGuard (now : Ticks) (g : TimeGuard × ε) : TimeGuard × ε :=
  let g := ({ g.1 with
    up := !g.1.startLow
    intervalsLeft := if g.1.maxIntervals > 0 then g.1.maxIntervals.toInt.toNat else 0
    enabled := g.1.maxIntervals ≠ 0
    nextTimepoint := now }, g.2)
  if g.1.startLow = false then shift advance 1 g else g

/-! ## Shifts -/

/-- What `advance` does: the end of the guard moves by an amount, and something becomes of what was added to it. -/
def Steps (amount : ε → Ticks → Ticks) (next : ε → ε) : Prop :=
  ∀ g, advance g = ({ g.1 with nextTimepoint := g.1.nextTimepoint + amount g.2 g.1.baseInterval }, next g.2)

/-- The amount of a number of advances. -/
def total (amount : ε → Ticks → Ticks) (next : ε → ε) (interval : Ticks) : ℕ → ε → Ticks
  | 0, _ => 0
  | n + 1, e => amount e interval + total amount next interval n (next e)

/-- How many intervals a shift is by. -/
def performed (numIntervals : ℕ) (g : TimeGuard) : ℕ :=
  if g.enabled = false then 0 else min g.intervalsLeft numIntervals

variable {advance} {amount : ε → Ticks → Ticks} {next : ε → ε}

theorem performed_eq {g : TimeGuard} (henabled : g.enabled = true) (numIntervals : ℕ) :
    performed numIntervals g = min g.intervalsLeft numIntervals := by
  unfold performed
  rw [henabled, if_neg (Ne.symm Bool.false_ne_true)]

theorem total_one (interval : Ticks) (e : ε) : total amount next interval 1 e = amount e interval := BitVec.add_zero _

theorem Steps.iterate (h : Steps advance amount next) (n : ℕ) (g : TimeGuard × ε) :
    advance^[n] g =
      ({ g.1 with nextTimepoint := g.1.nextTimepoint + total amount next g.1.baseInterval n g.2 }, next^[n] g.2) := by
  induction n generalizing g with
  | zero =>
    have hzero : g.1.nextTimepoint + total amount next g.1.baseInterval 0 g.2 = g.1.nextTimepoint := BitVec.add_zero _
    rw [hzero]
    rfl
  | succ n ih =>
    rw [Function.iterate_succ_apply, Function.iterate_succ_apply, ih, h g]
    dsimp only [total]
    rw [BitVec.add_assoc]

/-- **A shift**, by the intervals that are left. It disables the guard where none is. -/
theorem shift_eq (h : Steps advance amount next) (numIntervals : ℕ) (g : TimeGuard × ε) :
    shift advance numIntervals g =
      if g.1.enabled = false then g
      else if g.1.intervalsLeft = 0 then ({ g.1 with enabled := false }, g.2)
      else
        ({ g.1 with
            intervalsLeft := g.1.intervalsLeft - performed numIntervals g.1
            nextTimepoint :=
              g.1.nextTimepoint + total amount next g.1.baseInterval (performed numIntervals g.1) g.2
            nextInterval := total amount next g.1.baseInterval (performed numIntervals g.1) g.2
            up := true },
          next^[performed numIntervals g.1] g.2) := by
  have hmin : g.1.enabled = true → (if g.1.intervalsLeft < numIntervals then g.1.intervalsLeft else numIntervals) =
      performed numIntervals g.1 := by
    intro henabled
    rw [performed_eq henabled, Nat.min_def]
    split_ifs <;> omega
  unfold shift
  by_cases henabled : g.1.enabled = false
  · rw [if_pos henabled, if_pos henabled]
  rw [if_neg henabled, if_neg henabled]
  by_cases hleft : g.1.intervalsLeft = 0
  · rw [if_pos hleft, if_pos hleft]
  rw [if_neg hleft, if_neg hleft, hmin (Bool.eq_true_of_not_eq_false henabled)]
  dsimp only
  rw [h.iterate]
  dsimp only
  rw [BitVec.add_comm, BitVec.add_sub_cancel]

end Libtarp.Guard
