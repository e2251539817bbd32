import Libtarp.Sched.Deadline
import Mathlib.Algebra.Order.Ring.Int

/-!
# Periodic tasks (`periodic_task_mixin` in `sched.hxx`, `misc/sched.cxx`)

A task has a deadline, and one that has expired can be renewed, a number of times if there is a limit. Deadlines and
readings of the clock are its 64-bit nanoseconds, the interval is in milliseconds and a delay in microseconds; products
and sums wrap round. A function that looks at the clock more than once gets the readings as arguments.

* `renew_renewed_iff`, `renew_early`, `renew_unrenewable`: an attempt at renewal, by the deadline and the two readings.
* `renewals_iff`: all attempts of a run are right where every new deadline is a time that the clock has.
* `PeriodicTask.item`: a task is what the deadline scheduler asks for.
-/

namespace Libtarp.Sched

open Lib

instance linearOrderInt64 : LinearOrder Int64 where
  le_refl _ := Int64.le_refl _
  le_trans _ _ _ := Int64.le_trans
  le_antisymm _ _ := Int64.le_antisymm
  le_total := Int64.le_total
  lt_iff_le_not_ge a b := by rw [Int64.not_le]; exact ⟨fun h => ⟨Int64.le_of_lt h, h⟩, And.right⟩
  toDecidableLE _ _ := inferInstance

/-- What milliseconds are converted to. -/
def milliseconds (n : Int64) : Int64 := 1000000 * n

/-- What microseconds are converted to. -/
def microseconds (n : Int64) : Int64 := 1000 * n

/-- `periodic_task_mixin`, without its token. -/
structure PeriodicTask where
  nextDeadline : Int64
  interval : Int64
  maxNumRenewals : Option UInt64
  numRenewals : UInt64
  startExpired : Bool

/-- How `renew` ends. -/
inductive Renewal
  | renewed
  | canceled
  /-- `std::logic_error("Illegal attempt to renew before deadline")` -/
  | beforeDeadline
  /-- `std::logic_error("Illegal attempt to renew un-renewable item")` -/
  | unrenewable
  deriving DecidableEq

/-- The constructor. -/
def PeriodicTask.new (interval : Int64) (maxNumRenewals : Option UInt64) (startsExpired : Bool) (now : Int64) :
    PeriodicTask where
  nextDeadline := if startsExpired then now else now + milliseconds interval
  interval := interval
  maxNumRenewals := maxNumRenewals
  numRenewals := 0
  startExpired := startsExpired

def PeriodicTask.expired (now : Int64) (t : PeriodicTask) : Bool := now ≥ t.nextDeadline

def PeriodicTask.delay (delay : Int64) (t : PeriodicTask) : PeriodicTask :=
  { t with nextDeadline := t.nextDeadline + microseconds delay }

def PeriodicTask.renewable (canceled : Bool) (t : PeriodicTask) : Bool :=
  if canceled then false
  else
    match t.maxNumRenewals with
    | none => true
    | some maxNumRenewals => maxNumRenewals > t.numRenewals

/-- `renew`; `expired` reads `now`, and `now'` is read after that. -/
def PeriodicTask.renew (canceled : Bool) (now now' : Int64) (t : PeriodicTask) : PeriodicTask × Renewal :=
  if canceled then (t, .canceled)
  else if t.expired now = false then (t, .beforeDeadline)
  else if t.renewable canceled = false then (t, .unrenewable)
  else
    ({ t with
        nextDeadline :=
          if t.nextDeadline + milliseconds t.interval > now' then t.nextDeadline + milliseconds t.interval
          else now' + milliseconds t.interval
        numRenewals := t.numRenewals + 1 }, .renewed)

/-- A task in the queue of the deadline scheduler. -/
def PeriodicTask.item : DeadlineItem PeriodicTask Int64 where
  expirationTime := PeriodicTask.nextDeadline
  expired := PeriodicTask.expired
  expired_iff _ _ := decide_eq_true_iff

/-! ## Attempts at renewal -/

inductive TaskCall
  | renew (now now' : Int64)
  | delay (d : Int64)

/-- A task, and how many attempts at renewal were made at or past a deadline. -/
structure Attempts where
  task : PeriodicTask
  count : ℕ

/-- A call of a task that is not canceled. -/
def TaskCall.does (c : TaskCall) (s : Attempts) : Except Empty (Attempts × Option Renewal) :=
  match c with
  | .renew now now' =>
    .ok ({ task := (s.task.renew false now now').1, count := if s.task.expired now then s.count + 1 else s.count },
      some (s.task.renew false now now').2)
  | .delay d => .ok ({ s with task := s.task.delay d }, none)

/-- The interval, in nanoseconds. -/
def PeriodicTask.period (t : PeriodicTask) : ℤ := 10 ^ 6 * t.interval.toInt

/-- What a renewal is to do, where the clock read `now'`. -/
structure Renewed (t t' : PeriodicTask) (now' : Int64) : Prop where
  afterReading : now' < t'.nextDeadline
  afterDeadline : t.nextDeadline < t'.nextDeadline
  /-- The phase is kept. -/
  inTime : now'.toInt < t.nextDeadline.toInt + t.period → t'.nextDeadline.toInt = t.nextDeadline.toInt + t.period
  late : t.nextDeadline.toInt + t.period ≤ now'.toInt → t'.nextDeadline.toInt = now'.toInt + t.period

/-- When the next deadline is due: an interval after the last, or after the reading where that is past. -/
def PeriodicTask.nextDue (now' : Int64) (t : PeriodicTask) : ℤ :=
  if now'.toInt < t.nextDeadline.toInt + t.period then t.nextDeadline.toInt + t.period else now'.toInt + t.period

/-- Before the deadline an attempt fails; of the others, as many succeed as the limit says, and then none does. -/
def TaskCall.Right (c : TaskCall) (s : Attempts) (out : Except Empty (Attempts × Option Renewal)) : Prop :=
  ∃ s' r, out = .ok (s', r) ∧
    match c with
    | .renew now now' =>
      (now < s.task.nextDeadline → r = some .beforeDeadline ∧ s' = s) ∧
      (s.task.nextDeadline ≤ now → s'.count = s.count + 1 ∧
        ((∀ m ∈ s.task.maxNumRenewals, s.count < m.toNat) → r = some .renewed ∧ Renewed s.task s'.task now') ∧
        (∀ m ∈ s.task.maxNumRenewals, m.toNat ≤ s.count → r = some .unrenewable ∧ s'.task = s.task))
    | .delay d => s'.task.nextDeadline = s.task.nextDeadline + microseconds d ∧ s'.count = s.count

/-- Where an attempt is made at or past the deadline and the limit is not reached, the clock has the next deadline. -/
def TaskCall.Lasts (c : TaskCall) (s : Attempts) : Prop :=
  match c with
  | .renew now now' => s.task.nextDeadline ≤ now → (∀ m ∈ s.task.maxNumRenewals, s.count < m.toNat) →
      s.task.nextDue now' < 2 ^ 63
  | .delay _ => True

/-- The invariant: the attempts are counted up to the limit. -/
structure Attempts.Inv (interval : Int64) (s : Attempts) : Prop where
  interval : s.task.interval = interval
  count : ∀ m ∈ s.task.maxNumRenewals, s.task.numRenewals.toNat = min s.count m.toNat

theorem succ_toNat {n m : UInt64} (h : n.toNat < m.toNat) : (n + 1).toNat = n.toNat + 1 := by
  have hm := m.toNat_lt
  rw [UInt64.toNat_add, UInt64.toNat_one]
  omega

theorem renewable_iff (t : PeriodicTask) :
    t.renewable false = true ↔ ∀ m ∈ t.maxNumRenewals, t.numRenewals.toNat < m.toNat := by
  unfold PeriodicTask.renewable
  cases t.maxNumRenewals with
  | none => simp
  | some m => simp [UInt64.lt_iff_toNat_lt]

/-- A sum is right where it is a time that the clock has. -/
theorem toInt_add_milliseconds (t n : Int64) :
    (t + milliseconds n).toInt = (t.toInt + 10 ^ 6 * n.toInt).bmod (2 ^ 64) := by
  unfold milliseconds
  rw [Int64.toInt_add, Int64.toInt_mul, Int.add_bmod_bmod]
  rfl

theorem bmod_eq_iff {x : ℤ} (h : -2 ^ 63 ≤ x) : x.bmod (2 ^ 64) = x ↔ x < 2 ^ 63 := by
  constructor
  · intro heq
    have hlt := Int.bmod_lt (x := x) (m := 2 ^ 64) (by decide)
    omega
  · intro hlt
    exact Int.bmod_eq_of_le (by omega) (by omega)

/-- **An attempt at or past the deadline** of a task with renewals left. -/
theorem renew_renewed_iff {t : PeriodicTask} {now : Int64} (now' : Int64) (hexpired : t.nextDeadline ≤ now)
    (hpos : 0 < t.interval) (hleft : t.renewable false = true) :
    ∃ t', t.renew false now now' = (t', .renewed) ∧ (Renewed t t' now' ↔ t.nextDue now' < 2 ^ 63) ∧
      t'.interval = t.interval ∧ t'.maxNumRenewals = t.maxNumRenewals ∧ t'.numRenewals = t.numRenewals + 1 := by
  have hpast : t.expired now = true := decide_eq_true hexpired
  unfold PeriodicTask.renew
  rw [hpast, hleft]
  refine ⟨_, rfl, ?_, rfl, rfl, rfl⟩
  have hperiod : 0 < t.period := by
    unfold PeriodicTask.period
    have hint : (0 : ℤ) < t.interval.toInt := Int64.lt_iff_toInt_lt.1 hpos
    omega
  have hdeadline := t.nextDeadline.le_toInt
  have hreading := now'.le_toInt
  have hend := now'.toInt_lt
  have hsum : (t.nextDeadline + milliseconds t.interval).toInt = (t.nextDeadline.toInt + t.period).bmod (2 ^ 64) :=
    toInt_add_milliseconds ..
  have hsum' : (now' + milliseconds t.interval).toInt = (now'.toInt + t.period).bmod (2 ^ 64) :=
    toInt_add_milliseconds ..
  have hiff := bmod_eq_iff (x := t.nextDeadline.toInt + t.period) (by omega)
  have hiff' := bmod_eq_iff (x := now'.toInt + t.period) (by omega)
  unfold PeriodicTask.nextDue
  constructor
  · rintro ⟨-, -, hinTime, hlate⟩
    dsimp only at hinTime hlate
    split_ifs with hearly
    · -- what wraps round is not the sum
      have heq := hinTime hearly
      rw [← heq]
      exact Int64.toInt_lt _
    · have heq := hlate (not_lt.1 hearly)
      rw [← heq]
      exact Int64.toInt_lt _
  · intro hfits
    by_cases hearly : now'.toInt < t.nextDeadline.toInt + t.period
    · rw [if_pos hearly] at hfits
      rw [hiff.2 hfits] at hsum
      have hgt : t.nextDeadline + milliseconds t.interval > now' := Int64.lt_iff_toInt_lt.2 (by omega)
      refine ⟨?_, ?_, ?_, ?_⟩
      all_goals
        dsimp only
        rw [if_pos hgt]
      · exact hgt
      · exact Int64.lt_iff_toInt_lt.2 (by omega)
      · exact fun _ => hsum
      · exact fun hno => absurd hearly (not_lt.2 hno)
    · rw [if_neg hearly] at hfits
      rw [hiff.2 (by omega)] at hsum
      rw [hiff'.2 hfits] at hsum'
      have hle : ¬t.nextDeadline + milliseconds t.interval > now' := by
        intro hgt
        have hlt := Int64.lt_iff_toInt_lt.1 hgt
        omega
      refine ⟨?_, ?_, ?_, ?_⟩
      all_goals
        dsimp only
        rw [if_neg hle]
      · exact Int64.lt_iff_toInt_lt.2 (by omega)
      · exact Int64.lt_iff_toInt_lt.2 (by omega)
      · exact fun hno => absurd hno hearly
      · exact fun _ => hsum'

theorem renew_early {t : PeriodicTask} {now : Int64} (now' : Int64) (h : now < t.nextDeadline) :
    t.expired now = false ∧ t.renew false now now' = (t, .beforeDeadline) := by
  have hearly : t.expired now = false := decide_eq_false (not_le.2 h)
  refine ⟨hearly, ?_⟩
  unfold PeriodicTask.renew
  rw [hearly]
  rfl

theorem renew_unrenewable {t : PeriodicTask} {now : Int64} (now' : Int64) (hexpired : t.nextDeadline ≤ now)
    (hnone : t.renewable false = false) : t.renew false now now' = (t, .unrenewable) := by
  have hpast : t.expired now = true := decide_eq_true hexpired
  unfold PeriodicTask.renew
  rw [hpast, hnone]
  rfl

/-- The limit has not been reached. -/
theorem Attempts.Inv.left_iff {interval : Int64} {s : Attempts} (h : s.Inv interval) :
    s.task.renewable false = true ↔ ∀ m ∈ s.task.maxNumRenewals, s.count < m.toNat := by
  rw [renewable_iff]
  refine forall₂_congr fun m hm => ?_
  have hcount := h.count m hm
  omega

/-- **One call.** -/
theorem Attempts.Inv.call {interval : Int64} {s : Attempts} (h : s.Inv interval) (hpos : 0 < interval) (c : TaskCall) :
    ∃ s' r, c.does s = .ok (s', r) ∧ s'.Inv interval ∧ (c.Right s (c.does s) ↔ c.Lasts s) := by
  cases c with
  | delay d => exact ⟨_, _, rfl, ⟨h.interval, h.count⟩, iff_of_true ⟨_, _, rfl, rfl, rfl⟩ trivial⟩
  | renew now now' =>
    rcases lt_or_ge now s.task.nextDeadline with hearly | hexpired
    · obtain ⟨hnot, hrenew⟩ := renew_early now' hearly
      have hdoes : (TaskCall.renew now now').does s = .ok (s, some .beforeDeadline) := by
        unfold TaskCall.does
        dsimp only
        rw [hrenew, if_neg (hnot ▸ Bool.false_ne_true)]
      have hno : ¬s.task.nextDeadline ≤ now := not_le.2 hearly
      exact ⟨s, _, hdoes, h, iff_of_true ⟨s, _, hdoes, fun _ => ⟨rfl, rfl⟩, fun hge => absurd hge hno⟩
        fun hge => absurd hge hno⟩
    have hpast : s.task.expired now = true := decide_eq_true hexpired
    have hnot : ¬now < s.task.nextDeadline := not_lt.2 hexpired
    cases hleft : s.task.renewable false with
    | true =>
      obtain ⟨t', hrenew, hright, hinterval, hmax, hnum⟩ := renew_renewed_iff now' hexpired (h.interval ▸ hpos) hleft
      have hdoes : (TaskCall.renew now now').does s = .ok (⟨t', s.count + 1⟩, some .renewed) := by
        unfold TaskCall.does
        dsimp only
        rw [hrenew, if_pos hpast]
      have hall := h.left_iff.1 hleft
      refine ⟨_, _, hdoes, ⟨hinterval.trans h.interval, ?_⟩, ?_⟩
      · intro m hm
        dsimp only at hm ⊢
        rw [hmax] at hm
        have hlt := (renewable_iff s.task).1 hleft m hm
        have hcount := h.count m hm
        rw [hnum, succ_toNat hlt]
        omega
      · rw [hdoes]
        constructor
        · rintro ⟨s', r, hout, -, hlate⟩ _ _
          obtain ⟨rfl, -⟩ := Prod.mk.inj (Except.ok.inj hout)
          exact hright.1 ((hlate hexpired).2.1 hall).2
        · intro hlasts
          refine ⟨_, _, rfl, fun hlt => absurd hlt hnot, fun _ => ⟨rfl, fun _ => ⟨rfl, ?_⟩, ?_⟩⟩
          · exact hright.2 (hlasts hexpired hall)
          · exact fun m hm hle => absurd (hall m hm) (not_lt.2 hle)
    | false =>
      have hrenew := renew_unrenewable now' hexpired hleft
      -- there is a limit, and it has been reached
      obtain ⟨m, hm, hle⟩ : ∃ m, s.task.maxNumRenewals = some m ∧ m.toNat ≤ s.count := by
        by_contra hnot
        push Not at hnot
        have hmore := h.left_iff.2 hnot
        rw [hleft] at hmore
        exact Bool.false_ne_true hmore
      have hdoes : (TaskCall.renew now now').does s = .ok (⟨s.task, s.count + 1⟩, some .unrenewable) := by
        unfold TaskCall.does
        dsimp only
        rw [hrenew, if_pos hpast]
      have hsome : ¬∀ m ∈ s.task.maxNumRenewals, s.count < m.toNat := fun hall => absurd (hall m hm) (not_lt.2 hle)
      refine ⟨_, _, hdoes, ⟨h.interval, ?_⟩, iff_of_true ⟨_, _, hdoes, fun hlt => absurd hlt hnot, fun _ =>
        ⟨rfl, fun hall => absurd hall hsome, fun _ _ _ => ⟨rfl, rfl⟩⟩⟩ fun _ hall => absurd hall hsome⟩
      intro m' hm'
      obtain rfl := Option.some.inj (hm.symm.trans hm')
      have hcount := h.count m hm
      dsimp only
      omega

/-! ## Runs -/

/-- **All attempts of a run** at the renewal of a task that is not canceled are right exactly where the clock has every
new deadline. -/
theorem renewals_iff (interval : Int64) (maxNumRenewals : Option UInt64) (startsExpired : Bool) (now : Int64)
    (hpos : 0 < interval) (calls : List TaskCall) :
    Always TaskCall.does TaskCall.Right calls ⟨.new interval maxNumRenewals startsExpired now, 0⟩ ↔
      Meets TaskCall.does TaskCall.Lasts calls ⟨.new interval maxNumRenewals startsExpired now, 0⟩ := by
  refine always_iff_meets (Attempts.Inv interval) ?_ ⟨rfl, fun m _ => (Nat.zero_min _).symm⟩
  intro c s h
  obtain ⟨s', r, hdoes, hinv, hiff⟩ := h.call hpos c
  refine ⟨hiff, fun _ s'' r' hr => ?_⟩
  obtain ⟨rfl, -⟩ := Prod.mk.inj (Except.ok.inj (hdoes.symm.trans hr))
  exact hinv

/-- Two renewals of a task that is at first expired, one of them late, and a third attempt. -/
theorem renewals_iff_two : Always TaskCall.does TaskCall.Right
    [.renew 0 1, .renew 10000005 30000000, .delay 1, .renew 50000000 50000000] ⟨.new 10 (some 2) true 0, 0⟩ := by
  refine (renewals_iff 10 (some 2) true 0 (by decide) _).2 ?_
  refine .cons (fun _ _ => by decide +kernel) rfl (.cons (fun _ _ => by decide +kernel) rfl ?_)
  exact .cons trivial rfl (.last fun _ _ => by decide +kernel)

/-- A task with the longest interval is due before the reading by which it was renewed. -/
theorem longest_interval :
    ¬Always TaskCall.does TaskCall.Right [.renew 0 0] ⟨.new Int64.maxValue none true 0, 0⟩ := by
  intro h
  obtain ⟨s', r, hout, -, hlate⟩ := h [] (.renew 0 0) _ _ (List.prefix_refl _) rfl
  obtain ⟨rfl, -⟩ := Prod.mk.inj (Except.ok.inj hout)
  have hafter := ((hlate (by decide +kernel)).2.1 nofun).2.afterReading
  exact absurd hafter (by decide +kernel)

end Libtarp.Sched
