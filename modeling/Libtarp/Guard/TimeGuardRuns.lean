import Libtarp.Guard.TimeGuard
import Libtarp.Lib.Run

/-!
# Runs of guards with a fixed interval (`TimeGuard` in `timeguard.hxx`)

The intervals that are left are counted down. There is no number for "any number of them": a guard without a limit
starts with none left, and is disabled by the first shift.

* `Right`: what the number of intervals means, by what has been asked for.
* `Limited`, `Unlimited`: the invariants.
* `guard_right_iff`: it means that in the runs where a guard without a limit is not shifted at all.
-/

namespace Libtarp.Guard

open Lib

/-- `TimeGuard::advance`, where nothing is added to the guard. -/
def periodic (g : TimeGuard × Unit) : TimeGuard × Unit := (g.1.advance, g.2)

theorem periodic_steps : Steps periodic (fun _ interval => interval) id := fun _ => rfl

theorem total_periodic (interval : Ticks) (n : ℕ) (e : Unit) :
    total (fun _ interval => interval) id interval n e = (n : Ticks) * interval := by
  induction n generalizing e with
  | zero =>
    unfold total
    rw [Nat.cast_zero, zero_mul]
  | succ n ih =>
    unfold total
    rw [ih, Nat.cast_succ, add_mul, one_mul, add_comm]

/-- The constructor of `TimeGuard`. -/
def TimeGuard.new (undef : TimeGuard) (interval : Ticks) (startLow : Bool) (maxIntervals : Int32) (now : Ticks) :
    TimeGuard × Unit :=
  initializeGuard periodic now (undef.members interval startLow maxIntervals, ())

/-! ## Calls -/

inductive GuardCall
  | shift (numIntervals : ℕ)
  | up (now : Ticks)

/-- A guard, the number of intervals that it was to be shifted by so far, and whether it was shifted when this had
come to `max_intervals` already. -/
structure Asked where
  guard : TimeGuard × Unit
  asked : ℕ
  spent : Bool

def GuardCall.does (c : GuardCall) (s : Asked) : Except Empty (Asked × Option Bool) :=
  match c with
  | .shift numIntervals =>
    .ok ({ guard := Guard.shift periodic numIntervals s.guard
           asked := s.asked + numIntervals
           spent := s.spent || decide (s.guard.1.maxIntervals.toInt ≤ s.asked) }, none)
  | .up now => .ok ({ s with guard := ((s.guard.1.isUp now).1, s.guard.2) }, some (s.guard.1.isUp now).2)

/-- A new guard. One that starts high has been shifted once. -/
def Asked.new (undef : TimeGuard) (interval : Ticks) (startLow : Bool) (maxIntervals : Int32) (now : Ticks) : Asked where
  guard := TimeGuard.new undef interval startLow maxIntervals now
  asked := if startLow then 0 else 1
  spent := false

/-- What `max_intervals` means. -/
def Right (interval start : Ticks) (maxIntervals : Int32) (s : Asked) : Prop :=
  (maxIntervals < 0 → s.guard.1.enabled = true ∧ s.guard.1.nextTimepoint = start + (s.asked : Ticks) * interval) ∧
  (0 < maxIntervals →
    s.guard.1.nextTimepoint = start + ((min s.asked maxIntervals.toInt.toNat : ℕ) : Ticks) * interval ∧
    (s.guard.1.enabled = false ↔ s.spent = true))

/-- A guard with a limit that has not been disabled has the rest of its intervals left. -/
structure Limited (interval start : Ticks) (maxIntervals : Int32) (s : Asked) : Prop where
  base : s.guard.1.baseInterval = interval
  limit : s.guard.1.maxIntervals = maxIntervals
  left : s.guard.1.intervalsLeft = maxIntervals.toInt.toNat - s.asked
  timepoint : s.guard.1.nextTimepoint = start + ((min s.asked maxIntervals.toInt.toNat : ℕ) : Ticks) * interval
  enabled : s.guard.1.enabled = false ↔ s.spent = true
  spent : s.spent = true → maxIntervals.toInt.toNat ≤ s.asked

/-- A guard without a limit that has not been shifted. -/
structure Unlimited (start : Ticks) (maxIntervals : Int32) (s : Asked) : Prop where
  left : s.guard.1.intervalsLeft = 0
  timepoint : s.guard.1.nextTimepoint = start
  enabled : s.guard.1.enabled = true
  asked : s.asked = 0

variable {undef : TimeGuard} {interval start : Ticks} {maxIntervals : Int32} {s : Asked}

theorem pos_toInt (h : 0 < maxIntervals) : 0 < maxIntervals.toInt := by
  have hpos := Int32.lt_iff_toInt_lt.1 h
  rwa [Int32.toInt_zero] at hpos

/-! ## With a limit -/

theorem isUp_eq (now : Ticks) (g : TimeGuard) : ∃ up, (g.isUp now).1 = { g with up := up } := by
  unfold TimeGuard.isUp
  split_ifs
  · exact ⟨g.up, rfl⟩
  · exact ⟨false, rfl⟩
  · exact ⟨g.up, rfl⟩

/-- **A shift of a guard with a limit.** -/
theorem Limited.shift (h : Limited interval start maxIntervals s) (hpos : 0 < maxIntervals) (numIntervals : ℕ) :
    Limited interval start maxIntervals
      { guard := Guard.shift periodic numIntervals s.guard
        asked := s.asked + numIntervals
        spent := s.spent || decide (s.guard.1.maxIntervals.toInt ≤ s.asked) } := by
  have hm := pos_toInt hpos
  have hleft := h.left
  have htimepoint := h.timepoint
  have hspent := h.spent
  rw [shift_eq periodic_steps, h.limit]
  by_cases henabled : s.guard.1.enabled = false
  · -- it has been disabled, and nothing changes
    have hover := hspent (h.enabled.1 henabled)
    rw [if_pos henabled]
    refine ⟨h.base, h.limit, ?_, ?_, ?_, ?_⟩
    · dsimp only
      omega
    · rw [htimepoint, Nat.min_eq_right hover, Nat.min_eq_right (hover.trans (Nat.le_add_right ..))]
    · rw [h.enabled.1 henabled, Bool.true_or]
      exact ⟨fun _ => rfl, fun _ => henabled⟩
    · intro _
      exact hover.trans (Nat.le_add_right ..)
  have hnot : s.spent = false := Bool.eq_false_of_not_eq_true fun hs => henabled (h.enabled.2 hs)
  rw [if_neg henabled]
  by_cases hnone : s.guard.1.intervalsLeft = 0
  · have hover : maxIntervals.toInt.toNat ≤ s.asked := by omega
    rw [if_pos hnone]
    refine ⟨h.base, h.limit, ?_, ?_, ?_, ?_⟩
    · dsimp only
      omega
    · dsimp only
      rw [htimepoint, Nat.min_eq_right hover, Nat.min_eq_right (hover.trans (Nat.le_add_right ..))]
    · have hle : maxIntervals.toInt ≤ s.asked := by omega
      rw [decide_eq_true hle, Bool.or_true]
      exact ⟨fun _ => rfl, fun _ => rfl⟩
    · intro _
      exact hover.trans (Nat.le_add_right ..)
  · have hlt : s.asked < maxIntervals.toInt.toNat := by omega
    have hperformed : performed numIntervals s.guard.1 = min (maxIntervals.toInt.toNat - s.asked) numIntervals := by
      rw [performed_eq (Bool.eq_true_of_not_eq_false henabled), hleft]
    have hsum : min s.asked maxIntervals.toInt.toNat + min (maxIntervals.toInt.toNat - s.asked) numIntervals =
        min (s.asked + numIntervals) maxIntervals.toInt.toNat := by omega
    rw [if_neg hnone, hperformed]
    refine ⟨h.base, h.limit, ?_, ?_, ?_, ?_⟩
    · dsimp only
      omega
    · dsimp only
      rw [total_periodic, htimepoint, h.base, add_assoc, ← add_mul, ← Nat.cast_add, hsum]
    · have hgt : ¬maxIntervals.toInt ≤ s.asked := by omega
      rw [hnot, decide_eq_false hgt, Bool.false_or]
      exact ⟨fun hno => absurd hno henabled, fun hno => absurd hno Bool.false_ne_true⟩
    · intro hyes
      have hgt : ¬maxIntervals.toInt ≤ s.asked := by omega
      rw [hnot, decide_eq_false hgt, Bool.false_or] at hyes
      exact absurd hyes Bool.false_ne_true

theorem Limited.up (h : Limited interval start maxIntervals s) (now : Ticks) :
    Limited interval start maxIntervals { s with guard := ((s.guard.1.isUp now).1, s.guard.2) } := by
  obtain ⟨up, heq⟩ := isUp_eq now s.guard.1
  rw [heq]
  exact ⟨h.base, h.limit, h.left, h.timepoint, h.enabled, h.spent⟩

/-- A guard before it is shifted for the first time. -/
def fresh (undef : TimeGuard) (interval : Ticks) (startLow : Bool) (maxIntervals : Int32) (now : Ticks) : TimeGuard :=
  { undef.members interval startLow maxIntervals with
    up := !startLow
    intervalsLeft := if maxIntervals > 0 then maxIntervals.toInt.toNat else 0
    enabled := maxIntervals ≠ 0
    nextTimepoint := now }

theorem new_eq (undef : TimeGuard) (interval : Ticks) (startLow : Bool) (maxIntervals : Int32) (now : Ticks) :
    TimeGuard.new undef interval startLow maxIntervals now =
      if startLow = false then Guard.shift periodic 1 (fresh undef interval startLow maxIntervals now, ())
      else (fresh undef interval startLow maxIntervals now, ()) := rfl

theorem Limited.new (undef : TimeGuard) (startLow : Bool) (hpos : 0 < maxIntervals) :
    Limited interval start maxIntervals (Asked.new undef interval startLow maxIntervals start) := by
  have hm := pos_toInt hpos
  have henabled : (fresh undef interval startLow maxIntervals start).enabled = true := by
    apply decide_eq_true
    rintro rfl
    exact absurd hm (by decide)
  have hfresh : Limited interval start maxIntervals
      ⟨(fresh undef interval startLow maxIntervals start, ()), 0, false⟩ := by
    refine ⟨rfl, rfl, if_pos hpos, ?_, ?_, ?_⟩
    · rw [Nat.zero_min, Nat.cast_zero, zero_mul, add_zero]
      rfl
    · dsimp only
      rw [henabled]
      exact ⟨fun hno => absurd hno.symm Bool.false_ne_true, fun hno => absurd hno Bool.false_ne_true⟩
    · exact fun hno => absurd hno Bool.false_ne_true
  unfold Asked.new
  rw [new_eq]
  cases startLow with
  | true => exact hfresh
  | false =>
    have hshift := hfresh.shift hpos 1
    have hgt : ¬(fresh undef interval false maxIntervals start).maxIntervals.toInt ≤ (0 : ℕ) := not_le.2 hm
    dsimp only at hshift
    rw [decide_eq_false hgt] at hshift
    exact hshift

theorem Limited.right (h : Limited interval start maxIntervals s) (hpos : 0 < maxIntervals) :
    Right interval start maxIntervals s := by
  refine ⟨?_, fun _ => ⟨h.timepoint, h.enabled⟩⟩
  intro hneg
  have hlt := Int32.lt_iff_toInt_lt.1 hneg
  have hgt := Int32.lt_iff_toInt_lt.1 hpos
  omega

/-! ## Without a limit -/

/-- **The first shift disables the guard.** -/
theorem Unlimited.shift (h : Unlimited start maxIntervals s) (numIntervals : ℕ) :
    (Guard.shift periodic numIntervals s.guard).1.enabled = false := by
  unfold Guard.shift
  rw [if_neg (h.enabled ▸ Ne.symm Bool.false_ne_true), if_pos h.left]

theorem Unlimited.up (h : Unlimited start maxIntervals s) (now : Ticks) :
    Unlimited start maxIntervals { s with guard := ((s.guard.1.isUp now).1, s.guard.2) } := by
  obtain ⟨up, heq⟩ := isUp_eq now s.guard.1
  rw [heq]
  exact ⟨h.left, h.timepoint, h.enabled, h.asked⟩

theorem Unlimited.fresh (undef : TimeGuard) (interval : Ticks) (startLow : Bool) (hneg : maxIntervals < 0) :
    Unlimited start maxIntervals ⟨(Guard.fresh undef interval startLow maxIntervals start, ()), 0, false⟩ := by
  have hlt := Int32.lt_iff_toInt_lt.1 hneg
  refine ⟨?_, rfl, ?_, rfl⟩
  · apply if_neg
    intro hpos
    have hgt := Int32.lt_iff_toInt_lt.1 hpos
    omega
  · apply decide_eq_true
    rintro rfl
    exact absurd hlt (by decide)

theorem Unlimited.right (h : Unlimited start maxIntervals s) (hneg : maxIntervals < 0) :
    Right interval start maxIntervals s := by
  refine ⟨fun _ => ⟨h.enabled, ?_⟩, ?_⟩
  · rw [h.asked, h.timepoint, Nat.cast_zero, zero_mul, add_zero]
  · intro hpos
    have hlt := Int32.lt_iff_toInt_lt.1 hneg
    have hgt := Int32.lt_iff_toInt_lt.1 hpos
    omega

/-! ## Runs -/

theorem does_total (c : GuardCall) (s : Asked) : ∃ s' r, c.does s = .ok (s', r) := by
  cases c with
  | shift numIntervals => exact ⟨_, _, rfl⟩
  | up now => exact ⟨_, _, rfl⟩

/-- **The number of intervals means what it is to mean**, unless there is no limit and the guard is shifted. -/
theorem guard_right_iff (undef : TimeGuard) (interval start : Ticks) (startLow : Bool) (maxIntervals : Int32)
    (calls : List GuardCall) :
    After GuardCall.does (Right interval start maxIntervals) calls
        (Asked.new undef interval startLow maxIntervals start) ↔
      (maxIntervals < 0 → startLow = true ∧ ∀ c ∈ calls, ∀ numIntervals, c ≠ .shift numIntervals) := by
  by_cases hneg : maxIntervals < 0
  · rw [forall_prop_of_true hneg]
    have hfresh : Unlimited start maxIntervals ⟨(fresh undef interval startLow maxIntervals start, ()), 0, false⟩ :=
      Unlimited.fresh undef interval startLow hneg
    cases startLow with
    | false =>
      -- the constructor shifts the guard
      constructor
      · intro hall
        obtain ⟨s, rs, hrun, hright⟩ := hall [] (List.nil_prefix ..)
        obtain ⟨rfl, -⟩ := Prod.mk.inj (Except.ok.inj hrun)
        have henabled := (hright.1 hneg).1
        have hdisabled := hfresh.shift 1
        exact absurd (hdisabled.symm.trans henabled) Bool.false_ne_true
      · rintro ⟨hlow, -⟩
        exact absurd hlow Bool.false_ne_true
    | true =>
      have hmeets := meets_iff_forall (Q := fun c => ∀ numIntervals, c ≠ .shift numIntervals) does_total calls
        (Asked.new undef interval true maxIntervals start)
      have hiff : After GuardCall.does (Right interval start maxIntervals) calls
          (Asked.new undef interval true maxIntervals start) ↔
          Meets GuardCall.does (fun c _ => ∀ numIntervals, c ≠ .shift numIntervals) calls
            (Asked.new undef interval true maxIntervals start) := by
        apply after_iff_meets (Unlimited start maxIntervals)
        · intro c s h
          cases c with
          | shift numIntervals =>
            refine ⟨_, _, rfl, fun hno => absurd rfl (hno numIntervals), ?_⟩
            intro hright
            exact absurd ((h.shift numIntervals).symm.trans (hright.1 hneg).1) Bool.false_ne_true
          | up now => exact ⟨_, _, rfl, fun _ => h.up now, fun _ _ => GuardCall.noConfusion⟩
        · intro s h
          exact h.right hneg
        · exact hfresh
      rw [hiff, hmeets]
      exact ⟨fun hall => ⟨rfl, hall⟩, fun hall => hall.2⟩
  · have hm : Meets GuardCall.does (fun _ _ => True) calls (Asked.new undef interval startLow maxIntervals start) :=
      meets_free ..
    refine ⟨fun _ h => absurd h hneg, fun _ => ?_⟩
    by_cases hpos : 0 < maxIntervals
    · refine after_of_step (fun _ s => Limited interval start maxIntervals s) ?_ (fun _ s h => h.right hpos)
        (Limited.new undef startLow hpos) hm
      intro n c s _ h _
      cases c with
      | shift numIntervals => exact ⟨_, _, rfl, h.shift hpos numIntervals⟩
      | up now => exact ⟨_, _, rfl, h.up now⟩
    · refine after_of_step (fun _ _ => True) ?_ (fun _ _ _ => ⟨fun h => absurd h hneg, fun h => absurd h hpos⟩) trivial
        hm
      intro n c s _ _ _
      obtain ⟨s', r, he⟩ := does_total c s
      exact ⟨s', r, he, trivial⟩

/-- **A guard without a limit is disabled by its first shift**, and its end is where it was. -/
theorem unlimited_disabled : ¬After GuardCall.does (Right 5 0 (-1)) [.shift 1]
    (Asked.new ⟨false, 0, 0, false, false, 0, 0, 0⟩ 5 true (-1) 0) := by
  intro hall
  obtain ⟨s, rs, hrun, hright⟩ := hall [.shift 1] List.prefix_rfl
  obtain ⟨rfl, -⟩ := Prod.mk.inj (Except.ok.inj hrun)
  exact absurd (hright.1 (by decide)).1 (by decide)

end Libtarp.Guard
