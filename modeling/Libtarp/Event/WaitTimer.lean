import Libtarp.Event.TimerRuns

/-!
# The timer that ends the wait (`wake_on_first_timer` in `event.c`)

The pump waits until the first of its timers expires, or for ten hours where there is none. The timer of the
operating system takes any `tv_nsec` below 10^9; the assertion before it does not take the largest of these.

* `expiration_nsec`: what registration leaves in a timer, from its interval and the clock.
* `wake_accepts_iff`: the times with which the pump goes on.
-/

namespace Libtarp.Event

open Function Lib

variable {T F W D : Type}

/-- `EVP_DEFAULT_WAIT_TIME_SECS`. -/
def evpDefaultWaitTimeSecs : Int64 := 36000

/-- `pick_shortest_wait_time`, where the clock reads `now`. -/
def pickShortestWaitTime (s : Pump T F W D) (now : Timespec) : Timespec :=
  match s.timers with
  | [] => { now with sec := now.sec + evpDefaultWaitTimeSecs }
  | tev :: _ => s.tspec tev

/-- `wake_on_first_timer`, up to the call of `timerfd_settime`: the time that is handed over to it. -/
def wakeOnFirstTimer (s : Pump T F W D) (now : Timespec) : Except Fault Timespec :=
  let itValue := pickShortestWaitTime s now
  if itValue.nsec < 999999999 then .ok itValue else .error .assertion

/-- The nanoseconds of the clock, where there is no timer; else those of the first timer. -/
def Pump.wakeNsec (s : Pump T F W D) (now : Timespec) : ℕ :=
  match s.timers.head? with
  | none => now.nsec
  | some tev => (s.tspec tev).nsec

/-- The clock now, or the clock at the registration of the first timer and its interval, are not a nanosecond short of
a second. -/
def World.WakesAt (s : World T F W D) (now : Timespec) : Prop :=
  match s.pump.timers.head? with
  | none => now.nsec ≠ 999999999
  | some tev => s.history.expiration (s.history.current tev) % nsecsPerSec ≠ 999999999

theorem Timespec.nsec_le (ts : Timespec) : ts.nsec ≤ 999999999 := Nat.le_of_lt_succ ts.nsec_lt

/-- The nanoseconds past the second of a time point. -/
theorem Timespec.value_emod (ts : Timespec) : ts.value % nsecsPerSec = ts.nsec := by
  have h := ts.nsec_lt
  unfold Timespec.value
  rw [Int.mul_add_emod_self_right]
  exact Int.emod_eq_of_lt (Int.natCast_nonneg _) (Int.ofNat_lt.2 h)

theorem pickShortestWaitTime_nsec (s : Pump T F W D) (now : Timespec) :
    (pickShortestWaitTime s now).nsec = s.wakeNsec now := by
  unfold pickShortestWaitTime Pump.wakeNsec
  cases s.timers with
  | nil => rfl
  | cons tev timers => rfl

/-- **One time is refused.** -/
theorem wakeOnFirstTimer_iff (s : Pump T F W D) (now : Timespec) :
    wakeOnFirstTimer s now = .ok (pickShortestWaitTime s now) ↔ s.wakeNsec now ≠ 999999999 := by
  have hle := (pickShortestWaitTime s now).nsec_le
  unfold wakeOnFirstTimer
  rw [← pickShortestWaitTime_nsec]
  dsimp only
  split_ifs with h
  · exact ⟨fun _ => Nat.ne_of_lt h, fun _ => rfl⟩
  · have heq : (pickShortestWaitTime s now).nsec = 999999999 := by omega
    constructor
    · intro hok
      cases hok
    · intro hne
      exact absurd heq hne

variable [DecidableEq T]

/-- **What registration leaves in a timer**: the time of the call and the interval. -/
theorem expiration_nsec {s : World T F W D} (h : s.TimersRight) {tev : T} (hmem : tev ∈ s.pump.timers) :
    (s.pump.tspec tev).nsec = s.history.expiration (s.history.current tev) % nsecsPerSec := by
  rw [← h.expiration tev hmem, Timespec.value_emod]

variable [DecidableEq F] [DecidableEq W]

/-- **The times with which the pump goes on.** The expirations are normalised, and the pump is stopped where the
nanoseconds of the one it waits for are 999999999: without timers those of the clock, and else those of the first
timer, which are the clock's at its registration and the interval's. -/
theorem wake_accepts_iff (c : Client F W) (tspec : T → Timespec) (s : World T F W D) (now : Timespec) :
    (∀ tev ∈ s.pump.timers, (s.pump.tspec tev).nsec ≤ 999999999) ∧
      (wakeOnFirstTimer s.pump now = .ok (pickShortestWaitTime s.pump now) ↔ s.pump.wakeNsec now ≠ 999999999) ∧
      (Reaches (World.step c) IntervalsKept (World.new tspec) s →
        (wakeOnFirstTimer s.pump now = .ok (pickShortestWaitTime s.pump now) ↔ s.WakesAt now)) := by
  refine ⟨?_, ?_, ?_⟩
  · intro tev _
    exact (s.pump.tspec tev).nsec_le
  · exact wakeOnFirstTimer_iff s.pump now
  · intro hreach
    have hkept := hreach.invariant (fun _ _ _ hk hc hs => World.TimersKept.step hk hc hs) (World.TimersKept.new tspec)
    rw [wakeOnFirstTimer_iff]
    unfold Pump.wakeNsec World.WakesAt
    cases hfirst : s.pump.timers.head? with
    | none => exact Iff.rfl
    | some tev =>
      have hnsec := expiration_nsec hkept.right (List.mem_of_mem_head? hfirst)
      dsimp only
      rw [← hnsec]
      omega

/-- Half a second. -/
def halfSecond : Timespec where
  sec := 0
  nsec := 500000000
  nsec_lt := by decide

/-- **The pump is stopped** by a timer of half a second that is registered at 0.499999999 seconds, and without
timers where the clock reads 0.999999999 seconds. -/
theorem wake_fails : ∃ s, Reaches (World.step oneClient) Free
    (World.new fun _ : Unit => halfSecond : World Unit Unit Unit Unit) s ∧
      s.pump.timers ≠ [] ∧ (∀ now, wakeOnFirstTimer s.pump now = .error .assertion) ∧
      wakeOnFirstTimer (World.new fun _ : Unit => halfSecond : World Unit Unit Unit Unit).pump
        ⟨0, 999999999, by decide⟩ = .error .assertion := by
  obtain ⟨s, hs⟩ : ∃ s, World.step oneClient (.request (.registerTimer () ⟨0, 499999999, by decide⟩))
      (World.new fun _ : Unit => halfSecond : World Unit Unit Unit Unit) = some s := ⟨_, rfl⟩
  refine ⟨s, reaches_of_step trivial hs, ?_⟩
  obtain rfl := Option.some.inj hs
  refine ⟨?_, ?_, ?_⟩
  · exact List.cons_ne_nil () []
  · intro now
    rfl
  · rfl

end Libtarp.Event
