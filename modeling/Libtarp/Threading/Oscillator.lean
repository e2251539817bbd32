import Libtarp.Threading.Entity
import Mathlib.Algebra.BigOperators.Group.List.Basic
import Mathlib.Algebra.Order.Ring.Int

/-!
# Oscillators (`misc/threading.cxx`)

An oscillator is a thread entity whose `do_work` ticks when a period is over since the last one began, and waits for
that otherwise. Other threads call `run`, `pause`, `stop` and `set_period` at any time. One event is what is done with
a mutex, or between two uses of one or of the clock: `set_period` signals when it has let go of `m_mtx`, so a call of it
is two events. A wake-up of the wait that finds neither a signal nor the time that is waited for changes nothing.

The times are readings of a clock that does not go back, in nanoseconds, and a period is what it is in these. What is
added to a time wraps round.

* `Paced`: no tick comes early, not even after one that came late.
* `Steady`: nor do the ticks drift.
* `Punctual`: nor does the wait go on past the next one.
* `ticks_on_time`: so it is in every run where the clock has the times that are added up.
-/

namespace Libtarp.Threading

open Lib

/-- A tick, and what `do_work` has read for it. -/
structure Tick where
  /-- `m_prev_tick_tp`, where the period began. -/
  base : ℤ
  period : ℤ
  /-- The reading that found the period over. -/
  now : ℤ
  /-- The reading after it. -/
  later : ℤ
  deriving DecidableEq

namespace Tick

/-- The next tick was due, too. -/
def Missed (t : Tick) : Prop := t.base + t.period + t.period ≤ t.later

instance (t : Tick) : Decidable t.Missed := inferInstanceAs (Decidable (_ ≤ _))

/-- Where the next period begins. -/
def next (t : Tick) : ℤ := if t.Missed then t.now else t.base + t.period

end Tick

/-- Where the thread is in `do_work`. -/
inductive OscillatorPc
  /-- About to copy the period. -/
  | copy
  /-- About to read the clock. -/
  | look (period : ℤ)
  /-- About to lock the mutex in `wait_until`. -/
  | enter (tp : ℤ)
  /-- Waiting for the condition. -/
  | asleep (tp : ℤ)
  /-- The period is over; about to read the clock again. -/
  | elapsed (base period now : ℤ)
  deriving DecidableEq

/-- The period that is added to the time of the last tick. -/
def OscillatorPc.added? : OscillatorPc → Option ℤ
  | .look period | .elapsed _ period _ => some period
  | .copy | .enter _ | .asleep _ => none

/-- `class Oscillator`, with `m_signaled` of the entity, the latest time, how many calls of `set_period` are about to
signal, the reading of `initialize`, and the ticks so far, the newest first. -/
structure Oscillator where
  period : ℤ
  prevTick : ℤ
  signaled : Bool
  entity : Entity
  work : OscillatorPc
  clock : ℤ
  owed : ℕ
  start : Option ℤ
  ticks : List Tick

inductive OscillatorEvent
  | run
  | pause
  | stop
  /-- `set_period`, in microseconds, until it lets go of the mutex. -/
  | setPeriod (period : ℤ)
  /-- What `set_period` does then. -/
  | signal
  /-- The thread goes on. -/
  | loop (now : ℤ)
  deriving DecidableEq

namespace Oscillator

/-- The period is `c_default_period`. -/
def new (clock : ℤ) : Oscillator where
  period := 10 ^ 9
  prevTick := 0
  signaled := false
  entity := Entity.new
  work := .copy
  clock := clock
  owed := 0
  start := none
  ticks := []

def run (s : Oscillator) : Oscillator := { s with entity := s.entity.run, signaled := true }

def stop (s : Oscillator) : Oscillator := { s with entity := s.entity.stop, signaled := true }

/-- `set_period`, up to the signal. -/
def setPeriod (period : ℤ) (s : Oscillator) : Oscillator :=
  let s := { s with period := 1000 * period }
  if s.entity.state = .initialized then s else { s with owed := s.owed + 1 }

/-- The return from `do_work`. -/
def returns (s : Oscillator) : Option Oscillator :=
  s.entity.loop.map fun entity => { s with entity := entity, work := .copy }

/-- `do_work`, from one change of the place to the next. -/
def doWork (s : Oscillator) : Option Oscillator :=
  match s.work with
  | .copy => some { s with work := .look s.period }
  | .look period =>
    let nextTick := timePoint (s.prevTick + period)
    if s.clock < nextTick then some { s with work := .enter nextTick }
    else some { s with prevTick := nextTick, work := .elapsed s.prevTick period s.clock }
  | .enter tp =>
    if s.signaled then { s with signaled := false }.returns else some { s with work := .asleep tp }
  | .asleep tp =>
    if s.signaled ∨ tp ≤ s.clock then { s with signaled := false }.returns else none
  | .elapsed base period now =>
    -- fallen behind: the next tick is due, too
    let prevTick := if timePoint (s.prevTick + period) ≤ s.clock then now else s.prevTick
    { s with prevTick := prevTick, ticks := ⟨base, period, now, s.clock⟩ :: s.ticks }.returns

/-- The thread of the oscillator goes on. -/
def loop (s : Oscillator) : Option Oscillator :=
  match s.entity.pc with
  | .doWork => s.doWork
  | .init => s.entity.loop.map fun entity => { s with prevTick := s.clock, start := some s.clock, entity := entity }
  | _ => s.entity.loop.map fun entity => { s with entity := entity }

/-- The clock does not go back. -/
def reads (now : ℤ) (s : Oscillator) : Option Oscillator :=
  if s.clock ≤ now then some { s with clock := now } else none

def step (e : OscillatorEvent) (s : Oscillator) : Option Oscillator :=
  match e with
  | .run => some s.run
  | .pause => some { s with entity := s.entity.pause }
  | .stop => some s.stop
  | .setPeriod period => some (s.setPeriod period)
  | .signal => if 0 < s.owed then some { s with owed := s.owed - 1 }.run else none
  | .loop now => (s.reads now).bind loop

/-- The clock has the time of the next tick. -/
def Lasts (e : OscillatorEvent) (s : Oscillator) : Prop :=
  match e with
  | .run | .pause | .stop | .setPeriod _ | .signal => True
  | .loop _ => ∀ period ∈ s.work.added?, Fits (s.prevTick + period)

instance (e : OscillatorEvent) (s : Oscillator) : Decidable (Lasts e s) :=
  match e with
  | .run | .pause | .stop | .setPeriod _ | .signal => inferInstanceAs (Decidable True)
  | .loop _ => inferInstanceAs (Decidable (∀ period ∈ s.work.added?, _))

/-- The periods of some ticks. -/
def periods (ticks : List Tick) : ℤ := (ticks.map Tick.period).sum

/-- **No tick is early.** Since `initialize` there was time for all the periods; and between two ticks there was time for
the periods of all that followed the first, but for how late that one was, which is less than its period where it did not
miss the next. -/
def Paced (s : Oscillator) : Prop :=
  ∀ newer t older, s.ticks = newer ++ t :: older →
    (∃ start ∈ s.start, start + periods (t :: older) ≤ t.now) ∧
    ∀ u ∈ newer.head?, (t.Missed → t.now + periods newer ≤ u.now) ∧
      (¬t.Missed → t.now + periods newer < u.now + t.period)

/-- **No drift.** As long as no tick missed the next one, each was due when as many periods were over as there were
ticks, whenever those came. -/
def Steady (s : Oscillator) : Prop :=
  ∀ newer t older, s.ticks = newer ++ t :: older → (∀ u ∈ older, ¬u.Missed) →
    ∃ start ∈ s.start, t.base + t.period = start + periods (t :: older)

/-- Only the thread goes on, at one reading. -/
def Alone (now : ℤ) (e : OscillatorEvent) (_ : Oscillator) : Prop := e = .loop now

/-- The thread comes to a tick by itself, with no more of the clock. -/
def Comes (now : ℤ) (s : Oscillator) : Prop := ∃ s' t, Reaches step (Alone now) s s' ∧ s'.ticks = t :: s.ticks

/-- **No tick is missed by waiting.** When the next one is due an oscillator that runs comes to it, unless the period is
just being set. -/
def Punctual (s : Oscillator) : Prop :=
  ∀ now, s.clock ≤ now → s.entity.Begun → s.entity.state = .running → s.owed = 0 → Fits (s.prevTick + s.period) →
    s.prevTick + s.period ≤ now → Comes now s

/-! ## Ticks -/

variable {start : ℤ} {newer older ticks : List Tick} {t u : Tick}

/-- Where the next period begins. -/
def reference (start : ℤ) : List Tick → ℤ
  | [] => start
  | t :: _ => t.next

/-- Each tick was due, and its period began where the one before it left off. -/
def Chained (start : ℤ) : List Tick → Prop
  | [] => True
  | t :: ticks => t.base = reference start ticks ∧ t.base + t.period ≤ t.now ∧ t.now ≤ t.later ∧ Chained start ticks

theorem periods_cons (t : Tick) (ticks : List Tick) : periods (t :: ticks) = t.period + periods ticks := List.sum_cons

/-- A period begins when the one before is over, or later. -/
theorem le_next (h : t.base + t.period ≤ t.now) : t.base + t.period ≤ t.next := by
  unfold Tick.next
  split_ifs
  · exact h
  · exact le_rfl

theorem Chained.le_reference (h : Chained start ticks) : start + periods ticks ≤ reference start ticks := by
  induction ticks with
  | nil => exact (add_zero start).le
  | cons t ticks ih =>
    obtain ⟨hbase, hdue, -, hticks⟩ := h
    have hle := ih hticks
    have hnext := le_next hdue
    rw [periods_cons]
    show _ ≤ t.next
    omega

theorem Chained.le_now (h : Chained start (t :: ticks)) : start + periods (t :: ticks) ≤ t.now := by
  obtain ⟨hbase, hdue, -, hticks⟩ := h
  have hle := hticks.le_reference
  rw [periods_cons]
  omega

theorem Chained.before (h : Chained start (newer ++ t :: older)) : Chained start (t :: older) := by
  induction newer with
  | nil => exact h
  | cons u newer ih => exact ih h.2.2.2

/-- What came after a tick goes on from where that left off. -/
theorem Chained.after (h : Chained start (newer ++ t :: older)) : Chained t.next newer := by
  induction newer with
  | nil => trivial
  | cons u newer ih =>
    obtain ⟨hbase, hdue, hlater, hticks⟩ := h
    refine ⟨?_, hdue, hlater, ih hticks⟩
    rw [hbase]
    cases newer <;> rfl

theorem Chained.reference_eq (h : Chained start ticks) (hno : ∀ u ∈ ticks, ¬u.Missed) :
    reference start ticks = start + periods ticks := by
  induction ticks with
  | nil => exact (add_zero start).symm
  | cons t ticks ih =>
    obtain ⟨hbase, -, -, hticks⟩ := h
    obtain ⟨ht, hrest⟩ := List.forall_mem_cons.1 hno
    rw [ih hticks hrest] at hbase
    rw [periods_cons]
    show t.next = _
    rw [Tick.next, if_neg ht, hbase]
    omega

/-! ## What is kept -/

variable {s s₁ s' : Oscillator} {entity : Entity} {now : ℤ}

/-- What `do_work` is about to wait for, or to compare the clock with, is out of date. -/
def Stale (s : Oscillator) : Prop :=
  match s.work with
  | .look period => period ≠ s.period
  | .enter tp | .asleep tp => tp ≠ timePoint (s.prevTick + s.period)
  | .copy | .elapsed .. => False

/-- Where the period began that is to be over next. -/
def base (s : Oscillator) : ℤ :=
  match s.work with
  | .elapsed base _ _ => base
  | .copy | .look _ | .enter _ | .asleep _ => s.prevTick

/-- The invariant. Who waits for the wrong time has been signaled, or is going to be. -/
structure Kept (s : Oscillator) : Prop where
  entity : s.entity.Inv
  working : s.work ≠ .copy → s.entity.pc = .doWork
  elapsed : ∀ base period now, s.work = .elapsed base period now →
    s.prevTick = base + period ∧ base + period ≤ now ∧ now ≤ s.clock
  unbegun : ¬s.entity.Begun → s.ticks = []
  chained : s.entity.Begun → ∃ start ∈ s.start, s.base = reference start s.ticks ∧ Chained start s.ticks
  awake : s.Stale → s.signaled = true ∨ 0 < s.owed

theorem kept_new (clock : ℤ) : Kept (new clock) where
  entity := Entity.start_inv
  working := fun hno => absurd rfl hno
  elapsed := nofun
  unbegun := fun _ => rfl
  chained := fun hb => absurd rfl hb.1
  awake := fun hst => hst.elim

theorem begun_of_doWork (hpc : s.entity.pc = .doWork) : s.entity.Begun := by
  unfold Entity.Begun
  rw [hpc]
  exact ⟨nofun, nofun⟩

/-- **A call of another thread** to the entity. -/
theorem Kept.calls (h : Kept s) (hc : Entity.Calls s.entity entity) {signaled : Bool} {owed : ℕ}
    (hawake : s.Stale → signaled = true ∨ 0 < owed) :
    Kept { s with entity := entity, signaled := signaled, owed := owed } := by
  -- what has begun goes on where it was
  have hpc : s.entity.pc = entity.pc ∨ s.entity.pc = .unspawned ∧ entity.pc = .init := by
    rcases hc.pc with ⟨hpc, -⟩ | ⟨hinit, -, hpc, -⟩
    · exact .inl hpc.symm
    · exact .inr ⟨(h.entity.fresh hinit).1, hpc⟩
  have hbegun : entity.Begun ↔ s.entity.Begun := by
    unfold Entity.Begun
    rcases hpc with hpc | ⟨hpc, hpc'⟩
    · rw [hpc]
    · simp [hpc, hpc']
  refine ⟨h.entity.call hc, fun hno => ?_, h.elapsed, fun hno => h.unbegun (mt hbegun.2 hno),
    fun hb => h.chained (hbegun.1 hb), hawake⟩
  have hdoing := h.working hno
  rcases hpc with hpc | ⟨hpc, -⟩
  · exact hpc.symm.trans hdoing
  · exact absurd (hpc.symm.trans hdoing) nofun

theorem Kept.setPeriod (h : Kept s) (period : ℤ) : Kept (s.setPeriod period) := by
  unfold Oscillator.setPeriod
  by_cases hinit : s.entity.state = .initialized
  · -- there is no thread yet
    have hcopy : s.work = .copy := by
      by_contra hno
      exact absurd ((h.entity.fresh hinit).1.symm.trans (h.working hno)) nofun
    rw [if_pos hinit]
    refine ⟨h.entity, h.working, h.elapsed, h.unbegun, h.chained, fun hst => ?_⟩
    unfold Stale at hst
    rw [hcopy] at hst
    exact hst.elim
  · rw [if_neg hinit]
    exact ⟨h.entity, h.working, h.elapsed, h.unbegun, h.chained, fun _ => .inr (Nat.succ_pos _)⟩

/-- **`do_work` returns.** -/
theorem Kept.returns (h : Kept s) (hpc : s.entity.pc = .doWork) {prevTick : ℤ} {signaled : Bool} {ticks : List Tick}
    (hticks : ∀ start, s.base = reference start s.ticks → Chained start s.ticks →
      prevTick = reference start ticks ∧ Chained start ticks)
    (hs : { s with prevTick := prevTick, signaled := signaled, ticks := ticks }.returns = some s') : Kept s' := by
  obtain ⟨entity, hloop, rfl⟩ := Option.map_eq_some_iff.1 hs
  refine ⟨h.entity.loop hloop, fun hno => absurd rfl hno, nofun, fun hno => ?_, fun _ => ?_, fun hst => hst.elim⟩
  · exact absurd (Entity.loop_begun hloop) hno
  · obtain ⟨start, hstart, hbase, hchained⟩ := h.chained (begun_of_doWork hpc)
    exact ⟨start, hstart, hticks start hbase hchained⟩

theorem Kept.doWork (h : Kept s) (hc : ∀ period ∈ s.work.added?, Fits (s.prevTick + period))
    (hpc : s.entity.pc = .doWork) (hs : s.doWork = some s') : Kept s' := by
  have hb := begun_of_doWork hpc
  unfold Oscillator.doWork at hs
  cases hwork : s.work with
  | copy =>
    rw [hwork] at hs
    obtain rfl := Option.some.inj hs
    refine ⟨h.entity, fun _ => hpc, nofun, fun hno => absurd hb hno, fun hb => ?_, fun hst => absurd rfl hst⟩
    have hchained := h.chained hb
    unfold base at hchained
    rwa [hwork] at hchained
  | look period =>
    have hbase : s.base = s.prevTick := by unfold base; rw [hwork]
    have hfits := timePoint_of_fits (hc period (by rw [hwork]; rfl))
    rw [hwork] at hs
    dsimp only at hs
    split_ifs at hs with hlt
    · obtain rfl := Option.some.inj hs
      refine ⟨h.entity, fun _ => hpc, nofun, fun hno => absurd hb hno, fun hb => hbase ▸ h.chained hb, fun hst => ?_⟩
      refine h.awake ?_
      unfold Stale
      rw [hwork]
      rintro rfl
      exact hst rfl
    · rw [hfits] at hs hlt
      obtain rfl := Option.some.inj hs
      refine ⟨h.entity, fun _ => hpc, ?_, fun hno => absurd hb hno, fun hb => hbase ▸ h.chained hb, fun hst => hst.elim⟩
      intro base period' now heq
      obtain ⟨rfl, rfl, rfl⟩ := OscillatorPc.elapsed.inj heq
      exact ⟨rfl, not_lt.1 hlt, le_rfl⟩
  | enter tp =>
    have hbase : s.base = s.prevTick := by unfold base; rw [hwork]
    rw [hwork] at hs
    dsimp only at hs
    split_ifs at hs with hsignaled
    · exact h.returns hpc (fun start hb hc => ⟨hbase ▸ hb, hc⟩) hs
    · obtain rfl := Option.some.inj hs
      refine ⟨h.entity, fun _ => hpc, nofun, fun hno => absurd hb hno, fun hb => hbase ▸ h.chained hb, fun hst => ?_⟩
      refine h.awake ?_
      unfold Stale
      rw [hwork]
      exact hst
  | asleep tp =>
    have hbase : s.base = s.prevTick := by unfold base; rw [hwork]
    rw [hwork] at hs
    dsimp only at hs
    split_ifs at hs
    exact h.returns hpc (fun start hb hc => ⟨hbase ▸ hb, hc⟩) hs
  | elapsed base period now =>
    obtain ⟨hprev, hdue, hlater⟩ := h.elapsed base period now hwork
    have hbase : s.base = base := by unfold Oscillator.base; rw [hwork]
    rw [hwork] at hs
    dsimp only at hs
    rw [timePoint_of_fits (hc period (by rw [hwork]; rfl))] at hs
    have hchain : ∀ start, s.base = reference start s.ticks → Chained start s.ticks →
        (if s.prevTick + period ≤ s.clock then now else s.prevTick) =
          reference start (⟨base, period, now, s.clock⟩ :: s.ticks) ∧
        Chained start (⟨base, period, now, s.clock⟩ :: s.ticks) := by
      intro start hb hc
      refine ⟨?_, hbase ▸ hb, hdue, hlater, hc⟩
      rw [hprev]
      rfl
    exact h.returns hpc hchain hs

theorem Kept.loop (h : Kept s) (hc : ∀ period ∈ s.work.added?, Fits (s.prevTick + period))
    (hs : s.loop = some s') : Kept s' := by
  unfold Oscillator.loop at hs
  by_cases hpc : s.entity.pc = .doWork
  · rw [hpc] at hs
    exact h.doWork hc hpc hs
  have hcopy : s.work = .copy := by
    by_contra hno
    exact hpc (h.working hno)
  by_cases hinit : s.entity.pc = .init
  · -- the ticks are counted from here
    rw [hinit] at hs
    obtain ⟨entity, hloop, rfl⟩ := Option.map_eq_some_iff.1 hs
    have hnil : s.ticks = [] := h.unbegun fun hb => hb.2 hinit
    refine ⟨h.entity.loop hloop, fun hno => absurd hcopy hno, ?_, fun _ => hnil, fun _ => ⟨s.clock, rfl, ?_⟩, ?_⟩
    · intro base period now hno
      exact absurd (hcopy.symm.trans hno) nofun
    · unfold base
      dsimp only
      rw [hcopy, hnil]
      exact ⟨rfl, trivial⟩
    · unfold Stale
      dsimp only
      rw [hcopy]
      exact fun hst => hst.elim
  · have hgoes : s.entity.loop.map (fun entity => { s with entity := entity }) = some s' := by
      cases hpc' : s.entity.pc <;> rw [hpc'] at hs <;> first | exact hs | exact absurd hpc' ‹_›
    obtain ⟨entity, hloop, rfl⟩ := Option.map_eq_some_iff.1 hgoes
    have hb : s.entity.Begun := by
      refine ⟨fun hun => ?_, hinit⟩
      rw [Entity.loop_unspawned hun] at hloop
      cases hloop
    exact ⟨h.entity.loop hloop, fun hno => absurd hcopy hno, h.elapsed,
      fun hno => absurd (Entity.loop_begun hloop) hno, fun _ => h.chained hb, h.awake⟩

theorem Kept.reads (h : Kept s) (hs : s.reads now = some s₁) : Kept s₁ ∧ s₁ = { s with clock := now } := by
  unfold Oscillator.reads at hs
  split_ifs at hs with hnow
  obtain rfl := Option.some.inj hs
  refine ⟨⟨h.entity, h.working, fun base period now' hwork => ?_, h.unbegun, h.chained, h.awake⟩, rfl⟩
  obtain ⟨hprev, hdue, hlater⟩ := h.elapsed base period now' hwork
  exact ⟨hprev, hdue, hlater.trans hnow⟩

theorem Kept.step {e : OscillatorEvent} (h : Kept s) (hc : Lasts e s) (hs : step e s = some s') : Kept s' := by
  cases e with
  | run =>
    obtain rfl := Option.some.inj hs
    exact h.calls (Entity.calls_run s.entity) fun _ => .inl rfl
  | pause =>
    obtain rfl := Option.some.inj hs
    exact h.calls (Entity.calls_pause s.entity) h.awake
  | stop =>
    obtain rfl := Option.some.inj hs
    exact h.calls (Entity.calls_stop s.entity) fun _ => .inl rfl
  | setPeriod period =>
    obtain rfl := Option.some.inj hs
    exact h.setPeriod period
  | signal =>
    unfold Oscillator.step at hs
    split_ifs at hs
    obtain rfl := Option.some.inj hs
    exact h.calls (Entity.calls_run s.entity) fun _ => .inl rfl
  | loop now =>
    obtain ⟨s₁, hreads, hloop⟩ := Option.bind_eq_some_iff.1 hs
    obtain ⟨hkept, rfl⟩ := h.reads hreads
    exact hkept.loop hc hloop

/-! ## The next tick -/

theorem Comes.of_step (h : Comes now s₁) (hs : step (.loop now) s = some s₁) (hticks : s₁.ticks = s.ticks) :
    Comes now s := by
  obtain ⟨s', t, hreach, ht⟩ := h
  exact ⟨s', t, (reaches_of_step (C := Alone now) rfl hs).trans hreach, hticks ▸ ht⟩

theorem step_loop (hnow : s.clock ≤ now) : step (.loop now) s = { s with clock := now }.loop := by
  show (s.reads now).bind loop = _
  unfold reads
  rw [if_pos hnow]
  rfl

theorem step_doWork (hnow : s.clock ≤ now) (hpc : s.entity.pc = .doWork) :
    step (.loop now) s = { s with clock := now }.doWork := by
  rw [step_loop hnow]
  unfold loop
  dsimp only
  rw [hpc]

theorem returns_eq (hpc : s.entity.pc = .doWork) : s.returns =
    some { s with entity := { s.entity with pc := .top, hooks := s.entity.hooks ++ [.doWork] }, work := .copy } := by
  unfold returns
  rw [Entity.loop_of_doWork hpc]
  rfl

theorem comes_of_elapsed (hnow : s.clock ≤ now) (hpc : s.entity.pc = .doWork) {base period now' : ℤ}
    (hwork : s.work = .elapsed base period now') : Comes now s := by
  have hs := step_doWork hnow hpc
  unfold doWork at hs
  dsimp only at hs
  rw [hwork] at hs
  dsimp only at hs
  exact ⟨_, _, reaches_of_step (C := Alone now) rfl (hs.trans (returns_eq hpc)), rfl⟩

theorem comes_of_due (hnow : s.clock ≤ now) (hpc : s.entity.pc = .doWork) {period : ℤ} (hwork : s.work = .look period)
    (hdue : timePoint (s.prevTick + period) ≤ now) : Comes now s := by
  have hs := step_doWork hnow hpc
  unfold doWork at hs
  dsimp only at hs
  rw [hwork] at hs
  dsimp only at hs
  rw [if_neg (not_lt.2 hdue)] at hs
  refine Comes.of_step ?_ hs rfl
  exact comes_of_elapsed le_rfl hpc rfl

theorem comes_of_copy (hnow : s.clock ≤ now) (hpc : s.entity.pc = .doWork) (hwork : s.work = .copy)
    (hdue : timePoint (s.prevTick + s.period) ≤ now) : Comes now s := by
  have hs := step_doWork hnow hpc
  unfold doWork at hs
  dsimp only at hs
  rw [hwork] at hs
  refine Comes.of_step ?_ hs rfl
  exact comes_of_due le_rfl hpc rfl hdue

/-- From the top of the loop. -/
theorem comes_of_top (hnow : s.clock ≤ now) (hpc : s.entity.pc = .top) (hrun : s.entity.state = .running)
    (hwork : s.work = .copy) (hdue : timePoint (s.prevTick + s.period) ≤ now) : Comes now s := by
  have hs := step_loop hnow
  unfold loop Entity.loop at hs
  dsimp only at hs
  rw [hpc, hrun] at hs
  refine Comes.of_step ?_ hs rfl
  exact comes_of_copy le_rfl rfl hwork hdue

/-- When a pause is over. -/
theorem comes_of_prepareResume (hnow : s.clock ≤ now) {byRun : Bool} (hpc : s.entity.pc = .prepareResume byRun)
    (hrun : s.entity.state = .running) (hwork : s.work = .copy) (hdue : timePoint (s.prevTick + s.period) ≤ now) :
    Comes now s := by
  have hs := step_loop hnow
  unfold loop Entity.loop at hs
  dsimp only at hs
  rw [hpc] at hs
  refine Comes.of_step ?_ hs rfl
  exact comes_of_top le_rfl rfl hrun hwork hdue

/-- The wait is over. -/
theorem comes_of_wake (hpc : s.entity.pc = .doWork) (hrun : s.entity.state = .running)
    (hdue : timePoint (s.prevTick + s.period) ≤ now)
    (hs : step (.loop now) s = { s with clock := now, signaled := false }.returns) : Comes now s := by
  refine Comes.of_step ?_ (hs.trans (returns_eq hpc)) rfl
  exact comes_of_top le_rfl rfl hrun rfl hdue

theorem comes_of_asleep (hnow : s.clock ≤ now) (hpc : s.entity.pc = .doWork) (hrun : s.entity.state = .running)
    (hdue : timePoint (s.prevTick + s.period) ≤ now) {tp : ℤ} (hwork : s.work = .asleep tp)
    (hwake : s.signaled = true ∨ tp ≤ now) : Comes now s := by
  have hs := step_doWork hnow hpc
  unfold doWork at hs
  dsimp only at hs
  rw [hwork] at hs
  dsimp only at hs
  rw [if_pos hwake] at hs
  exact comes_of_wake hpc hrun hdue (hwork ▸ hs)

theorem comes_of_enter (hnow : s.clock ≤ now) (hpc : s.entity.pc = .doWork) (hrun : s.entity.state = .running)
    (hdue : timePoint (s.prevTick + s.period) ≤ now) {tp : ℤ} (hwork : s.work = .enter tp)
    (hwake : s.signaled = true ∨ tp ≤ now) : Comes now s := by
  have hs := step_doWork hnow hpc
  unfold doWork at hs
  dsimp only at hs
  rw [hwork] at hs
  dsimp only at hs
  split_ifs at hs with hsignaled
  · exact comes_of_wake hpc hrun hdue (hwork ▸ hs)
  · refine Comes.of_step ?_ hs rfl
    exact comes_of_asleep le_rfl hpc hrun hdue rfl hwake

theorem Kept.comes (h : Kept s) (hnow : s.clock ≤ now) (hpc : s.entity.pc = .doWork)
    (hrun : s.entity.state = .running) (howed : s.owed = 0) (hdue : timePoint (s.prevTick + s.period) ≤ now) :
    Comes now s := by
  have hawake : s.Stale → s.signaled = true := fun hst => (h.awake hst).resolve_right (by omega)
  unfold Stale at hawake
  -- what is waited for is the next tick, or it is not waited for
  cases hwork : s.work with
  | copy => exact comes_of_copy hnow hpc hwork hdue
  | look period =>
    rw [hwork] at hawake
    by_cases hlt : now < timePoint (s.prevTick + period)
    · have hsignaled : s.signaled = true := hawake (by rintro rfl; omega)
      have hs := step_doWork hnow hpc
      unfold Oscillator.doWork at hs
      dsimp only at hs
      rw [hwork] at hs
      dsimp only at hs
      rw [if_pos hlt] at hs
      refine Comes.of_step ?_ hs rfl
      exact comes_of_enter le_rfl hpc hrun hdue rfl (.inl hsignaled)
    · exact comes_of_due hnow hpc hwork (not_lt.1 hlt)
  | enter tp =>
    rw [hwork] at hawake
    refine comes_of_enter hnow hpc hrun hdue hwork ?_
    by_cases htp : tp = timePoint (s.prevTick + s.period)
    · exact .inr (htp ▸ hdue)
    · exact .inl (hawake htp)
  | asleep tp =>
    rw [hwork] at hawake
    refine comes_of_asleep hnow hpc hrun hdue hwork ?_
    by_cases htp : tp = timePoint (s.prevTick + s.period)
    · exact .inr (htp ▸ hdue)
    · exact .inl (hawake htp)
  | elapsed base period now' => exact comes_of_elapsed hnow hpc hwork

theorem Kept.punctual (h : Kept s) : s.Punctual := by
  intro now hnow hb hrun howed hfits hdue
  rw [← timePoint_of_fits hfits] at hdue
  by_cases hdoing : s.entity.pc = .doWork
  · exact h.comes hnow hdoing hrun howed hdue
  have hcopy : s.work = .copy := by
    by_contra hno
    exact hdoing (h.working hno)
  cases hpc : s.entity.pc with
  | unspawned => exact absurd hpc hb.1
  | init => exact absurd hpc hb.2
  | doWork => exact absurd hpc hdoing
  | top => exact comes_of_top hnow hpc hrun hcopy hdue
  | waiting =>
    -- it is not paused any longer
    have hs := step_loop hnow
    unfold Oscillator.loop Entity.loop at hs
    dsimp only at hs
    rw [hpc, hrun] at hs
    refine Comes.of_step ?_ hs rfl
    exact comes_of_prepareResume le_rfl rfl rfl hcopy hdue
  | prepareResume byRun => exact comes_of_prepareResume hnow hpc hrun hcopy hdue
  | cleanup => exact absurd (hrun.symm.trans (h.entity.stopping hpc)) nofun
  | exited => exact absurd (hrun.symm.trans (h.entity.hooks.cleanup hpc).1) nofun

/-! ## Runs -/

theorem Kept.chained_ticks (h : Kept s) (hne : s.ticks ≠ []) : ∃ start ∈ s.start, Chained start s.ticks := by
  have hb : s.entity.Begun := by
    by_contra hno
    exact hne (h.unbegun hno)
  obtain ⟨start, hstart, -, hchained⟩ := h.chained hb
  exact ⟨start, hstart, hchained⟩

theorem Kept.paced (h : Kept s) : s.Paced := by
  intro newer t older hticks
  obtain ⟨start, hstart, hchained⟩ := h.chained_ticks (by simp [hticks])
  rw [hticks] at hchained
  refine ⟨⟨start, hstart, hchained.before.le_now⟩, fun u hu => ?_⟩
  obtain ⟨rest, rfl⟩ := List.head?_eq_some_iff.1 hu
  have hle := hchained.after.le_now
  obtain ⟨-, -, hlater, -⟩ := hchained.before
  unfold Tick.next at hle
  constructor
  · intro hmissed
    rwa [if_pos hmissed] at hle
  · intro hno
    rw [if_neg hno] at hle
    unfold Tick.Missed at hno
    omega

theorem Kept.steady (h : Kept s) : s.Steady := by
  intro newer t older hticks hno
  obtain ⟨start, hstart, hchained⟩ := h.chained_ticks (by simp [hticks])
  rw [hticks] at hchained
  obtain ⟨hbase, -, -, holder⟩ := hchained.before
  refine ⟨start, hstart, ?_⟩
  rw [hbase, holder.reference_eq hno, periods_cons]
  omega

/-- **The ticks are on time**, in every interleaving of calls with the thread, and whatever periods are set, as long as
the clock has the times that are added up: none comes early, they do not drift, and none is missed by waiting. -/
theorem ticks_on_time {clock : ℤ} (h : Reaches step Lasts (new clock) s) : s.Paced ∧ s.Steady ∧ s.Punctual := by
  have hkept : Kept s := h.invariant (fun _ _ _ hk hc hs => hk.step hc hs) (kept_new clock)
  exact ⟨hkept.paced, hkept.steady, hkept.punctual⟩

/-- The thread finds the second tick due at the first. -/
theorem ticks_on_time_missed : ∃ s : Oscillator, (s.Paced ∧ s.Steady ∧ s.Punctual) ∧
    s.ticks = [⟨5, 10 ^ 9, 25 * 10 ^ 8, 26 * 10 ^ 8⟩] ∧ s.prevTick + s.period = 25 * 10 ^ 8 + 7000 := by
  obtain ⟨s, hreach, hticks, hnext⟩ : ∃ s, Reaches step Lasts (new 0) s ∧
      s.ticks = [⟨5, 10 ^ 9, 25 * 10 ^ 8, 26 * 10 ^ 8⟩] ∧ s.prevTick + s.period = 25 * 10 ^ 8 + 7000 :=
    exists_of_checked
      [.run, .loop 5, .loop 5, .loop 6, .loop (25 * 10 ^ 8), .loop (26 * 10 ^ 8), .setPeriod 7, .signal]
      (by decide +kernel)
  exact ⟨s, ticks_on_time hreach, hticks, hnext⟩

end Oscillator

end Libtarp.Threading
