import Libtarp.Guard.ExpTimeGuardRuns
import Libtarp.Threading.Entity

/-!
# Timers (`threading.hxx`)

A timer is a thread entity whose `do_work` emits a timeout when its guard is down, and shifts the guard; when the guard
is up it waits for its end, and when it is disabled it stops the entity. Only the thread uses the guard. What the class
of the guard makes of `advance` is a parameter, as it is in the guard's own functions. Other threads call `run`, `pause`
and `stop` at any time. One event is what is done with the mutex, at one reading of the clock, or by `set_state`, which
is called here without the mutex.

* `InTime`: the timeouts are those of the guard, one for each end, and none is early.
* `Punctual`: a timeout that is due comes.
* `Ends`: after the last one the thread comes to its end.
* `timeouts_on_time`: so it is in every run, and only `stop` ends a timer before.
-/

namespace Libtarp.Threading

open Guard Lib

/-- A timeout: the end of the guard, and the reading that found the guard down. -/
structure Timeout where
  due : Ticks
  now : Ticks
  deriving DecidableEq

/-- Where the thread is in `do_work`. -/
inductive TimerPc
  /-- About to ask whether the guard is disabled, and whether it is down. -/
  | ask
  /-- About to ask whether it is up. -/
  | again
  /-- About to lock the mutex in `wait_until`. -/
  | enter (tp : Ticks)
  /-- Waiting for the condition. -/
  | asleep (tp : Ticks)
  deriving DecidableEq

/-- `class Timer`, with `m_signaled` of the entity, the latest time, and the timeouts so far, the newest first. -/
structure Timer (ε : Type) where
  guard : TimeGuard × ε
  signaled : Bool
  entity : Entity
  work : TimerPc
  clock : Ticks
  timeouts : List Timeout

inductive TimerEvent
  | run
  | pause
  | stop
  /-- The thread goes on. -/
  | loop (now : Ticks)
  deriving DecidableEq

namespace Timer

variable {ε : Type} (advance : TimeGuard × ε → TimeGuard × ε)

def new (clock : Ticks) (guard : TimeGuard × ε) : Timer ε where
  guard := guard
  signaled := false
  entity := Entity.new
  work := .ask
  clock := clock
  timeouts := []

/-- The return from `do_work`. -/
def returns (s : Timer ε) : Option (Timer ε) :=
  s.entity.loop.map fun entity => { s with entity := entity, work := .ask }

/-- `do_work`, from one change of the place to the next. -/
def doWork (s : Timer ε) : Option (Timer ε) :=
  match s.work with
  | .ask =>
    if s.guard.1.enabled = false then { s with entity := s.entity.stop }.returns
    else
      let (guard, up) := s.guard.1.isUp s.clock
      if up then some { s with guard := (guard, s.guard.2), work := .again }
      else
        { s with
          guard := shift advance 1 (guard, s.guard.2)
          timeouts := ⟨guard.nextTimepoint, s.clock⟩ :: s.timeouts }.returns
  | .again =>
    let (guard, up) := s.guard.1.isUp s.clock
    if up then some { s with guard := (guard, s.guard.2), work := .enter guard.nextTimepoint }
    else { s with guard := (guard, s.guard.2) }.returns
  | .enter tp =>
    if s.signaled then { s with signaled := false }.returns else some { s with work := .asleep tp }
  | .asleep tp =>
    if s.signaled ∨ tp.sle s.clock then { s with signaled := false }.returns else none

/-- The thread of the timer goes on. -/
def loop (s : Timer ε) : Option (Timer ε) :=
  match s.entity.pc with
  | .doWork => s.doWork advance
  | _ => s.entity.loop.map fun entity => { s with entity := entity }

/-- The clock does not go back. -/
def reads (now : Ticks) (s : Timer ε) : Option (Timer ε) :=
  if s.clock.sle now then some { s with clock := now } else none

def step (e : TimerEvent) (s : Timer ε) : Option (Timer ε) :=
  match e with
  | .run => some { s with entity := s.entity.run, signaled := true }
  | .pause => some { s with entity := s.entity.pause }
  | .stop => some { s with entity := s.entity.stop, signaled := true }
  | .loop now => (s.reads now).bind (loop advance)

/-! ## What is to hold -/

/-- The end of a guard after some advances. -/
def due (g : TimeGuard × ε) (n : ℕ) : Ticks := (advance^[n] g).1.nextTimepoint

/-- How many timeouts a guard is for: one for each interval that is left, and one for the end it has. -/
def lifetime (g : TimeGuard × ε) : ℕ := if g.1.enabled = false then 0 else g.1.intervalsLeft + 1

/-- **No timeout is early**, none is left out, and there are no more of them than the guard is for. -/
def InTime (g : TimeGuard × ε) (s : Timer ε) : Prop :=
  s.timeouts.length ≤ lifetime g ∧ ∀ newer t older, s.timeouts = newer ++ t :: older →
    t.due = due advance g older.length ∧ t.due.sle t.now

/-- Only the thread goes on, at one reading. -/
def Alone (now : Ticks) (e : TimerEvent) (_ : Timer ε) : Prop := e = .loop now

/-- The thread comes to a timeout by itself, with no more of the clock. -/
def Comes (now : Ticks) (s : Timer ε) : Prop :=
  ∃ s' t, Reaches (step advance) (Alone now) s s' ∧ s'.timeouts = t :: s.timeouts

/-- **A timeout that is due comes** where the timer runs, signaled or not. -/
def Punctual (g : TimeGuard × ε) (s : Timer ε) : Prop :=
  ∀ now, s.clock.sle now → s.entity.state = .running → s.timeouts.length < lifetime g →
    (due advance g s.timeouts.length).sle now → s.Comes advance now

/-- The thread comes to its end by itself. -/
def Leaves (now : Ticks) (s : Timer ε) : Prop :=
  ∃ s', Reaches (step advance) (Alone now) s s' ∧ s'.entity.pc = .exited

/-- **After the last timeout** a timer that runs stops itself. -/
def Ends (g : TimeGuard × ε) (s : Timer ε) : Prop :=
  ∀ now, s.clock.sle now → s.entity.state = .running → s.timeouts.length = lifetime g → s.Leaves advance now

/-- Nobody calls `stop`. -/
def Unstopped (e : TimerEvent) (_ : Timer ε) : Prop := e ≠ .stop

/-- The guard was lowered when its end was over. -/
def Lowered (clock : Ticks) (g : TimeGuard) : Prop :=
  g.enabled = true → g.up = false → g.nextTimepoint.sle clock

/-! ## The guard -/

variable {advance} {amount : ε → Ticks → Ticks} {next : ε → ε} {g guard : TimeGuard × ε} {s s₁ s' : Timer ε}
  {n : ℕ} {clock now : Ticks}

theorem due_succ (h : Guard.Steps advance amount next) (g : TimeGuard × ε) (n : ℕ) :
    due advance g (n + 1) = due advance g n + amount (advance^[n] g).2 g.1.baseInterval := by
  have hbase : (advance^[n] g).1.baseInterval = g.1.baseInterval := by rw [h.iterate]
  unfold due
  rw [Function.iterate_succ_apply', h, hbase]

theorem fields_succ (h : Guard.Steps advance amount next) (g : TimeGuard × ε) (n : ℕ) :
    (advance^[n + 1] g).2 = next (advance^[n] g).2 := by
  rw [Function.iterate_succ_apply', h]

theorem isUp_of_enabled {g : TimeGuard} (h : g.enabled = true) (now : Ticks) :
    g.isUp now = ({ g with up := g.up && !g.nextTimepoint.sle now }, g.up && !g.nextTimepoint.sle now) := by
  unfold TimeGuard.isUp
  rw [if_neg (h ▸ Ne.symm Bool.false_ne_true)]
  cases g.nextTimepoint.sle now <;> simp

/-- An enabled guard after some of its shifts. -/
structure Current (advance : TimeGuard × ε → TimeGuard × ε) (g : TimeGuard × ε) (n : ℕ) (clock : Ticks)
    (guard : TimeGuard × ε) : Prop where
  left : guard.1.intervalsLeft + n = g.1.intervalsLeft
  baseInterval : guard.1.baseInterval = g.1.baseInterval
  timepoint : guard.1.nextTimepoint = due advance g n
  fields : guard.2 = (advance^[n] g).2
  lowered : guard.1.up = false → guard.1.nextTimepoint.sle clock

theorem sle_trans {a b c : Ticks} (h : a.sle b) (h' : b.sle c) : a.sle c := by
  rw [BitVec.sle_iff_toInt_le] at *
  exact h.trans h'

theorem sle_refl (a : Ticks) : a.sle a := BitVec.sle_iff_toInt_le.2 le_rfl

theorem Current.later (h : Current advance g n clock guard) (hnow : clock.sle now) : Current advance g n now guard :=
  ⟨h.left, h.baseInterval, h.timepoint, h.fields, fun hup => sle_trans (h.lowered hup) hnow⟩

/-- **The guard is asked.** It is down when its end is over, and only then. -/
theorem Current.isUp (h : Current advance g n clock guard) (henabled : guard.1.enabled = true) :
    guard.1.isUp clock = ({ guard.1 with up := !(due advance g n).sle clock }, !(due advance g n).sle clock) := by
  have hflag : (guard.1.up && !guard.1.nextTimepoint.sle clock) = !(due advance g n).sle clock := by
    rw [← h.timepoint]
    cases hup : guard.1.up with
    | true => exact Bool.true_and _
    | false => rw [h.lowered hup, Bool.false_and, Bool.not_true]
  rw [isUp_of_enabled henabled, hflag]

theorem Current.asked (h : Current advance g n clock guard) :
    Current advance g n clock ({ guard.1 with up := !(due advance g n).sle clock }, guard.2) := by
  refine ⟨h.left, h.baseInterval, h.timepoint, h.fields, fun hup => ?_⟩
  show guard.1.nextTimepoint.sle clock
  rw [h.timepoint]
  exact (Bool.not_eq_false' _).mp hup

/-- **The guard is shifted.** The last shift disables it. -/
theorem Current.shift (hsteps : Guard.Steps advance amount next) (h : Current advance g n clock guard)
    (henabled : guard.1.enabled = true) :
    ((Guard.shift advance 1 guard).1.enabled = true ↔ n < g.1.intervalsLeft) ∧
      (n < g.1.intervalsLeft → Current advance g (n + 1) clock (Guard.shift advance 1 guard)) := by
  have hleft := h.left
  rw [shift_eq hsteps, if_neg (henabled ▸ Ne.symm Bool.false_ne_true)]
  by_cases hnone : guard.1.intervalsLeft = 0
  · rw [if_pos hnone]
    exact ⟨⟨fun hno => absurd hno Bool.false_ne_true, by omega⟩, by omega⟩
  · have hone : performed 1 guard.1 = 1 := by
      rw [performed_eq henabled]
      omega
    rw [if_neg hnone, hone, total_one]
    refine ⟨⟨by omega, fun _ => henabled⟩, fun hlt => ⟨?_, h.baseInterval, ?_, ?_, ?_⟩⟩
    · dsimp only
      omega
    · dsimp only
      rw [due_succ hsteps, h.timepoint, h.fields, h.baseInterval]
    · rw [fields_succ hsteps, ← h.fields]
      rfl
    · exact fun hno => absurd hno.symm Bool.false_ne_true

/-! ## What is kept -/

/-- The invariant. -/
structure Kept (advance : TimeGuard × ε → TimeGuard × ε) (g : TimeGuard × ε) (s : Timer ε) : Prop where
  entity : s.entity.Inv
  working : s.work ≠ .ask → s.entity.pc = .doWork ∧ s.guard.1.enabled = true
  waiting : ∀ tp, s.work = .enter tp ∨ s.work = .asleep tp → tp = s.guard.1.nextTimepoint
  enabled : s.guard.1.enabled = true ↔ s.timeouts.length < lifetime g
  current : s.guard.1.enabled = true → Current advance g s.timeouts.length s.clock s.guard
  inTime : InTime advance g s

theorem lifetime_of_enabled (h : g.1.enabled = true) : lifetime g = g.1.intervalsLeft + 1 := by
  unfold lifetime
  rw [if_neg (h ▸ Ne.symm Bool.false_ne_true)]

theorem enabled_of_lt (h : n < lifetime g) : g.1.enabled = true := by
  unfold lifetime at h
  by_contra hno
  rw [if_pos (Bool.eq_false_of_not_eq_true hno)] at h
  omega

theorem kept_new (hlow : Lowered clock g.1) : Kept advance g (new clock g) where
  entity := Entity.start_inv
  working := fun hno => absurd rfl hno
  waiting := by rintro tp (hno | hno) <;> cases hno
  enabled := by
    refine ⟨fun henabled => ?_, enabled_of_lt⟩
    show 0 < lifetime g
    rw [lifetime_of_enabled (show g.1.enabled = true from henabled)]
    exact Nat.succ_pos _
  current := fun henabled => ⟨rfl, rfl, rfl, rfl, hlow henabled⟩
  inTime := by
    refine ⟨Nat.zero_le _, fun newer t older hticks => ?_⟩
    exact absurd hticks.symm (List.append_ne_nil_of_right_ne_nil _ (List.cons_ne_nil _ _))

/-- **A call of another thread** to the entity. -/
theorem Kept.calls (h : Kept advance g s) {entity : Entity} (hc : Entity.Calls s.entity entity) (signaled : Bool) :
    Kept advance g { s with entity := entity, signaled := signaled } := by
  refine ⟨h.entity.call hc, fun hno => ?_, h.waiting, h.enabled, h.current, h.inTime⟩
  obtain ⟨hdoing, henabled⟩ := h.working hno
  refine ⟨?_, henabled⟩
  rcases hc.pc with ⟨hpc, -⟩ | ⟨hinit, -⟩
  · exact hpc.trans hdoing
  · exact absurd ((h.entity.fresh hinit).1.symm.trans hdoing) nofun

/-- **`do_work` returns.** -/
theorem Kept.returns (h : Kept advance g s) (signaled : Bool) (hs : { s with signaled := signaled }.returns = some s') :
    Kept advance g s' := by
  obtain ⟨entity, hloop, rfl⟩ := Option.map_eq_some_iff.1 hs
  refine ⟨h.entity.loop hloop, fun hno => absurd rfl hno, ?_, h.enabled, h.current, h.inTime⟩
  rintro tp (hno | hno) <;> cases hno

/-- The guard is asked, and the thread goes where it is enabled. -/
theorem Kept.asked (h : Kept advance g s) (hpc : s.entity.pc = .doWork) (henabled : s.guard.1.enabled = true)
    (work : TimerPc) (hwait : ∀ tp, work = .enter tp ∨ work = .asleep tp → tp = s.guard.1.nextTimepoint) :
    Kept advance g { s with guard := ((s.guard.1.isUp s.clock).1, s.guard.2), work := work } := by
  have hcurrent := h.current henabled
  have hasked := hcurrent.asked
  rw [hcurrent.isUp henabled]
  exact ⟨h.entity, fun _ => ⟨hpc, henabled⟩, hwait, h.enabled, fun _ => hasked, h.inTime⟩

/-- **A timeout.** -/
theorem Kept.timeout (hsteps : Guard.Steps advance amount next) (h : Kept advance g s)
    (henabled : s.guard.1.enabled = true) (hwork : s.work = .ask) (hdown : (s.guard.1.isUp s.clock).2 = false) :
    Kept advance g { s with
      guard := shift advance 1 ((s.guard.1.isUp s.clock).1, s.guard.2)
      timeouts := ⟨(s.guard.1.isUp s.clock).1.nextTimepoint, s.clock⟩ :: s.timeouts } := by
  have hcurrent := h.current henabled
  have hlt := h.enabled.1 henabled
  have hlife := lifetime_of_enabled (enabled_of_lt hlt)
  have hasked := hcurrent.asked
  rw [hcurrent.isUp henabled] at hdown ⊢
  have hover : (due advance g s.timeouts.length).sle s.clock := (Bool.not_eq_false' _).mp hdown
  obtain ⟨hiff, hnext⟩ := hasked.shift hsteps henabled
  refine ⟨h.entity, fun hno => absurd hwork hno, ?_, ?_, fun hon => ?_, ?_, ?_⟩
  · rintro tp (hno | hno) <;> exact absurd (hwork.symm.trans hno) nofun
  · rw [List.length_cons, hlife, Nat.add_lt_add_iff_right]
    exact hiff
  · exact hnext (hiff.1 hon)
  · rw [List.length_cons]
    exact hlt
  · intro newer t older htimeouts
    cases newer with
    | nil =>
      obtain ⟨rfl, rfl⟩ := List.cons.inj htimeouts
      exact ⟨hcurrent.timepoint, hcurrent.timepoint ▸ hover⟩
    | cons u newer => exact h.inTime.2 newer t older (List.cons.inj htimeouts).2

theorem Kept.doWork (hsteps : Guard.Steps advance amount next) (h : Kept advance g s) (hpc : s.entity.pc = .doWork)
    (hs : s.doWork advance = some s') : Kept advance g s' := by
  unfold Timer.doWork at hs
  cases hwork : s.work with
  | ask =>
    rw [hwork] at hs
    dsimp only at hs
    split_ifs at hs with hdisabled hup
    · -- the thread stops itself
      exact (h.calls (Entity.calls_stop s.entity) s.signaled).returns _ hs
    · have henabled := Bool.eq_true_of_not_eq_false hdisabled
      obtain rfl := Option.some.inj hs
      exact h.asked hpc henabled .again (by rintro tp (hno | hno) <;> cases hno)
    · have henabled := Bool.eq_true_of_not_eq_false hdisabled
      exact (h.timeout hsteps henabled hwork (Bool.eq_false_of_not_eq_true hup)).returns _ hs
  | again =>
    obtain ⟨-, henabled⟩ := h.working (by rw [hwork]; exact nofun)
    rw [hwork] at hs
    dsimp only at hs
    split_ifs at hs with hup
    · obtain rfl := Option.some.inj hs
      refine h.asked hpc henabled (.enter _) ?_
      rintro tp (heq | hno)
      · rw [← TimerPc.enter.inj heq, (h.current henabled).isUp henabled]
      · cases hno
    · have hasked := h.asked hpc henabled .again (by rintro tp (hno | hno) <;> cases hno)
      exact hasked.returns _ hs
  | enter tp =>
    obtain ⟨-, henabled⟩ := h.working (by rw [hwork]; exact nofun)
    rw [hwork] at hs
    dsimp only at hs
    split_ifs at hs
    · exact h.returns _ hs
    · obtain rfl := Option.some.inj hs
      refine ⟨h.entity, fun _ => ⟨hpc, henabled⟩, ?_, h.enabled, h.current, h.inTime⟩
      rintro tp' (hno | heq)
      · cases hno
      · rw [← TimerPc.asleep.inj heq]
        exact h.waiting tp (.inl hwork)
  | asleep tp =>
    rw [hwork] at hs
    dsimp only at hs
    split_ifs at hs
    exact h.returns _ hs

theorem Kept.loop (hsteps : Guard.Steps advance amount next) (h : Kept advance g s) (hs : s.loop advance = some s') :
    Kept advance g s' := by
  unfold Timer.loop at hs
  by_cases hpc : s.entity.pc = .doWork
  · rw [hpc] at hs
    exact h.doWork hsteps hpc hs
  have hask : s.work = .ask := by
    by_contra hno
    exact hpc (h.working hno).1
  have hgoes : s.entity.loop.map (fun entity => { s with entity := entity }) = some s' := by
    cases hpc' : s.entity.pc <;> rw [hpc'] at hs <;> first | exact hs | exact absurd hpc' hpc
  obtain ⟨entity, hloop, rfl⟩ := Option.map_eq_some_iff.1 hgoes
  exact ⟨h.entity.loop hloop, fun hno => absurd hask hno, h.waiting, h.enabled, h.current, h.inTime⟩

theorem Kept.reads (h : Kept advance g s) (hs : s.reads now = some s₁) : Kept advance g s₁ ∧ s₁.clock = now := by
  unfold Timer.reads at hs
  split_ifs at hs with hnow
  obtain rfl := Option.some.inj hs
  exact ⟨⟨h.entity, h.working, h.waiting, h.enabled, fun hon => (h.current hon).later hnow, h.inTime⟩, rfl⟩

theorem Kept.step (hsteps : Guard.Steps advance amount next) {e : TimerEvent} (h : Kept advance g s)
    (hs : step advance e s = some s') : Kept advance g s' := by
  cases e with
  | run =>
    obtain rfl := Option.some.inj hs
    exact h.calls (Entity.calls_run s.entity) true
  | pause =>
    obtain rfl := Option.some.inj hs
    exact h.calls (Entity.calls_pause s.entity) s.signaled
  | stop =>
    obtain rfl := Option.some.inj hs
    exact h.calls (Entity.calls_stop s.entity) true
  | loop now =>
    obtain ⟨s₁, hreads, hloop⟩ := Option.bind_eq_some_iff.1 hs
    exact (h.reads hreads).1.loop hsteps hloop

/-! ## The next timeout -/

theorem Comes.of_step (h : Comes advance now s₁) (hs : step advance (.loop now) s = some s₁)
    (htimeouts : s₁.timeouts = s.timeouts) : Comes advance now s := by
  obtain ⟨s', t, hreach, ht⟩ := h
  exact ⟨s', t, (reaches_of_step (C := Alone now) rfl hs).trans hreach, htimeouts ▸ ht⟩

variable (advance) in
theorem step_loop (hnow : s.clock.sle now) :
    step advance (.loop now) s = { s with clock := now }.loop advance := by
  show (s.reads now).bind (loop advance) = _
  unfold reads
  rw [if_pos hnow]
  rfl

variable (advance) in
theorem step_doWork (hnow : s.clock.sle now) (hpc : s.entity.pc = .doWork) :
    step advance (.loop now) s = { s with clock := now }.doWork advance := by
  rw [step_loop advance hnow]
  unfold loop
  dsimp only
  rw [hpc]

theorem returns_eq (hpc : s.entity.pc = .doWork) : s.returns =
    some { s with entity := { s.entity with pc := .top, hooks := s.entity.hooks ++ [.doWork] }, work := .ask } := by
  unfold returns
  rw [Entity.loop_of_doWork hpc]
  rfl

/-- The guard is enabled, and its end is over. -/
def Over (now : Ticks) (s : Timer ε) : Prop :=
  s.guard.1.enabled = true ∧ s.guard.1.nextTimepoint.sle now

/-- So it is down, whatever it was. -/
theorem Over.isUp (h : Over now s) : s.guard.1.isUp now = ({ s.guard.1 with up := false }, false) := by
  rw [isUp_of_enabled h.1, h.2, Bool.not_true, Bool.and_false]

theorem comes_of_ask (hnow : s.clock.sle now) (hpc : s.entity.pc = .doWork) (hwork : s.work = .ask)
    (hover : Over now s) : Comes advance now s := by
  have hs := step_doWork advance hnow hpc
  unfold doWork at hs
  dsimp only at hs
  rw [hwork] at hs
  dsimp only at hs
  rw [if_neg (hover.1 ▸ Ne.symm Bool.false_ne_true), hover.isUp] at hs
  dsimp only at hs
  rw [if_neg Bool.false_ne_true] at hs
  exact ⟨_, _, reaches_of_step (C := Alone now) rfl (hs.trans (returns_eq hpc)), rfl⟩

/-- From the top of the loop. -/
theorem comes_of_top (hnow : s.clock.sle now) (hpc : s.entity.pc = .top) (hrun : s.entity.state = .running)
    (hwork : s.work = .ask) (hover : Over now s) : Comes advance now s := by
  have hs := step_loop advance hnow
  unfold loop Entity.loop at hs
  dsimp only at hs
  rw [hpc, hrun] at hs
  refine Comes.of_step ?_ hs rfl
  exact comes_of_ask (sle_refl now) rfl hwork hover

/-- When a pause is over. -/
theorem comes_of_prepareResume (hnow : s.clock.sle now) {byRun : Bool} (hpc : s.entity.pc = .prepareResume byRun)
    (hrun : s.entity.state = .running) (hwork : s.work = .ask) (hover : Over now s) : Comes advance now s := by
  have hs := step_loop advance hnow
  unfold loop Entity.loop at hs
  dsimp only at hs
  rw [hpc] at hs
  refine Comes.of_step ?_ hs rfl
  exact comes_of_top (sle_refl now) rfl hrun hwork hover

/-- `do_work` returns without a timeout. -/
theorem comes_of_returns (hpc : s.entity.pc = .doWork) (hrun : s.entity.state = .running) (hover : Over now s)
    (hs : step advance (.loop now) s = s₁.returns) (hentity : s₁.entity = s.entity) (hclock : s₁.clock = now)
    (hguard : s₁.guard.1.enabled = s.guard.1.enabled ∧ s₁.guard.1.nextTimepoint = s.guard.1.nextTimepoint)
    (htimeouts : s₁.timeouts = s.timeouts) : Comes advance now s := by
  have hpc₁ : s₁.entity.pc = .doWork := hentity ▸ hpc
  refine Comes.of_step ?_ (hs.trans (returns_eq hpc₁)) htimeouts
  refine comes_of_top ?_ rfl (hentity ▸ hrun) rfl ⟨hguard.1.trans hover.1, ?_⟩
  · show s₁.clock.sle now
    rw [hclock]
    exact sle_refl now
  · show s₁.guard.1.nextTimepoint.sle now
    rw [hguard.2]
    exact hover.2

theorem comes_of_asleep (hnow : s.clock.sle now) (hpc : s.entity.pc = .doWork) (hrun : s.entity.state = .running)
    (hover : Over now s) {tp : Ticks} (hwork : s.work = .asleep tp) (htp : tp = s.guard.1.nextTimepoint) :
    Comes advance now s := by
  have hs := step_doWork advance hnow hpc
  unfold doWork at hs
  dsimp only at hs
  rw [hwork] at hs
  dsimp only at hs
  rw [if_pos (.inr (htp ▸ hover.2))] at hs
  exact comes_of_returns hpc hrun hover hs rfl rfl ⟨rfl, rfl⟩ rfl

theorem Kept.comes (h : Kept advance g s) (hnow : s.clock.sle now) (hpc : s.entity.pc = .doWork)
    (hrun : s.entity.state = .running) (hover : Over now s) : Comes advance now s := by
  cases hwork : s.work with
  | ask => exact comes_of_ask hnow hpc hwork hover
  | again =>
    have hs := step_doWork advance hnow hpc
    unfold Timer.doWork at hs
    dsimp only at hs
    rw [hwork] at hs
    dsimp only at hs
    rw [hover.isUp] at hs
    dsimp only at hs
    rw [if_neg Bool.false_ne_true] at hs
    exact comes_of_returns hpc hrun hover hs rfl rfl ⟨rfl, rfl⟩ rfl
  | enter tp =>
    have htp := h.waiting tp (.inl hwork)
    have hs := step_doWork advance hnow hpc
    unfold Timer.doWork at hs
    dsimp only at hs
    rw [hwork] at hs
    dsimp only at hs
    split_ifs at hs
    · exact comes_of_returns hpc hrun hover hs rfl rfl ⟨rfl, rfl⟩ rfl
    · refine Comes.of_step ?_ hs rfl
      exact comes_of_asleep (sle_refl now) hpc hrun hover rfl htp
  | asleep tp => exact comes_of_asleep hnow hpc hrun hover hwork (h.waiting tp (.inr hwork))

theorem Kept.work_eq (h : Kept advance g s) (hpc : s.entity.pc ≠ .doWork) : s.work = .ask := by
  by_contra hno
  exact hpc (h.working hno).1

theorem Kept.punctual (h : Kept advance g s) : s.Punctual advance g := by
  intro now hnow hrun hlt hdue
  have hover : Over now s := by
    have henabled := h.enabled.2 hlt
    exact ⟨henabled, (h.current henabled).timepoint ▸ hdue⟩
  by_cases hdoing : s.entity.pc = .doWork
  · exact h.comes hnow hdoing hrun hover
  have hask := h.work_eq hdoing
  cases hpc : s.entity.pc with
  | unspawned =>
    rcases (h.entity.unspawned hpc).1 with hno | hno <;> exact absurd (hrun.symm.trans hno) nofun
  | init =>
    have hs := step_loop advance hnow
    unfold Timer.loop Entity.loop at hs
    dsimp only at hs
    rw [hpc] at hs
    refine Comes.of_step ?_ hs rfl
    exact comes_of_top (sle_refl now) rfl hrun hask hover
  | doWork => exact absurd hpc hdoing
  | top => exact comes_of_top hnow hpc hrun hask hover
  | waiting =>
    -- it is not paused any longer
    have hs := step_loop advance hnow
    unfold Timer.loop Entity.loop at hs
    dsimp only at hs
    rw [hpc, hrun] at hs
    refine Comes.of_step ?_ hs rfl
    exact comes_of_prepareResume (sle_refl now) rfl rfl hask hover
  | prepareResume byRun => exact comes_of_prepareResume hnow hpc hrun hask hover
  | cleanup => exact absurd (hrun.symm.trans (h.entity.stopping hpc)) nofun
  | exited => exact absurd (hrun.symm.trans (h.entity.hooks.cleanup hpc).1) nofun

/-! ## The end -/

theorem Leaves.of_step (h : Leaves advance now s₁) (hs : step advance (.loop now) s = some s₁) :
    Leaves advance now s := by
  obtain ⟨s', hreach, hpc⟩ := h
  exact ⟨s', (reaches_of_step (C := Alone now) rfl hs).trans hreach, hpc⟩

theorem leaves_of_stopped (hnow : s.clock.sle now) (hpc : s.entity.pc = .top) (hstopped : s.entity.state = .stopped) :
    Leaves advance now s := by
  have hs := step_loop advance hnow
  unfold loop Entity.loop at hs
  dsimp only at hs
  rw [hpc, hstopped] at hs
  refine Leaves.of_step ?_ hs
  exact ⟨_, reaches_of_step (C := Alone now) rfl (step_loop advance (sle_refl now)), rfl⟩

/-- A disabled guard stops the thread. -/
theorem leaves_of_ask (hnow : s.clock.sle now) (hpc : s.entity.pc = .doWork) (hwork : s.work = .ask)
    (hdisabled : s.guard.1.enabled = false) : Leaves advance now s := by
  have hs := step_doWork advance hnow hpc
  unfold doWork at hs
  dsimp only at hs
  rw [hwork] at hs
  dsimp only at hs
  rw [if_pos hdisabled] at hs
  refine Leaves.of_step ?_ (hs.trans (returns_eq hpc))
  exact leaves_of_stopped (sle_refl now) rfl (Entity.setState_stopped _)

theorem leaves_of_top (hnow : s.clock.sle now) (hpc : s.entity.pc = .top) (hrun : s.entity.state = .running)
    (hwork : s.work = .ask) (hdisabled : s.guard.1.enabled = false) : Leaves advance now s := by
  have hs := step_loop advance hnow
  unfold loop Entity.loop at hs
  dsimp only at hs
  rw [hpc, hrun] at hs
  refine Leaves.of_step ?_ hs
  exact leaves_of_ask (sle_refl now) rfl hwork hdisabled

theorem leaves_of_prepareResume (hnow : s.clock.sle now) {byRun : Bool} (hpc : s.entity.pc = .prepareResume byRun)
    (hrun : s.entity.state = .running) (hwork : s.work = .ask) (hdisabled : s.guard.1.enabled = false) :
    Leaves advance now s := by
  have hs := step_loop advance hnow
  unfold loop Entity.loop at hs
  dsimp only at hs
  rw [hpc] at hs
  refine Leaves.of_step ?_ hs
  exact leaves_of_top (sle_refl now) rfl hrun hwork hdisabled

theorem Kept.ends (h : Kept advance g s) : s.Ends advance g := by
  intro now hnow hrun hall
  have hdisabled : s.guard.1.enabled = false := by
    apply Bool.eq_false_of_not_eq_true
    rw [h.enabled, hall]
    exact lt_irrefl _
  have hask : s.work = .ask := by
    by_contra hno
    exact absurd (hdisabled.symm.trans (h.working hno).2) Bool.false_ne_true
  cases hpc : s.entity.pc with
  | unspawned =>
    rcases (h.entity.unspawned hpc).1 with hno | hno <;> exact absurd (hrun.symm.trans hno) nofun
  | init =>
    have hs := step_loop advance hnow
    unfold Timer.loop Entity.loop at hs
    dsimp only at hs
    rw [hpc] at hs
    refine Leaves.of_step ?_ hs
    exact leaves_of_top (sle_refl now) rfl hrun hask hdisabled
  | doWork => exact leaves_of_ask hnow hpc hask hdisabled
  | top => exact leaves_of_top hnow hpc hrun hask hdisabled
  | waiting =>
    -- it is not paused any longer
    have hs := step_loop advance hnow
    unfold Timer.loop Entity.loop at hs
    dsimp only at hs
    rw [hpc, hrun] at hs
    refine Leaves.of_step ?_ hs
    exact leaves_of_prepareResume (sle_refl now) rfl rfl hask hdisabled
  | prepareResume byRun => exact leaves_of_prepareResume hnow hpc hrun hask hdisabled
  | cleanup => exact absurd (hrun.symm.trans (h.entity.stopping hpc)) nofun
  | exited => exact absurd (hrun.symm.trans (h.entity.hooks.cleanup hpc).1) nofun

/-! ## Runs -/

/-- The entity is stopped after the last timeout only. -/
def StopsLast (g : TimeGuard × ε) (s : Timer ε) : Prop :=
  s.entity.state = .stopped → s.timeouts.length = lifetime g

theorem run_stopped {s : Entity} (h : s.run.state = .stopped) : s.state = .stopped := by
  unfold Entity.run Threading.run at h
  cases hstate : s.state <;> rw [hstate] at h <;> first | rfl | cases h

theorem pause_stopped {s : Entity} (h : s.pause.state = .stopped) : s.state = .stopped := by
  unfold Entity.pause Threading.pause at h
  cases hstate : s.state <;> rw [hstate] at h <;> first | rfl | cases h

theorem returns_spec (hs : s.returns = some s') : s'.entity.state = s.entity.state ∧ s'.timeouts = s.timeouts := by
  obtain ⟨entity, hloop, rfl⟩ := Option.map_eq_some_iff.1 hs
  exact ⟨Entity.loop_state hloop, rfl⟩

/-- What `do_work` does to the state of the entity: only a disabled guard makes it stop. -/
theorem doWork_state (hs : s.doWork advance = some s') :
    s.guard.1.enabled = false ∧ s'.timeouts = s.timeouts ∨
      s'.entity.state = s.entity.state ∧ (s'.timeouts = s.timeouts ∨ s.guard.1.enabled = true) := by
  unfold doWork at hs
  cases hwork : s.work with
  | ask =>
    rw [hwork] at hs
    dsimp only at hs
    split_ifs at hs with hdisabled
    · exact .inl ⟨hdisabled, (returns_spec hs).2⟩
    · obtain rfl := Option.some.inj hs
      exact .inr ⟨rfl, .inl rfl⟩
    · exact .inr ⟨(returns_spec hs).1, .inr (Bool.eq_true_of_not_eq_false hdisabled)⟩
  | again =>
    rw [hwork] at hs
    dsimp only at hs
    split_ifs at hs
    · obtain rfl := Option.some.inj hs
      exact .inr ⟨rfl, .inl rfl⟩
    · exact .inr ⟨(returns_spec hs).1, .inl (returns_spec hs).2⟩
  | enter tp =>
    rw [hwork] at hs
    dsimp only at hs
    split_ifs at hs
    · exact .inr ⟨(returns_spec hs).1, .inl (returns_spec hs).2⟩
    · obtain rfl := Option.some.inj hs
      exact .inr ⟨rfl, .inl rfl⟩
  | asleep tp =>
    rw [hwork] at hs
    dsimp only at hs
    split_ifs at hs
    exact .inr ⟨(returns_spec hs).1, .inl (returns_spec hs).2⟩

theorem StopsLast.loop (hkept : Kept advance g s) (h : StopsLast g s) (hs : s.loop advance = some s') :
    StopsLast g s' := by
  intro hstopped
  unfold Timer.loop at hs
  by_cases hpc : s.entity.pc = .doWork
  · rw [hpc] at hs
    rcases doWork_state hs with ⟨hdisabled, htimeouts⟩ | ⟨hstate, htimeouts⟩
    · have hno : ¬s.timeouts.length < lifetime g := by
        rw [← hkept.enabled, hdisabled]
        exact Bool.false_ne_true
      have hle := hkept.inTime.1
      rw [htimeouts]
      omega
    · have hall := h (hstate.symm.trans hstopped)
      rcases htimeouts with htimeouts | henabled
      · rw [htimeouts]
        exact hall
      · have hlt := hkept.enabled.1 henabled
        omega
  · have hgoes : s.entity.loop.map (fun entity => { s with entity := entity }) = some s' := by
      cases hpc' : s.entity.pc <;> rw [hpc'] at hs <;> first | exact hs | exact absurd hpc' hpc
    obtain ⟨entity, hloop, rfl⟩ := Option.map_eq_some_iff.1 hgoes
    exact h ((Entity.loop_state hloop).symm.trans hstopped)

theorem StopsLast.step {e : TimerEvent} (hkept : Kept advance g s) (h : StopsLast g s) (he : Unstopped e s)
    (hs : step advance e s = some s') : StopsLast g s' := by
  cases e with
  | run =>
    obtain rfl := Option.some.inj hs
    exact fun hstopped => h (run_stopped hstopped)
  | pause =>
    obtain rfl := Option.some.inj hs
    exact fun hstopped => h (pause_stopped hstopped)
  | stop => exact absurd rfl he
  | loop now =>
    obtain ⟨s₁, hreads, hloop⟩ := Option.bind_eq_some_iff.1 hs
    have hsame : StopsLast g s₁ := by
      unfold Timer.reads at hreads
      split_ifs at hreads
      obtain rfl := Option.some.inj hreads
      exact h
    exact StopsLast.loop (hkept.reads hreads).1 hsame hloop

/-- A new guard is lowered only where its end is over. -/
theorem lowered_new (undef : TimeGuard) (interval : Ticks) (startLow : Bool) (maxIntervals : Int32)
    {made : Ticks} (hmade : made.sle clock) :
    Lowered clock (TimeGuard.new undef interval startLow maxIntervals made).1 := by
  intro _ hup
  rw [new_eq] at hup ⊢
  cases startLow with
  | true => exact hmade
  | false =>
    rw [if_pos rfl, shift_eq periodic_steps] at hup
    split_ifs at hup <;> exact absurd hup.symm Bool.false_ne_true

/-- **The timeouts are those of the guard**, in every interleaving of calls with the thread: each comes once, none is
early, and none that is due is waited past. A timer stops itself after the last one, and unless `stop` is called not
before. -/
theorem timeouts_on_time (hsteps : Guard.Steps advance amount next) (hlow : Lowered clock g.1) :
    (∀ s, Reaches (step advance) Free (new clock g) s → s.InTime advance g ∧ s.Punctual advance g ∧ s.Ends advance g) ∧
      ∀ s, Reaches (step advance) Unstopped (new clock g) s → s.StopsLast g := by
  constructor
  · intro s h
    have hkept : Kept advance g s := h.invariant (fun _ _ _ hk _ hs => hk.step hsteps hs) (kept_new hlow)
    exact ⟨hkept.inTime, hkept.punctual, hkept.ends⟩
  · intro s h
    have hboth : Kept advance g s ∧ StopsLast g s := by
      refine h.invariant (I := fun s => Kept advance g s ∧ StopsLast g s) ?_ ⟨kept_new hlow, ?_⟩
      · exact fun _ _ _ hk he hs => ⟨hk.1.step hsteps hs, StopsLast.step hk.1 hk.2 he hs⟩
      · exact fun hno => absurd hno nofun
    exact hboth.2

/-- An exponential guard of two intervals: the second timeout is late, and the third comes at once. -/
theorem timeouts_on_time_three :
    let advance := ExpTimeGuard.advance fun _ => 0
    let guard := ExpTimeGuard.new ⟨false, 0, 0, false, false, 0, 0, 0⟩ 5 2 true 2 0
    ((∀ s, Reaches (step advance) Free (new 0 guard) s →
        s.InTime advance guard ∧ s.Punctual advance guard ∧ s.Ends advance guard) ∧
      ∀ s, Reaches (step advance) Unstopped (new 0 guard) s → s.StopsLast guard) ∧
    (runEvents (step advance) ([.run, .loop 0, .loop 0, .loop 1, .loop 1, .pause] ++ List.replicate 2 (.loop 3) ++
        [.run] ++ List.replicate 9 (.loop 20)) (new 0 guard)).map (fun s => (s.timeouts, s.entity.pc)) =
      some ([⟨15, 20⟩, ⟨5, 20⟩, ⟨0, 1⟩], .exited) :=
  ⟨timeouts_on_time advance_steps (lowered_new _ _ _ _ (by decide)), by decide⟩

end Timer

end Libtarp.Threading
