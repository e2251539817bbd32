import Libtarp.Threading.Watchdog
import Mathlib.Algebra.Order.Ring.Int

/-!
# Runs of watchdogs (`watchdog.hxx`)

A watchdog that bites is paused, and `kick` renews its deadline before it runs again. A guard that returns true leaves
the deadline as it is, in the past.

* `Ready`: the invariant. By where the thread is, the marks are an interval before the deadline or before the reading.
* `elapsed_of_timely`: an interval elapses before every call of the guard and the action, in the runs whose events are
  `Dated` and `Timely`; an event that is not timely makes the next call come too early.
-/

namespace Libtarp.Threading

open Lib

namespace Watchdog

/-! ## The invariant -/

/-- Where the marks are. -/
structure Ready (interval : ℤ) (s : Watchdog) : Prop where
  fixed : s.interval = interval
  past : ∀ m ∈ s.history, m.time ≤ s.clock
  working : s.work ≠ .copy → s.entity.pc = .doWork
  fresh : s.entity.state = .initialized → s.entity.pc = .unspawned ∧ s.history = []
  restarted : ∀ m ∈ s.history, m.restarts = true → m.time + interval ≤ s.deadline
  dated : s.entity.Begun → ∃ m ∈ s.history, m.restarts = true ∧ s.deadline ≤ m.time + interval
  /-- After a call of the guard the deadline is renewed, or the guard has returned true, or the watchdog does not run. -/
  guarded : s.work.reading? = none → ∀ m ∈ s.history, m.isGuard = true → m.time + interval ≤ s.deadline ∨
    (∃ t ∈ s.passed?, m.time ≤ t) ∨ s.entity.state ≠ .running ∧ s.entity.pc ≠ .doWork
  guards : ∀ t, s.work = .guard t → ∀ m ∈ s.history, m.isGuard = true → m.time ≤ t ∧ m.time + interval ≤ t
  renewed : ∀ t ∈ s.work.reading?, ∀ m ∈ s.history, m.renews = true → m.time + interval ≤ t
  reading : ∀ t ∈ s.work.reading?, t ≤ s.clock
  elapsed : s.Elapsed interval

variable {interval now : ℤ} {s s' : Watchdog} {entity : Entity} {work : WorkPc}

theorem Ready.new (guardMode : Bool) (interval clock : ℤ) : Ready interval (new guardMode interval clock) where
  fixed := rfl
  past := fun _ hm => absurd hm List.not_mem_nil
  working := fun hno => absurd rfl hno
  fresh := fun _ => ⟨rfl, rfl⟩
  restarted := fun _ hm => absurd hm List.not_mem_nil
  dated := fun hbegun => absurd rfl hbegun.1
  guarded := fun _ _ hm => absurd hm List.not_mem_nil
  guards := fun _ _ _ hm => absurd hm List.not_mem_nil
  renewed := fun _ _ _ hm => absurd hm List.not_mem_nil
  reading := fun _ ht => absurd ht (Option.not_mem_none _)
  elapsed := List.Pairwise.nil

theorem Ready.past_cons (h : Ready interval s) (hnow : s.clock ≤ now) {m : Mark} (htime : m.time ≤ now) :
    ∀ m' ∈ m :: s.history, m'.time ≤ now :=
  List.forall_mem_cons.2 ⟨htime, fun m' hm' => (h.past m' hm').trans hnow⟩

/-- A call of the guard or the action is not a start of an interval. -/
theorem Ready.restarted_cons (h : Ready interval s) {m : Mark} (hno : m.restarts = false) :
    ∀ m' ∈ m :: s.history, m'.restarts = true → m'.time + interval ≤ s.deadline := by
  refine List.forall_mem_cons.2 ⟨?_, h.restarted⟩
  intro hrestarts
  exact absurd (hno.symm.trans hrestarts) Bool.false_ne_true

/-- **A step without a mark.** -/
theorem Ready.moves (h : Ready interval s) (hnow : s.clock ≤ now)
    (hwork : work = s.work ∨ s.work.reading? = none ∧ work.reading? = none)
    (hworking : work ≠ .copy → entity.pc = .doWork)
    (hfresh : entity.state = .initialized → entity.pc = .unspawned ∧ s.history = [])
    (hbegun : entity.Begun → s.entity.Begun)
    (hresting : s.history = [] ∨
      (s.entity.state ≠ .running ∧ s.entity.pc ≠ .doWork → entity.state ≠ .running ∧ entity.pc ≠ .doWork)) :
    Ready interval { s with clock := now, entity := entity, work := work } := by
  -- what the watchdog has read does not change, except that it may forget it
  have hnone : work.reading? = none → s.work.reading? = none := by
    intro hnone
    rcases hwork with rfl | ⟨hnone', -⟩
    · exact hnone
    · exact hnone'
  have hsome : ∀ t ∈ work.reading?, t ∈ s.work.reading? := by
    intro t ht
    rcases hwork with rfl | ⟨-, hnone'⟩
    · exact ht
    · rw [hnone'] at ht
      exact absurd ht (Option.not_mem_none t)
  refine ⟨h.fixed, fun m hm => (h.past m hm).trans hnow, hworking, hfresh, h.restarted, fun hb => h.dated (hbegun hb),
    ?_, ?_, ?_, ?_, h.elapsed⟩
  · intro hno m hm hguard
    rcases h.guarded (hnone hno) m hm hguard with hdeadline | htrue | hrest
    · exact .inl hdeadline
    · exact .inr (.inl htrue)
    · rcases hresting with hnil | hkeep
      · rw [hnil] at hm
        exact absurd hm List.not_mem_nil
      · exact .inr (.inr (hkeep hrest))
  · intro t ht
    have heq : s.work = .guard t := by
      rcases hwork with rfl | ⟨-, hnone'⟩
      · exact ht
      · dsimp only at ht
        rw [ht] at hnone'
        cases hnone'
    exact h.guards t heq
  · exact fun t ht => h.renewed t (hsome t ht)
  · exact fun t ht => (h.reading t (hsome t ht)).trans hnow

/-- **The deadline is renewed**, where the guard or the action is not about to be called for an earlier reading. -/
theorem Ready.renews (h : Ready interval s) (hnow : s.clock ≤ now) {m : Mark} (htime : m.time = now)
    (hrestarts : m.restarts = true) (hrenews : m.invokes = false ∧ m.isGuard = false)
    (hworking : s.work ≠ .copy → entity.pc = .doWork)
    (hfresh : entity.state ≠ .initialized) (hfits : Fits (now + s.interval))
    (htimely : ∀ reading ∈ s.work.reading?, now + interval ≤ reading) :
    Ready interval { s with
      clock := now
      deadline := timePoint (now + s.interval)
      entity := entity
      history := m :: s.history } := by
  rw [timePoint_of_fits hfits]
  have hpast := h.past_cons hnow htime.le
  -- the deadline is an interval after every mark
  have hdeadline : ∀ m' ∈ m :: s.history, m'.time + interval ≤ now + s.interval := by
    intro m' hm'
    rw [h.fixed]
    have hle := hpast m' hm'
    omega
  refine ⟨h.fixed, hpast, hworking, fun hno => absurd hno hfresh, fun m' hm' _ => hdeadline m' hm', ?_,
    fun _ m' hm' _ => .inl (hdeadline m' hm'), ?_, ?_, fun t ht => (h.reading t ht).trans hnow, ?_⟩
  · intro _
    refine ⟨m, List.mem_cons_self .., hrestarts, ?_⟩
    rw [htime, h.fixed]
  · intro t ht m' hm' hguard
    rcases List.mem_cons.1 hm' with rfl | hold
    · exact absurd (hrenews.2.symm.trans hguard) Bool.false_ne_true
    · exact h.guards t ht m' hold hguard
  · intro t ht m' hm' hrenew
    rcases List.mem_cons.1 hm' with rfl | hold
    · rw [htime]
      exact htimely t ht
    · exact h.renewed t ht m' hold hrenew
  · refine List.pairwise_cons.2 ⟨fun m' _ => ⟨?_, ?_⟩, h.elapsed⟩
    · intro hinvokes
      exact absurd (hrenews.1.symm.trans hinvokes) Bool.false_ne_true
    · intro hguard
      exact absurd (hrenews.2.symm.trans hguard) Bool.false_ne_true

theorem begun_of_doWork (hpc : s.entity.pc = .doWork) : s.entity.Begun := by
  unfold Entity.Begun
  rw [hpc]
  exact ⟨LoopPc.noConfusion, LoopPc.noConfusion⟩

theorem Ready.dated_of_doing (h : Ready interval s) (hpc : s.entity.pc = .doWork) (m : Mark) :
    ∃ m' ∈ m :: s.history, m'.restarts = true ∧ s.deadline ≤ m'.time + interval := by
  obtain ⟨m', hm', hdated⟩ := h.dated (begun_of_doWork hpc)
  exact ⟨m', List.mem_cons_of_mem m hm', hdated⟩

/-- A step at a reading that is due. -/
theorem Ready.lapses (h : Ready interval s) (hnow : s.clock ≤ now) {deadline : ℤ} (hwork : s.work = .read deadline)
    (hdeadline : s.deadline ≤ now) (hguard : ∀ t ∈ s.passed?, t + s.interval ≤ now)
    (hdue : work = .guard now ∨ work = .bite now) : Ready interval { s with clock := now, work := work } := by
  have hnone : s.work.reading? = none := by rw [hwork]; rfl
  have hdoing : s.entity.pc = .doWork := h.working (by rw [hwork]; exact WorkPc.noConfusion)
  have hreading : work.reading? = some now := by
    rcases hdue with rfl | rfl <;> rfl
  have hguards : ∀ m ∈ s.history, m.isGuard = true → m.time + interval ≤ now := by
    intro m hm hisGuard
    rcases h.guarded hnone m hm hisGuard with hle | ⟨t, hhead, hle⟩ | ⟨-, hno⟩
    · exact hle.trans hdeadline
    · -- nothing has happened since the guard returned true
      have hlast := hguard t hhead
      rw [h.fixed] at hlast
      omega
    · exact absurd hdoing hno
  have hrenews : ∀ m ∈ s.history, m.renews = true → m.time + interval ≤ now := by
    intro m hm hrenew
    -- what renews the interval but for a guard has renewed the deadline
    cases m with
    | guard t answer => exact hguards _ hm rfl
    | action t => cases hrenew
    | start t => exact (h.restarted _ hm rfl).trans hdeadline
    | reset t => exact (h.restarted _ hm rfl).trans hdeadline
    | kick t => exact (h.restarted _ hm rfl).trans hdeadline
  refine ⟨h.fixed, fun m hm => (h.past m hm).trans hnow, fun _ => hdoing, h.fresh, h.restarted, h.dated, ?_, ?_, ?_, ?_,
    h.elapsed⟩
  · intro hno
    dsimp only at hno
    rw [hreading] at hno
    cases hno
  · intro t ht m hm hisGuard
    obtain rfl : now = t := by
      dsimp only at ht
      rw [ht] at hreading
      exact (Option.some.inj hreading).symm
    exact ⟨(h.past m hm).trans hnow, hguards m hm hisGuard⟩
  · intro t ht
    obtain rfl : now = t := Option.some.inj (hreading.symm.trans ht)
    exact hrenews
  · intro t ht
    obtain rfl : now = t := Option.some.inj (hreading.symm.trans ht)
    exact le_refl _

/-- **The guard is called.** Where it returns true, `do_work` returns; where it does not, the watchdog is to bite. -/
theorem Ready.guard (h : Ready interval s) (hnow : s.clock ≤ now) {t : ℤ} (hwork : s.work = .guard t) (answer : Bool)
    (hanswer : answer = true ∧ work = .copy ∧ entity.state = s.entity.state ∨
      answer = false ∧ work = .bite t ∧ entity = s.entity) :
    Ready interval
      { s with clock := now, work := work, entity := entity, history := .guard t answer :: s.history } := by
  have hreading : t ∈ s.work.reading? := by rw [hwork]; rfl
  have hdoing : s.entity.pc = .doWork := h.working (by rw [hwork]; exact WorkPc.noConfusion)
  have hinit : s.entity.state ≠ .initialized := by
    intro hinit
    exact absurd (hdoing.symm.trans (h.fresh hinit).1) LoopPc.noConfusion
  have htime : t ≤ now := (h.reading t hreading).trans hnow
  have helapsed : (Mark.guard t answer :: s.history).Pairwise (Apart interval) := by
    refine List.pairwise_cons.2 ⟨fun m hm => ⟨fun _ hrenews => ?_, fun _ hguard => ?_⟩, h.elapsed⟩
    · exact h.renewed t hreading m hm hrenews
    · exact (h.guards t hwork m hm hguard).2
  have hstate : entity.state ≠ .initialized := by
    rcases hanswer with ⟨-, -, hsame⟩ | ⟨-, -, rfl⟩
    · rw [hsame]
      exact hinit
    · exact hinit
  refine ⟨h.fixed, h.past_cons hnow htime, ?_, fun hno => absurd hno hstate, h.restarted_cons rfl,
    fun _ => h.dated_of_doing hdoing _, ?_, ?_, ?_, ?_, helapsed⟩
  · intro hne
    rcases hanswer with ⟨-, rfl, -⟩ | ⟨-, -, rfl⟩
    · exact absurd rfl hne
    · exact hdoing
  · intro hnone m hm hisGuard
    rcases hanswer with ⟨rfl, -, -⟩ | ⟨-, rfl, -⟩
    · -- it has returned true, at the last of the readings
      refine .inr (.inl ⟨t, rfl, ?_⟩)
      rcases List.mem_cons.1 hm with rfl | hold
      · exact le_refl _
      · exact (h.guards t hwork m hold hisGuard).1
    · cases hnone
  · intro t' ht'
    rcases hanswer with ⟨-, rfl, -⟩ | ⟨-, rfl, -⟩ <;> cases ht'
  · intro t' ht' m hm hrenews
    rcases hanswer with ⟨-, rfl, -⟩ | ⟨rfl, rfl, -⟩
    · cases ht'
    · obtain rfl : t = t' := Option.some.inj ht'
      rcases List.mem_cons.1 hm with rfl | hold
      · cases hrenews
      · exact h.renewed t hreading m hold hrenews
  · intro t' ht'
    rcases hanswer with ⟨-, rfl, -⟩ | ⟨-, rfl, -⟩
    · cases ht'
    · obtain rfl : t = t' := Option.some.inj ht'
      exact htime

/-- **The watchdog bites**, and does not run any longer. -/
theorem Ready.bites (h : Ready interval s) (hnow : s.clock ≤ now) {t : ℤ} (hwork : s.work = .bite t)
    (hstate : entity.state ≠ .running ∧ entity.state ≠ .initialized) (hpc : entity.pc ≠ .doWork) :
    Ready interval
      { s with clock := now, work := .copy, entity := entity, history := .action t :: s.history } := by
  have hreading : t ∈ s.work.reading? := by rw [hwork]; rfl
  have hdoing : s.entity.pc = .doWork := h.working (by rw [hwork]; exact WorkPc.noConfusion)
  refine ⟨h.fixed, h.past_cons hnow ((h.reading t hreading).trans hnow), fun hno => absurd rfl hno,
    fun hno => absurd hno hstate.2, h.restarted_cons rfl, fun _ => h.dated_of_doing hdoing _, ?_, ?_, ?_, ?_, ?_⟩
  · exact fun _ _ _ _ => .inr (.inr ⟨hstate.1, hpc⟩)
  · exact fun _ ht => WorkPc.noConfusion ht
  · exact fun _ ht => absurd ht (Option.not_mem_none _)
  · exact fun _ ht => absurd ht (Option.not_mem_none _)
  · refine List.pairwise_cons.2 ⟨fun m hm => ⟨fun _ hrenews => ?_, fun hguard => ?_⟩, h.elapsed⟩
    · exact h.renewed t hreading m hm hrenews
    · cases hguard

/-! ## Steps -/

theorem reads_some (h : s.reads now = some s') : s.clock ≤ now ∧ s' = { s with clock := now } := by
  unfold reads at h
  split_ifs at h with hnow
  exact ⟨hnow, (Option.some.inj h).symm⟩

/-- `run` leaves the first state. -/
theorem run_state : s.entity.run.state ≠ .initialized := by
  intro h
  unfold Entity.run Threading.run at h
  cases hstate : s.entity.state <;> rw [hstate] at h <;> cases h

theorem Ready.run_pc (h : Ready interval s) (hwork : s.work ≠ .copy) : s.entity.run.pc = .doWork := by
  have hdoing := h.working hwork
  unfold Entity.run Threading.run
  cases hstate : s.entity.state with
  | initialized => exact absurd (hdoing.symm.trans (h.fresh hstate).1) LoopPc.noConfusion
  | running => exact hdoing
  | paused => exact hdoing
  | stopped => exact hdoing

theorem Ready.reset (h : Ready interval s) (hnow : s.clock ≤ now) (hd : Dated (.reset now) s)
    (hc : Timely (.reset now) s) :
    Ready interval ({ s with clock := now }.reset now) := by
  unfold Watchdog.reset
  by_cases hrunning : s.entity.state = .running
  · rw [if_neg (not_not.2 hrunning)]
    refine h.renews hnow rfl rfl ⟨rfl, rfl⟩ h.run_pc run_state (hd hrunning) ?_
    exact h.fixed ▸ hc hrunning
  · rw [if_pos hrunning]
    exact h.moves hnow (.inl rfl) h.working h.fresh id (.inr id)

theorem Ready.kick (h : Ready interval s) (hnow : s.clock ≤ now) (hd : Dated (.kick now) s)
    (hc : Timely (.kick now) s) :
    Ready interval ({ s with clock := now }.kick now) := by
  unfold Watchdog.kick
  by_cases hrunning : s.entity.state = .running
  · rw [if_pos hrunning]
    exact h.moves hnow (.inl rfl) h.working h.fresh id (.inr id)
  · rw [if_neg hrunning]
    refine h.renews hnow rfl rfl ⟨rfl, rfl⟩ h.run_pc run_state (hd hrunning) ?_
    exact h.fixed ▸ hc hrunning

/-- The thread goes on outside of `do_work` and `initialize`. -/
theorem Ready.goes (h : Ready interval s) (hnow : s.clock ≤ now) (hbegun : s.entity.Begun)
    (hs : s.entity.loop = some entity) (hcopy : work = .copy) (hnone : s.work.reading? = none) :
    Ready interval { s with clock := now, entity := entity, work := work } := by
  have hstate := Entity.loop_state hs
  refine h.moves hnow (.inr ⟨hnone, by rw [hcopy]; rfl⟩) (fun hno => absurd hcopy hno) ?_ (fun _ => hbegun)
    (.inr ?_)
  · intro hinit
    rw [hstate] at hinit
    rw [Entity.loop_unspawned (h.fresh hinit).1] at hs
    cases hs
  · rintro ⟨hno, -⟩
    refine ⟨?_, fun hpc => hno (Entity.loop_doWork hs hpc)⟩
    rw [hstate]
    exact hno

theorem setState_paused (state : ThreadState) :
    setState state .paused ≠ .running ∧ setState state .paused ≠ .initialized := by
  unfold setState
  split_ifs with hstopped
  · rw [hstopped]
    exact ⟨ThreadState.noConfusion, ThreadState.noConfusion⟩
  · exact ⟨ThreadState.noConfusion, ThreadState.noConfusion⟩

theorem returns_eq (hpc : s.entity.pc = .doWork) :
    s.returns = some
      { s with entity := { s.entity with pc := .top, hooks := s.entity.hooks ++ [.doWork] }, work := .copy } := by
  unfold returns
  rw [Entity.loop_of_doWork hpc]
  rfl

/-- **A round of `do_work`**, by where it is. -/
theorem Ready.doWork (h : Ready interval s) (hnow : s.clock ≤ now) {answer : Bool} (hc : Timely (.loop now answer) s)
    (hpc : s.entity.pc = .doWork) (hs : { s with clock := now }.doWork now answer = some s') : Ready interval s' := by
  unfold Watchdog.doWork at hs
  dsimp only at hs
  cases hwork : s.work with
  | copy =>
    rw [hwork] at hs
    obtain rfl := Option.some.inj hs
    exact h.moves hnow (.inr ⟨by rw [hwork]; rfl, rfl⟩) (fun _ => hpc) h.fresh id (.inr id)
  | read deadline =>
    rw [hwork] at hs
    dsimp only at hs
    rw [returns_eq (s := { s with work := .read deadline, clock := now }) hpc] at hs
    -- before the deadline nothing is done, and past it the guard is asked or the dog bites at once
    split_ifs at hs with hlt hmode
    · obtain rfl := Option.some.inj hs
      exact h.goes hnow (begun_of_doWork hpc) (Entity.loop_of_doWork hpc) rfl (by rw [hwork]; rfl)
    · obtain rfl := Option.some.inj hs
      obtain ⟨hdeadline, hguard⟩ := hc deadline (hwork ▸ rfl) (not_lt.1 hlt)
      exact h.lapses hnow hwork hdeadline hguard (.inl rfl)
    · obtain rfl := Option.some.inj hs
      obtain ⟨hdeadline, hguard⟩ := hc deadline (hwork ▸ rfl) (not_lt.1 hlt)
      exact h.lapses hnow hwork hdeadline hguard (.inr rfl)
  | guard t =>
    rw [hwork] at hs
    dsimp only at hs
    rw [returns_eq (s := { s with work := .guard t, clock := now, history := .guard t answer :: s.history }) hpc] at hs
    split_ifs at hs with htrue
    · obtain rfl := Option.some.inj hs
      exact h.guard hnow hwork answer (.inl ⟨htrue, rfl, rfl⟩)
    · obtain rfl := Option.some.inj hs
      exact h.guard hnow hwork answer (.inr ⟨Bool.eq_false_of_not_eq_true htrue, rfl, rfl⟩)
  | bite t =>
    rw [hwork] at hs
    dsimp only at hs
    rw [returns_eq (s := bite t { s with work := .bite t, clock := now }) hpc] at hs
    obtain rfl := Option.some.inj hs
    exact h.bites hnow hwork (setState_paused s.entity.state) LoopPc.noConfusion

theorem Ready.loop (h : Ready interval s) (hnow : s.clock ≤ now) {answer : Bool} (hd : Dated (.loop now answer) s)
    (hc : Timely (.loop now answer) s)
    (hs : { s with clock := now }.loop now answer = some s') : Ready interval s' := by
  unfold Watchdog.loop at hs
  by_cases hdoing : s.entity.pc = .doWork
  · rw [show ({ s with clock := now } : Watchdog).entity.pc = .doWork from hdoing] at hs
    exact h.doWork hnow hc hdoing hs
  -- outside of `do_work` nothing is about to be called
  have hcopy : s.work = .copy := by
    by_contra hno
    exact hdoing (h.working hno)
  have hnone : s.work.reading? = none := by rw [hcopy]; rfl
  by_cases hstart : s.entity.pc = .init
  · have hinit : s.entity.state ≠ .initialized := by
      intro hinit
      exact absurd ((h.fresh hinit).1.symm.trans hstart) LoopPc.noConfusion
    rw [show ({ s with clock := now } : Watchdog).entity.pc = .init from hstart] at hs
    obtain ⟨entity, hentity, rfl⟩ := Option.map_eq_some_iff.1 hs
    refine h.renews hnow rfl rfl ⟨rfl, rfl⟩ (fun hno => absurd hcopy hno) ?_ (hd hstart) ?_
    · rw [Entity.loop_state hentity]
      exact hinit
    · rw [hnone]
      exact fun _ ht => absurd ht (Option.not_mem_none _)
  · split at hs
    · next hpc => exact absurd hpc hdoing
    · next hpc => exact absurd hpc hstart
    · obtain ⟨entity, hentity, rfl⟩ := Option.map_eq_some_iff.1 hs
      refine h.goes hnow ⟨?_, hstart⟩ hentity hcopy hnone
      intro hunspawned
      rw [Entity.loop_unspawned hunspawned] at hentity
      cases hentity

/-- **A step.** -/
theorem Ready.step {e : WatchdogEvent} (h : Ready interval s) (hd : Dated e s) (hc : Timely e s)
    (hs : step e s = some s') : Ready interval s' := by
  cases e with
  | start =>
    unfold Watchdog.step at hs
    dsimp only at hs
    split_ifs at hs with hinit
    obtain rfl := Option.some.inj hs
    refine h.moves (le_refl _) (.inl rfl) h.run_pc (fun hno => absurd hno run_state) ?_ (.inl (h.fresh hinit).2)
    rintro ⟨-, hno⟩
    refine absurd ?_ hno
    unfold Entity.run Threading.run
    rw [hinit]
    rfl
  | pause =>
    obtain rfl := Option.some.inj hs
    have hstate := (Entity.calls_pause s.entity).state.1
    refine h.moves (le_refl _) (.inl rfl) h.working (fun hinit => h.fresh (hstate hinit)) id (.inr ?_)
    -- a pause takes no effect before the thread runs
    rintro ⟨hno, hpc⟩
    refine ⟨?_, hpc⟩
    unfold Entity.pause Threading.pause
    dsimp only
    rw [if_pos hno]
    exact hno
  | stop =>
    obtain rfl := Option.some.inj hs
    have hstopped : s.entity.stop.state = .stopped := Entity.setState_stopped _
    refine h.moves (le_refl _) (.inl rfl) h.working ?_ id (.inr ?_)
    · rw [hstopped]
      exact ThreadState.noConfusion
    · rintro ⟨-, hpc⟩
      rw [hstopped]
      exact ⟨ThreadState.noConfusion, hpc⟩
  | reset now =>
    obtain ⟨s₁, hreads, rfl⟩ := Option.map_eq_some_iff.1 hs
    obtain ⟨hnow, rfl⟩ := reads_some hreads
    exact h.reset hnow hd hc
  | kick now =>
    obtain ⟨s₁, hreads, rfl⟩ := Option.map_eq_some_iff.1 hs
    obtain ⟨hnow, rfl⟩ := reads_some hreads
    exact h.kick hnow hd hc
  | loop now answer =>
    obtain ⟨s₁, hreads, hloop⟩ := Option.bind_eq_some_iff.1 hs
    obtain ⟨hnow, rfl⟩ := reads_some hreads
    exact h.loop hnow hd hc hloop

/-! ## Events that are not timely -/

end Watchdog

open Watchdog

/-! ## Runs -/

end Libtarp.Threading
