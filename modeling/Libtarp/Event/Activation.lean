import Libtarp.Event.TimerRuns
import Libtarp.Process.Async

/-!
# Timers that are registered again (`event.cxx`, `process.c`)

The `tspec` of a timer is its interval until it is registered, and then the time it expires, by which the queue is
sorted. `TimerEventCallback::register_event_monitor` and `async_process_reaper` set the interval and then register
the timer. Nothing stops them where the timer is registered: `CallbackCore::activate` leaves that to its callers,
and the reaper is called while it is scheduled when the killer runs first. The registration is refused then, after
the interval has replaced the time.

* `rearm_spec`: what setting the interval and registering does.
* `Gentle`: the timer is not registered, or the interval is what `tspec` holds.
* `spared_iff`: one refused call leaves the queue and its times alone exactly if it is gentle.
* `refused_spared_iff`: so it is in every state of a run whose calls are gentle, where the queue is sorted.
-/

namespace Libtarp.Event

open Function Lib
open Process (millis reaperCheckInterval asyncProcessReaper Async ProcessTimer Stream)

/-- `TimerEventCallback`; `func` says whether there is an `m_func`. -/
structure TimerEventCallback where
  interval : Timespec
  func : Bool
  isActive : Bool
  isDead : Bool

/-- The pump, and the callbacks whose `m_raw_tev_handle` are the timers. -/
structure Callbacks (T F W D : Type) where
  world : World T F W D
  callback : T → TimerEventCallback

inductive CallbackEvent (T F W D : Type)
  /-- a step of the pump or of another client -/
  | act (e : Action T F W D)
  | setInterval (tev : T) (interval : Timespec)
  | setFunc (tev : T) (func : Bool)
  | activate (tev : T) (now : Timespec)
  | deactivate (tev : T)
  | die (tev : T)
  /-- `async_process_killer` calls `async_process_reaper`, whose timer is `tev`, and the process has not exited -/
  | killer (tev : T) (now : Timespec)

variable {T F W D : Type} [DecidableEq T] [DecidableEq F] [DecidableEq W] (c : Client F W)

/-- `Evp_set_timer_interval_*`, and then `Evp_register_timer`. -/
def World.rearm (tev : T) (interval now : Timespec) (s : World T F W D) : Option (World T F W D × Rc) :=
  (s.request c (.setTimerInterval tev interval)).bind fun s =>
    (s.request c (.registerTimer tev now)).map fun s' => (s', (registerTimer s.pump tev now).2)

/-- `activate`. An empty callback throws. -/
def Callbacks.activate (tev : T) (now : Timespec) (s : Callbacks T F W D) : Option (Callbacks T F W D × Option Rc) :=
  if (s.callback tev).isDead then some (s, some (.error .expired))
  else if (s.callback tev).func = false then some (s, none)
  else
    (s.world.rearm c tev (s.callback tev).interval now).map fun (world, rc) =>
      ({ world := world
         callback :=
          if rc = .success then update s.callback tev { s.callback tev with isActive := true } else s.callback },
        some rc)

/-- `deactivate`. -/
def Callbacks.deactivate (tev : T) (s : Callbacks T F W D) : Option (Callbacks T F W D) :=
  if (s.callback tev).isActive then
    (s.world.request c (.unregisterTimer tev)).map fun world =>
      { world := world, callback := update s.callback tev { s.callback tev with isActive := false } }
  else some s

/-- `die`. -/
def Callbacks.die (tev : T) (s : Callbacks T F W D) : Option (Callbacks T F W D) :=
  if (s.callback tev).isDead then some s
  else
    (s.deactivate c tev).map fun s =>
      { s with callback := update s.callback tev { s.callback tev with isDead := true, func := false } }

/-- An event, with the answer where it registers a timer. -/
def Callbacks.call (e : CallbackEvent T F W D) (s : Callbacks T F W D) : Option (Callbacks T F W D × Option Rc) :=
  match e with
  | .act e => (World.step c e s.world).map fun world => ({ s with world := world }, none)
  | .setInterval tev interval =>
    some ({ s with callback := update s.callback tev { s.callback tev with interval := interval } }, none)
  | .setFunc tev func => some ({ s with callback := update s.callback tev { s.callback tev with func := func } }, none)
  | .activate tev now => s.activate c tev now
  | .deactivate tev => (s.deactivate c tev).map fun s => (s, none)
  | .die tev => (s.die c tev).map fun s => (s, none)
  | .killer tev now =>
    (s.world.rearm c tev (millis reaperCheckInterval) now).map fun (world, rc) => ({ s with world := world }, some rc)

def Callbacks.step (e : CallbackEvent T F W D) (s : Callbacks T F W D) : Option (Callbacks T F W D) :=
  (s.call c e).map Prod.fst

/-- A new pump, and callbacks that have not been activated. -/
def Callbacks.new (tspec : T → Timespec) (interval : T → Timespec) : Callbacks T F W D where
  world := World.new tspec
  callback tev := { interval := interval tev, func := false, isActive := false, isDead := false }

/-- The event registers a timer after setting its interval. -/
def CallbackEvent.Rearms : CallbackEvent T F W D → Prop
  | .activate .. | .killer .. => True
  | _ => False

/-- As `Evp_register_timer` compares them. -/
def Pump.Sorted (s : Pump T F W D) : Prop :=
  s.timers.Pairwise fun t t' => timespecCmp (s.tspec t) (s.tspec t') ≠ .gt

/-- Where the timer was not registered, the queue is sorted and what was in it expires when it did. -/
def Spared (s s' : Callbacks T F W D) (rc : Option Rc) : Prop :=
  rc ≠ some .success → s'.world.pump.Sorted ∧ s'.world.pump.timers = s.world.pump.timers ∧
    ∀ t ∈ s.world.pump.timers, s'.world.pump.tspec t = s.world.pump.tspec t

/-- The interval that is set is not that of a registered timer, or is what it has. -/
def Gentle (e : CallbackEvent T F W D) (s : Callbacks T F W D) : Prop :=
  match e with
  | .act e => IntervalsKept e s.world
  | .activate tev _ => (s.callback tev).isDead = false → (s.callback tev).func = true →
      s.world.pump.timerRegistered tev = true → (s.callback tev).interval = s.world.pump.tspec tev
  | .killer tev _ => s.world.pump.timerRegistered tev = true → millis reaperCheckInterval = s.world.pump.tspec tev
  | .setInterval .. | .setFunc .. | .deactivate .. | .die .. => True

instance : DecidableEq Timespec := fun a b =>
  decidable_of_iff (a.sec = b.sec ∧ a.nsec = b.nsec) (by
    cases a
    cases b
    simp only [Timespec.mk.injEq])

instance (s : Pump T F W D) : Decidable s.Sorted := List.instDecidablePairwise s.timers

omit [DecidableEq F] [DecidableEq W] in
instance (s s' : Callbacks T F W D) (rc : Option Rc) : Decidable (Spared s s' rc) := instDecidableForall

instance (e : CallbackEvent T F W D) (s : Callbacks T F W D) : Decidable (Gentle e s) :=
  match e with
  | .act e => inferInstanceAs (Decidable (IntervalsKept e s.world))
  | .activate .. => instDecidableForall
  | .killer .. => instDecidableForall
  | .setInterval .. | .setFunc .. | .deactivate .. | .die .. => .isTrue trivial

variable {c} {w w' : World T F W D} {tev : T} {interval now : Timespec} {rc : Rc}

/-! ## One timer -/

omit [DecidableEq F] [DecidableEq W] in
theorem World.TimersKept.sorted (h : w.TimersKept) : w.pump.Sorted := by
  have hr := h.right
  apply hr.sorted.imp_of_mem
  intro t t' ht ht' hbefore
  rw [timespecCmp_spec, hr.expiration t ht, hr.expiration t' ht']
  unfold History.Before at hbefore
  split_ifs
  · decide
  · decide
  · omega

/-- **The interval is set and the timer registered.** A registered timer loses the time it expires; one that is not
registered is put in its place, or refused. -/
theorem rearm_spec (h : w.TimersKept) (hs : w.rearm c tev interval now = some (w', rc)) :
    (w.pump.timerRegistered tev = true ∧ rc ≠ .success ∧
        w'.pump = { w.pump with tspec := update w.pump.tspec tev interval } ∧
        (interval = w.pump.tspec tev → w'.TimersKept)) ∨
      (w.pump.timerRegistered tev = false ∧ w'.TimersKept ∧
        (rc ≠ .success → w'.pump.timers = w.pump.timers ∧ ∀ t, t ≠ tev → w'.pump.tspec t = w.pump.tspec t)) := by
  obtain ⟨w₁, hset, hs⟩ := Option.bind_eq_some_iff.1 hs
  obtain ⟨w₂, hregister, heq⟩ := Option.map_eq_some_iff.1 hs
  obtain ⟨rfl, rfl⟩ := Prod.mk.inj heq
  have hpump : w₂.pump = (registerTimer w₁.pump tev now).1 := by
    unfold World.request at hregister
    obtain ⟨-, hregister⟩ := Option.ite_none_right_eq_some.1 hregister
    obtain rfl := Option.some.inj hregister
    rfl
  have hkept : w₁.TimersKept → w₂.TimersKept := fun hw =>
    World.TimersKept.request (r := .registerTimer tev now) hw trivial hregister
  have hkept' : w.pump.timerRegistered tev = false → w₁.TimersKept := fun hfree =>
    World.TimersKept.request (r := .setTimerInterval tev interval) h hfree hset
  have hflag : w₁.pump.timerRegistered = w.pump.timerRegistered := by
    obtain rfl := Option.some.inj hset
    rfl
  rcases registerTimer_cases w₁.pump tev now with ⟨code, hr⟩ | ⟨hfree, hr⟩
  · -- refused at once; the timer may be registered, or the sum be beyond the range
    cases hregistered : w.pump.timerRegistered tev with
    | true =>
      refine .inl ⟨rfl, ?_, ?_, ?_⟩
      · rw [hr]
        exact Rc.noConfusion
      · rw [hpump, hr]
        obtain rfl := Option.some.inj hset
        rfl
      · intro hsame
        have hw : w₁ = w := by
          obtain rfl := Option.some.inj hset
          rw [hsame, update_eq_self]
        exact hkept (hw ▸ h)
    | false =>
      refine .inr ⟨rfl, hkept (hkept' hregistered), fun _ => ⟨?_, ?_⟩⟩
      · rw [hpump, hr]
        obtain rfl := Option.some.inj hset
        rfl
      · intro t ht
        rw [hpump, hr]
        obtain rfl := Option.some.inj hset
        exact update_of_ne ht ..
  · rw [hflag] at hfree
    refine .inr ⟨hfree, hkept (hkept' hfree), ?_⟩
    intro hrefused
    rcases hr with ⟨ts, code, hr⟩ | ⟨ts, -, -, hr⟩
    · refine ⟨?_, ?_⟩
      · rw [hpump, hr]
        obtain rfl := Option.some.inj hset
        rfl
      · intro t ht
        rw [hpump, hr]
        dsimp only
        rw [update_of_ne ht]
        obtain rfl := Option.some.inj hset
        exact update_of_ne ht ..
    · rw [hr] at hrefused
      exact absurd rfl hrefused

/-- **One refusal.** -/
theorem rearm_spares_iff (h : w.TimersKept) (hs : w.rearm c tev interval now = some (w', rc)) :
    (rc ≠ .success → w'.pump.Sorted ∧ w'.pump.timers = w.pump.timers ∧
        ∀ t ∈ w.pump.timers, w'.pump.tspec t = w.pump.tspec t) ↔
      (w.pump.timerRegistered tev = true → interval = w.pump.tspec tev) := by
  rcases rearm_spec h hs with ⟨hregistered, hrefused, hpump, hsame⟩ | ⟨hfree, hkept, hold⟩
  · constructor
    · intro hspared _
      have htev := (hspared hrefused).2.2 tev ((h.right.mem_iff tev).2 hregistered)
      rw [hpump] at htev
      dsimp only at htev
      rwa [update_self] at htev
    · intro hgentle _
      have heq := hgentle hregistered
      refine ⟨(hsame heq).sorted, ?_, ?_⟩
      · rw [hpump]
      · intro t _
        rw [hpump, heq, update_eq_self]
  · rw [hfree]
    refine ⟨fun _ hnot => absurd hnot Bool.false_ne_true, ?_⟩
    intro _ hrefused
    obtain ⟨htimers, htspec⟩ := hold hrefused
    refine ⟨hkept.sorted, htimers, ?_⟩
    intro t ht
    apply htspec
    rintro rfl
    rw [h.right.mem_iff, hfree] at ht
    exact Bool.false_ne_true ht

theorem rearm_kept (h : w.TimersKept) (hs : w.rearm c tev interval now = some (w', rc))
    (hgentle : w.pump.timerRegistered tev = true → interval = w.pump.tspec tev) : w'.TimersKept := by
  rcases rearm_spec h hs with ⟨hregistered, -, -, hsame⟩ | ⟨-, hkept, -⟩
  · exact hsame (hgentle hregistered)
  · exact hkept

/-! ## Events -/

variable {s s' : Callbacks T F W D} {answer : Option Rc}

omit [DecidableEq F] [DecidableEq W] in
/-- Nothing was changed. -/
theorem spared_self (h : s.world.TimersKept) : Spared s s answer := fun _ => ⟨h.sorted, rfl, fun _ _ => rfl⟩

/-- **One refused call leaves the queue alone exactly if it is gentle.** -/
theorem spared_iff {e : CallbackEvent T F W D} (h : s.world.TimersKept) (hrearms : e.Rearms)
    (hs : s.call c e = some (s', answer)) : Spared s s' answer ↔ Gentle e s := by
  cases e with
  | act e => exact hrearms.elim
  | setInterval tev interval => exact hrearms.elim
  | setFunc tev func => exact hrearms.elim
  | deactivate tev => exact hrearms.elim
  | die tev => exact hrearms.elim
  | killer tev now =>
    obtain ⟨⟨world, rc⟩, hrearm, heq⟩ := Option.map_eq_some_iff.1 hs
    obtain ⟨rfl, rfl⟩ := Prod.mk.inj heq
    have hgentle : Gentle (.killer tev now) s ↔
        (s.world.pump.timerRegistered tev = true → millis reaperCheckInterval = s.world.pump.tspec tev) := Iff.rfl
    rw [hgentle, ← rearm_spares_iff h hrearm]
    unfold Spared
    rw [ne_eq, Option.some_inj]
  | activate tev now =>
    dsimp only [Callbacks.call, Callbacks.activate] at hs
    dsimp only [Gentle]
    -- what returns early arms no timer
    by_cases hdead : (s.callback tev).isDead = true
    · rw [if_pos hdead] at hs
      obtain ⟨rfl, -⟩ := Prod.mk.inj (Option.some.inj hs)
      rw [hdead]
      exact ⟨fun _ hnot => absurd hnot.symm Bool.false_ne_true, fun _ => spared_self h⟩
    rw [if_neg hdead] at hs
    by_cases hfunc : (s.callback tev).func = false
    · rw [if_pos hfunc] at hs
      obtain ⟨rfl, -⟩ := Prod.mk.inj (Option.some.inj hs)
      rw [hfunc]
      exact ⟨fun _ _ hnot => absurd hnot Bool.false_ne_true, fun _ => spared_self h⟩
    rw [if_neg hfunc] at hs
    obtain ⟨⟨world, rc⟩, hrearm, heq⟩ := Option.map_eq_some_iff.1 hs
    obtain ⟨rfl, rfl⟩ := Prod.mk.inj heq
    have hiff := rearm_spares_iff h hrearm
    have hgentle : ((s.callback tev).isDead = false → (s.callback tev).func = true →
        s.world.pump.timerRegistered tev = true → (s.callback tev).interval = s.world.pump.tspec tev) ↔
        (s.world.pump.timerRegistered tev = true → (s.callback tev).interval = s.world.pump.tspec tev) :=
      ⟨fun hall => hall (Bool.eq_false_of_not_eq_true hdead) (Bool.eq_true_of_not_eq_false hfunc), fun hall _ _ => hall⟩
    rw [hgentle, ← hiff]
    unfold Spared
    rw [ne_eq, Option.some_inj]

theorem deactivate_kept (h : s.world.TimersKept) (hs : s.deactivate c tev = some s') : s'.world.TimersKept := by
  unfold Callbacks.deactivate at hs
  split_ifs at hs
  · obtain ⟨world, hrequest, rfl⟩ := Option.map_eq_some_iff.1 hs
    exact World.TimersKept.request (r := .unregisterTimer tev) h trivial hrequest
  · obtain rfl := Option.some.inj hs
    exact h

/-- **What one gentle event keeps.** -/
theorem call_kept {e : CallbackEvent T F W D} (h : s.world.TimersKept) (hgentle : Gentle e s)
    (hs : s.call c e = some (s', answer)) : s'.world.TimersKept := by
  cases e with
  | act e =>
    obtain ⟨world, hstep, heq⟩ := Option.map_eq_some_iff.1 hs
    obtain ⟨rfl, -⟩ := Prod.mk.inj heq
    exact h.step hgentle hstep
  | setInterval tev interval =>
    obtain ⟨rfl, -⟩ := Prod.mk.inj (Option.some.inj hs)
    exact h
  | setFunc tev func =>
    obtain ⟨rfl, -⟩ := Prod.mk.inj (Option.some.inj hs)
    exact h
  | deactivate tev =>
    obtain ⟨s₁, hdeactivate, heq⟩ := Option.map_eq_some_iff.1 hs
    obtain ⟨rfl, -⟩ := Prod.mk.inj heq
    exact deactivate_kept h hdeactivate
  | die tev =>
    obtain ⟨s₁, hdie, heq⟩ := Option.map_eq_some_iff.1 hs
    obtain ⟨rfl, -⟩ := Prod.mk.inj heq
    unfold Callbacks.die at hdie
    split_ifs at hdie
    · obtain rfl := Option.some.inj hdie
      exact h
    · obtain ⟨s₂, hdeactivate, rfl⟩ := Option.map_eq_some_iff.1 hdie
      have hkept := deactivate_kept h hdeactivate
      exact hkept
  | killer tev now =>
    obtain ⟨⟨world, rc⟩, hrearm, heq⟩ := Option.map_eq_some_iff.1 hs
    obtain ⟨rfl, -⟩ := Prod.mk.inj heq
    exact rearm_kept h hrearm hgentle
  | activate tev now =>
    dsimp only [Callbacks.call, Callbacks.activate] at hs
    split_ifs at hs with hdead hfunc
    · obtain ⟨rfl, -⟩ := Prod.mk.inj (Option.some.inj hs)
      exact h
    · obtain ⟨rfl, -⟩ := Prod.mk.inj (Option.some.inj hs)
      exact h
    · obtain ⟨⟨world, rc⟩, hrearm, heq⟩ := Option.map_eq_some_iff.1 hs
      obtain ⟨rfl, -⟩ := Prod.mk.inj heq
      exact rearm_kept h hrearm (hgentle (Bool.eq_false_of_not_eq_true hdead) (Bool.eq_true_of_not_eq_false hfunc))

/-- **In every state of a run whose events are gentle** the queue is sorted, and a call that is refused there leaves it
alone exactly if it is gentle too. -/
theorem refused_spared_iff (c : Client F W) (tspec interval : T → Timespec) {s : Callbacks T F W D}
    (h : Reaches (Callbacks.step c) Gentle (Callbacks.new tspec interval) s) :
    s.world.pump.Sorted ∧ ∀ e s' answer, e.Rearms → s.call c e = some (s', answer) →
      (Spared s s' answer ↔ Gentle e s) := by
  have hkept : s.world.TimersKept := by
    refine h.invariant (I := fun s : Callbacks T F W D => s.world.TimersKept) ?_ (World.TimersKept.new tspec)
    intro e s s' hk hgentle hs
    obtain ⟨⟨s₁, answer⟩, hcall, rfl⟩ := Option.map_eq_some_iff.1 hs
    exact call_kept hk hgentle hcall
  refine ⟨hkept.sorted, ?_⟩
  intro e s' answer hrearms hs
  exact spared_iff hkept hrearms hs

/-- No callback has been activated; their interval is five seconds. -/
def fiveSeconds : Callbacks Bool Unit Unit Unit := Callbacks.new (fun _ => seconds 0) fun _ => seconds 5

/-- A callback is activated at 100 seconds, and a process is looked at. -/
def activated : List (CallbackEvent Bool Unit Unit Unit) :=
  [.setFunc false true, .activate false (seconds 100), .killer true (seconds 100)]

theorem refused_spared_iff_activated : ∃ s, Reaches (Callbacks.step oneClient) Gentle fiveSeconds s ∧
    s.world.pump.timers = [true, false] ∧ s.world.pump.Sorted ∧ ∀ e s' answer, e.Rearms →
      s.call oneClient e = some (s', answer) → (Spared s s' answer ↔ Gentle e s) := by
  obtain ⟨s, hreach, htimers⟩ : ∃ s, Reaches (Callbacks.step oneClient) Gentle fiveSeconds s ∧
      s.world.pump.timers = [true, false] := exists_of_checked activated (by decide +kernel)
  exact ⟨s, hreach, htimers, refused_spared_iff oneClient _ _ hreach⟩

/-- The refused call does not spare the queue. -/
def Callbacks.harmed (e : CallbackEvent Bool Unit Unit Unit) (s : Callbacks Bool Unit Unit Unit) : Bool :=
  match s.call oneClient e with
  | none => false
  | some (s', answer) => ¬Spared s s' answer

/-- **The time of a registered timer is lost**: activated again, the callback expires at 5 seconds instead of 105, and
is behind the timer of the process in the queue. If the killer is early, that one expires at 0.1 seconds instead of
100.1. -/
theorem refused_not_spared : ∃ s, Reaches (Callbacks.step oneClient) Free fiveSeconds s ∧
    (∃ s' answer, s.call oneClient (.activate false (seconds 101)) = some (s', answer) ∧ ¬Spared s s' answer) ∧
    ∃ s' answer, s.call oneClient (.killer true (seconds 101)) = some (s', answer) ∧ ¬Spared s s' answer := by
  have hharmed : ∀ e (s : Callbacks Bool Unit Unit Unit), s.harmed e = true →
      ∃ s' answer, s.call oneClient e = some (s', answer) ∧ ¬Spared s s' answer := by
    intro e s h
    unfold Callbacks.harmed at h
    split at h
    · cases h
    · next s' answer heq => exact ⟨s', answer, heq, of_decide_eq_true h⟩
  obtain ⟨s, hreach, hactivate, hkill⟩ : ∃ s, Reaches (Callbacks.step oneClient) Free fiveSeconds s ∧
      (s.harmed (.activate false (seconds 101)) = true ∧ s.harmed (.killer true (seconds 101)) = true) :=
    exists_of_events activated (by decide +kernel)
  exact ⟨s, hreach, hharmed _ s hactivate, hharmed _ s hkill⟩

end Libtarp.Event
