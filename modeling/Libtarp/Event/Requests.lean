import Libtarp.Event.TimerRuns

/-!
# Requests and steps of the event pump: timers and monitors

What a request registers and unregisters (`Effect`), that it keeps lists and flags in agreement (`Orderly`), and what
a step through the queues takes from them (`dispatch_cases`). Unlike `World.Kept` and `World.TimersKept`, these hold
whatever the clients do.
-/

namespace Libtarp.Event

open Function

variable {T F W D : Type} [DecidableEq T] [DecidableEq F] [DecidableEq W] {c : Client F W} {s s' : World T F W D}

/-- What a request leaves alone, and what it registers and unregisters. -/
structure Effect (r : Request T F W) (s s' : World T F W D) : Prop where
  evq : s'.pump.evq = s.pump.evq
  phase : s'.phase = s.phase
  running : s'.running = s.running
  timers : ∀ t, s'.pump.timerRegistered t = true → s.pump.timerRegistered t = true ∨ ∃ now, r = .registerTimer t now
  monitors : ∀ f, s'.pump.fdRegistered f = true → s.pump.fdRegistered f = true ∨ ∃ able, r = .registerFdmon f able
  timerGone : ∀ t, r = .unregisterTimer t → s'.pump.timerRegistered t = false
  monitorGone : ∀ f, r = .unregisterFdmon f → s'.pump.fdRegistered f = false

/-- The list of timers is what their flags say, and epoll has registered monitors only. -/
structure Orderly (c : Client F W) (s : World T F W D) : Prop where
  timers : ∀ t, s.pump.timers.count t = (s.pump.timerRegistered t).toNat
  interest : ∀ n f, s.pump.interest n = some f → s.pump.fdRegistered f = true ∧ c.fd f = n

omit [DecidableEq F] [DecidableEq W] in
theorem Orderly.new (tspec : T → Timespec) : Orderly c (World.new tspec : World T F W D) := ⟨fun _ => rfl, nofun⟩

theorem insertTimer_count (later : T → Bool) (tev t : T) (timers : List T) :
    (insertTimer later tev timers).count t = timers.count t + if tev = t then 1 else 0 := by
  obtain ⟨before, after, htimers, hinsert, -, -⟩ := insertTimer_spec later tev timers
  rw [hinsert, htimers, List.count_append, List.count_append, List.count_cons, Nat.add_assoc]
  simp only [beq_iff_eq]

/-! ## Timers -/

omit [DecidableEq F] [DecidableEq W] in
theorem registerTimer_effect (s : World T F W D) (tev : T) (now clock : Timespec) (history : History T) :
    Effect (.registerTimer tev now) s { s with pump := (registerTimer s.pump tev now).1, clock := clock, history := history } ∧
      (Orderly c s →
        Orderly c { s with pump := (registerTimer s.pump tev now).1, clock := clock, history := history }) := by
  rcases registerTimer_cases s.pump tev now with ⟨code, h⟩ | ⟨hfree, ⟨ts, code, h⟩ | ⟨ts, -, -, h⟩⟩
  · rw [h]
    exact ⟨⟨rfl, rfl, rfl, fun _ => .inl, fun _ => .inl, nofun, nofun⟩, fun ho => ⟨ho.timers, ho.interest⟩⟩
  · rw [h]
    exact ⟨⟨rfl, rfl, rfl, fun _ => .inl, fun _ => .inl, nofun, nofun⟩, fun ho => ⟨ho.timers, ho.interest⟩⟩
  · rw [h]
    refine ⟨⟨rfl, rfl, rfl, fun t ht => ?_, fun _ => .inl, nofun, nofun⟩, fun ho => ⟨fun t => ?_, ho.interest⟩⟩
    · by_cases htev : t = tev
      · exact .inr ⟨now, htev ▸ rfl⟩
      · dsimp only at ht
        rw [update_of_ne htev] at ht
        exact .inl ht
    · dsimp only
      rw [insertTimer_count, ho.timers]
      by_cases htev : t = tev
      · rw [htev, if_pos rfl, update_self, hfree]
        rfl
      · rw [if_neg (Ne.symm htev), update_of_ne htev]
        rfl

omit [DecidableEq F] [DecidableEq W] in
theorem unregisterTimer_effect (s : World T F W D) (tev : T) (history : History T) :
    Effect (.unregisterTimer tev) s { s with pump := unregisterTimer s.pump tev, history := history } ∧
      (Orderly c s → Orderly c { s with pump := unregisterTimer s.pump tev, history := history }) := by
  unfold unregisterTimer
  by_cases hregistered : s.pump.timerRegistered tev = true
  · rw [if_pos hregistered]
    refine ⟨⟨rfl, rfl, rfl, fun t ht => ?_, fun _ => .inl, fun t ht => ?_, nofun⟩, fun ho => ⟨fun t => ?_, ho.interest⟩⟩
    · by_cases htev : t = tev
      · rw [htev]
        exact .inl hregistered
      · dsimp only at ht
        rw [update_of_ne htev] at ht
        exact .inl ht
    · obtain rfl := Request.unregisterTimer.inj ht
      exact update_self ..
    · dsimp only
      by_cases htev : t = tev
      · rw [htev, List.count_erase_self, ho.timers, hregistered, update_self]
        rfl
      · rw [List.count_erase_of_ne htev, ho.timers, update_of_ne htev]
  · rw [if_neg hregistered]
    refine ⟨⟨rfl, rfl, rfl, fun _ => .inl, fun _ => .inl, fun t ht => ?_, nofun⟩, fun ho => ⟨ho.timers, ho.interest⟩⟩
    obtain rfl := Request.unregisterTimer.inj ht
    exact Bool.eq_false_of_not_eq_true hregistered

/-! ## Monitors -/

omit [DecidableEq W] in
/-- The interest in another descriptor. -/
theorem Orderly.interest_of_ne {s : World T F W D} (h : Orderly c s) {n : ℕ} {f fdev : F} (hn : n ≠ c.fd fdev)
    (hf : s.pump.interest n = some f) (registered : Bool) :
    update s.pump.fdRegistered fdev registered f = true ∧ c.fd f = n := by
  obtain ⟨hold, hfd⟩ := h.interest n f hf
  have hne : f ≠ fdev := by
    rintro rfl
    exact hn hfd.symm
  rw [update_of_ne hne]
  exact ⟨hold, hfd⟩

omit [DecidableEq W] in
theorem registerFdmon_effect (s : World T F W D) (fdev : F) (able : Bool) :
    Effect (.registerFdmon fdev able) s { s with pump := (registerFdmon c s.pump fdev able).1 } ∧
      (Orderly c s → Orderly c { s with pump := (registerFdmon c s.pump fdev able).1 }) := by
  unfold registerFdmon
  split_ifs with hregistered hable
  · exact ⟨⟨rfl, rfl, rfl, fun _ => .inl, fun _ => .inl, nofun, nofun⟩, id⟩
  · refine ⟨⟨rfl, rfl, rfl, fun _ => .inl, fun f hf => ?_, nofun, nofun⟩, fun ho => ⟨ho.timers, fun n f hf => ?_⟩⟩
    · by_cases hfdev : f = fdev
      · exact .inr ⟨able, hfdev ▸ rfl⟩
      · dsimp only at hf
        rw [update_of_ne hfdev] at hf
        exact .inl hf
    · dsimp only at hf ⊢
      by_cases hn : n = c.fd fdev
      · rw [hn, update_self] at hf
        obtain rfl := Option.some.inj hf
        exact ⟨update_self .., hn.symm⟩
      · rw [update_of_ne hn] at hf
        exact ho.interest_of_ne hn hf _
  · exact ⟨⟨rfl, rfl, rfl, fun _ => .inl, fun _ => .inl, nofun, nofun⟩, id⟩

omit [DecidableEq W] in
theorem unregisterFdmon_effect (s : World T F W D) (fdev : F) :
    Effect (.unregisterFdmon fdev) s { s with pump := unregisterFdmon c s.pump fdev } ∧
      (Orderly c s → Orderly c { s with pump := unregisterFdmon c s.pump fdev }) := by
  unfold unregisterFdmon
  by_cases hregistered : s.pump.fdRegistered fdev = true
  · rw [if_pos hregistered]
    refine ⟨⟨rfl, rfl, rfl, fun _ => .inl, fun f hf => ?_, nofun, fun f hf => ?_⟩,
      fun ho => ⟨ho.timers, fun n f hf => ?_⟩⟩
    · by_cases hfdev : f = fdev
      · rw [hfdev]
        exact .inl hregistered
      · dsimp only at hf
        rw [update_of_ne hfdev] at hf
        exact .inl hf
    · obtain rfl := Request.unregisterFdmon.inj hf
      exact update_self ..
    · dsimp only at hf ⊢
      by_cases hn : n = c.fd fdev
      · rw [hn, update_self] at hf
        cases hf
      · rw [update_of_ne hn] at hf
        exact ho.interest_of_ne hn hf _
  · rw [if_neg hregistered]
    refine ⟨⟨rfl, rfl, rfl, fun _ => .inl, fun _ => .inl, nofun, fun f hf => ?_⟩, id⟩
    obtain rfl := Request.unregisterFdmon.inj hf
    exact Bool.eq_false_of_not_eq_true hregistered

/-! ## Requests and steps -/

/-- **A request.** -/
theorem request_effect {r : Request T F W} (hs : s.request c r = some s') :
    Effect r s s' ∧ (Orderly c s → Orderly c s') := by
  unfold World.request at hs
  cases r with
  | setTimerInterval tev ts =>
    obtain rfl := Option.some.inj hs
    exact ⟨⟨rfl, rfl, rfl, fun _ => .inl, fun _ => .inl, nofun, nofun⟩, fun ho => ⟨ho.timers, ho.interest⟩⟩
  | registerTimer tev now =>
    dsimp only at hs
    by_cases hclock : s.clock.value ≤ now.value
    · rw [if_pos hclock] at hs
      obtain rfl := Option.some.inj hs
      exact registerTimer_effect s tev now now _
    · rw [if_neg hclock] at hs
      cases hs
  | unregisterTimer tev =>
    obtain rfl := Option.some.inj hs
    exact unregisterTimer_effect s tev _
  | registerFdmon fdev able =>
    obtain rfl := Option.some.inj hs
    exact registerFdmon_effect s fdev able
  | unregisterFdmon fdev =>
    obtain rfl := Option.some.inj hs
    exact unregisterFdmon_effect s fdev
  | registerUevWatch uev =>
    obtain rfl := Option.some.inj hs
    unfold registerUevWatch
    split_ifs
    all_goals
      exact ⟨⟨rfl, rfl, rfl, fun _ => .inl, fun _ => .inl, nofun, nofun⟩, fun ho => ⟨ho.timers, ho.interest⟩⟩
  | unregisterUevWatch uev =>
    obtain rfl := Option.some.inj hs
    unfold unregisterUevWatch
    split_ifs
    all_goals
      exact ⟨⟨rfl, rfl, rfl, fun _ => .inl, fun _ => .inl, nofun, nofun⟩, fun ho => ⟨ho.timers, ho.interest⟩⟩

/-- The timer that runs next. -/
def World.nextTimer (s : World T F W D) : Option T :=
  match s.phase, s.running, s.pump.timers with
  | .timers now, none, tev :: _ => if elapsed (s.pump.tspec tev) now then some tev else none
  | _, _, _ => none

omit [DecidableEq F] [DecidableEq W] in
/-- **A step through the queues** calls a timer that was registered, or a monitor that had an event queued, or no
callback of either kind. -/
theorem dispatch_cases (ho : Orderly c s) (hfree : s.running = none) :
    Orderly c s.dispatch ∧ s.dispatch.pump.fdRegistered = s.pump.fdRegistered ∧
      ((∃ tev, s.nextTimer = some tev ∧ s.dispatch.running = some (.timer tev) ∧ s.pump.timerRegistered tev = true ∧
        s.dispatch.pump.timerRegistered = update s.pump.timerRegistered tev false ∧
        s.dispatch.pump.evq = s.pump.evq) ∨
      s.dispatch.pump.timerRegistered = s.pump.timerRegistered ∧
        (∀ fdev ∈ s.dispatch.pump.evq, fdev ∈ s.pump.evq) ∧
        ((∃ f, s.dispatch.running = some (.fd f) ∧ .client f ∈ s.pump.evq) ∨
          ∀ callback, s.dispatch.running = some callback → ∃ uev, callback = .watch uev)) := by
  have hidle : ∀ callback, s.running = some callback → ∃ uev, callback = .watch uev := by
    rw [hfree]
    exact nofun
  unfold World.dispatch World.nextTimer
  cases hphase : s.phase with
  | waiting => exact ⟨ho, rfl, .inr ⟨rfl, fun _ h => h, .inr hidle⟩⟩
  | timers now =>
    dsimp only
    rw [hfree]
    cases htimers : s.pump.timers with
    | nil => exact ⟨⟨ho.timers, ho.interest⟩, rfl, .inr ⟨rfl, fun _ h => h, .inr nofun⟩⟩
    | cons tev timers =>
      dsimp only
      by_cases helapsed : elapsed (s.pump.tspec tev) now = true
      · rw [if_pos helapsed, if_pos helapsed]
        have hlisted := ho.timers
        rw [htimers] at hlisted
        have hone := hlisted tev
        rw [List.count_cons_self] at hone
        -- it is listed, so it is listed once, and registered
        have hregistered : s.pump.timerRegistered tev = true := by
          cases h : s.pump.timerRegistered tev with
          | true => rfl
          | false =>
            rw [h] at hone
            exact absurd hone (Nat.succ_ne_zero _)
        refine ⟨⟨fun t => ?_, ho.interest⟩, rfl, .inl ⟨tev, rfl, rfl, hregistered, rfl, rfl⟩⟩
        dsimp only
        by_cases htev : t = tev
        · rw [htev, update_self]
          rw [hregistered] at hone
          exact Nat.succ.inj hone
        · rw [update_of_ne htev, ← hlisted t, List.count_cons_of_ne (Ne.symm htev)]
      · rw [if_neg helapsed]
        exact ⟨⟨ho.timers, ho.interest⟩, rfl, .inr ⟨rfl, fun _ h => h, .inr nofun⟩⟩
  | osEvents =>
    dsimp only
    cases hevq : s.pump.evq with
    | nil => exact ⟨⟨ho.timers, ho.interest⟩, rfl, .inr ⟨rfl, fun _ h => hevq ▸ h, .inr hidle⟩⟩
    | cons fdev evq =>
      have hsub : ∀ fdev' ∈ evq, fdev' ∈ fdev :: evq := fun _ => List.mem_cons_of_mem _
      cases fdev with
      | sem => exact ⟨⟨ho.timers, ho.interest⟩, rfl, .inr ⟨rfl, hsub, .inr hidle⟩⟩
      | timerfd => exact ⟨⟨ho.timers, ho.interest⟩, rfl, .inr ⟨rfl, hsub, .inr hidle⟩⟩
      | client f =>
        exact ⟨⟨ho.timers, ho.interest⟩, rfl, .inr ⟨rfl, hsub, .inl ⟨f, rfl, List.mem_cons_self ..⟩⟩⟩
  | userEvents =>
    dsimp only
    split
    · exact ⟨⟨ho.timers, ho.interest⟩, rfl, .inr ⟨rfl, fun _ h => h, .inr hidle⟩⟩
    · split
      · exact ⟨⟨ho.timers, ho.interest⟩, rfl, .inr ⟨rfl, fun _ h => h, .inr hidle⟩⟩
      · refine ⟨⟨ho.timers, ho.interest⟩, rfl, .inr ⟨rfl, fun _ h => h, .inr fun _ h => ?_⟩⟩
        obtain rfl := Option.some.inj h
        exact ⟨_, rfl⟩

end Libtarp.Event
