import Libtarp.Event.PumpRuns
import Mathlib.Data.List.Nodup

/-!
# Runs of the event pump: timers

The registrations are numbered in the order in which they are made, and each has a time of expiration: the time
of the call and the interval.

* `World.TimersRight`: the queue is sorted, the flags tell what is in it, and callbacks ran once, in time and in
  order.
* `timersRight_of_kept`: it holds in every run in which the interval of a registered timer is not changed.
-/

namespace Libtarp.Event

open Function Lib

variable {T F W D : Type}

/-- The registration `n` expires before `m`, or at the same time and was made before it. -/
def History.Before (h : History T) (n m : ℕ) : Prop :=
  h.expiration n < h.expiration m ∨ h.expiration n = h.expiration m ∧ n < m

/-- The queue, the flags and the callbacks that ran. -/
structure World.TimersRight [DecidableEq T] (s : World T F W D) : Prop where
  sorted : s.pump.timers.Pairwise fun t t' => s.history.Before (s.history.current t) (s.history.current t')
  expiration : ∀ t ∈ s.pump.timers, (s.pump.tspec t).value = s.history.expiration (s.history.current t)
  flag : ∀ t, s.pump.timers.count t = (s.pump.timerRegistered t).toNat
  once : (s.history.runs.map Run.number).Nodup
  notEarly : ∀ r ∈ s.history.runs, s.history.expiration r.number ≤ r.clock
  notCancelled : ∀ r ∈ s.history.runs, r.number ∉ s.history.cancelled
  /-- Of a registration that there was already, the callback runs in its turn. -/
  inOrder : s.history.runs.Pairwise fun r r' => r'.number < r.count → s.history.Before r.number r'.number

/-- The interval of a timer is not changed while it is registered. -/
def IntervalsKept (e : Action T F W D) (s : World T F W D) : Prop :=
  match e with
  | .request (.setTimerInterval tev _) => s.pump.timerRegistered tev = false
  | _ => True

instance (e : Action T F W D) (s : World T F W D) : Decidable (IntervalsKept e s) :=
  match e with
  | .request (.setTimerInterval ..) => instDecidableEqBool ..
  | .request (.registerTimer ..) | .request (.unregisterTimer ..) | .request (.registerFdmon ..)
  | .request (.unregisterFdmon ..) | .request (.registerUevWatch ..) | .request (.unregisterUevWatch ..)
  | .pushUev .. | .pump .. | .dispatch | .ret => .isTrue trivial

/-! ## The place in the queue -/

/-- A timer is put after those that do not expire later, in front of the first that does. -/
theorem insertTimer_spec (later : T → Bool) (tev : T) (timers : List T) :
    ∃ before after, timers = before ++ after ∧ insertTimer later tev timers = before ++ tev :: after ∧
      (∀ t ∈ before, later t = false) ∧ ∀ t ∈ after.head?, later t = true := by
  induction timers with
  | nil => exact ⟨[], [], rfl, rfl, nofun, nofun⟩
  | cons timer timers ih =>
    unfold insertTimer
    split_ifs with hlater
    · refine ⟨[], timer :: timers, rfl, rfl, nofun, fun t ht => ?_⟩
      obtain rfl := Option.some.inj ht
      exact hlater
    · obtain ⟨before, after, htimers, hinsert, hbefore, hafter⟩ := ih
      refine ⟨timer :: before, after, by rw [htimers, List.cons_append], by rw [hinsert, List.cons_append], ?_, hafter⟩
      rintro t (_ | ⟨_, ht⟩)
      · exact Bool.eq_false_iff.2 hlater
      · exact hbefore t ht

theorem History.Before.ne {h : History T} {n m : ℕ} (hnm : h.Before n m) : n ≠ m := by
  rintro rfl
  unfold History.Before at hnm
  omega

/-! ## The invariant -/

variable [DecidableEq T]

/-- The order of the earlier registrations stays. -/
theorem History.register_before {h : History T} {tev : T} {expiration : ℤ} {n m : ℕ} (hn : n < h.count)
    (hm : m < h.count) : (h.register tev expiration).Before n m ↔ h.Before n m := by
  unfold History.Before History.register
  dsimp only
  rw [update_of_ne hn.ne, update_of_ne hm.ne]

/-- What is known of the registrations that are pending and of those that are over. -/
structure World.TimersKept (s : World T F W D) : Prop where
  right : s.TimersRight
  pending : ∀ t ∈ s.pump.timers, s.history.current t < s.history.count ∧
    s.history.current t ∉ s.history.runs.map Run.number ∧ s.history.current t ∉ s.history.cancelled
  past : ∀ r ∈ s.history.runs, r.number < s.history.count ∧ r.count ≤ s.history.count
  cancelled : ∀ n ∈ s.history.cancelled, n < s.history.count
  ahead : ∀ r ∈ s.history.runs, ∀ t ∈ s.pump.timers,
    s.history.current t < r.count → s.history.Before r.number (s.history.current t)
  clock : 0 ≤ s.clock.value
  now : ∀ now, s.phase = .timers now → now.value ≤ s.clock.value

theorem World.TimersKept.new (tspec : T → Timespec) : (World.new tspec : World T F W D).TimersKept where
  right := ⟨List.Pairwise.nil, nofun, fun _ => rfl, List.nodup_nil, nofun, nofun, List.Pairwise.nil⟩
  pending := nofun
  past := nofun
  cancelled := nofun
  ahead := nofun
  clock := by
    have hzero : (0 : ℤ) ≤ Int64.toInt 0 * nsecsPerSec + (0 : ℕ) := by decide
    exact hzero
  now := nofun

/-- Steps that leave the timers alone, with the clock going on. -/
theorem World.TimersKept.of_eq {s s' : World T F W D} (h : s.TimersKept) (htimers : s'.pump.timers = s.pump.timers)
    (htspec : ∀ t ∈ s.pump.timers, s'.pump.tspec t = s.pump.tspec t)
    (hregistered : s'.pump.timerRegistered = s.pump.timerRegistered) (hhistory : s'.history = s.history)
    (hclock : s.clock.value ≤ s'.clock.value)
    (hnow : ∀ now, s'.phase = .timers now → s.phase = .timers now ∨ now.value ≤ s'.clock.value) : s'.TimersKept where
  right := by
    have hr := h.right
    constructor
    · rw [htimers, hhistory]; exact hr.sorted
    · rw [htimers, hhistory]
      intro t ht
      rw [htspec t ht]
      exact hr.expiration t ht
    · rw [htimers, hregistered]; exact hr.flag
    · rw [hhistory]; exact hr.once
    · rw [hhistory]; exact hr.notEarly
    · rw [hhistory]; exact hr.notCancelled
    · rw [hhistory]; exact hr.inOrder
  pending := by rw [htimers, hhistory]; exact h.pending
  past := by rw [hhistory]; exact h.past
  cancelled := by rw [hhistory]; exact h.cancelled
  ahead := by rw [htimers, hhistory]; exact h.ahead
  clock := h.clock.trans hclock
  now now hphase := by
    rcases hnow now hphase with hold | hnew
    · exact (h.now now hold).trans hclock
    · exact hnew

/-- A timer is in the queue where its flag says so. -/
theorem World.TimersRight.mem_iff {s : World T F W D} (h : s.TimersRight) (t : T) :
    t ∈ s.pump.timers ↔ s.pump.timerRegistered t = true := by
  have hflag := h.flag t
  rw [← List.count_pos_iff, hflag]
  cases s.pump.timerRegistered t <;> decide

/-- Of two timers in the queue the registrations differ. -/
theorem World.TimersRight.nodup {s : World T F W D} (h : s.TimersRight) : s.pump.timers.Nodup :=
  h.sorted.imp fun hbefore heq => hbefore.ne (congrArg s.history.current heq)

theorem World.TimersRight.current_ne {s : World T F W D} (h : s.TimersRight) {t t' : T} (ht : t ∈ s.pump.timers)
    (ht' : t' ∈ s.pump.timers) (hne : t ≠ t') : s.history.current t ≠ s.history.current t' := by
  have hnodup : (s.pump.timers.map s.history.current).Nodup := List.pairwise_map.2 (h.sorted.imp fun hbefore => hbefore.ne)
  intro heq
  exact hne (List.inj_on_of_nodup_map hnodup ht ht' heq)

/-! ## Requests -/

/-- A timer is put where its expiration belongs, as the last registration. -/
theorem World.TimersKept.insert {s : World T F W D} (h : s.TimersKept) {tev : T} {now ts : Timespec} {expiration : ℤ}
    {before after : List T} (hfree : s.pump.timerRegistered tev = false) (hnow : s.clock.value ≤ now.value)
    (hts : ts.value = expiration) (htimers : s.pump.timers = before ++ after)
    (hbefore : ∀ t ∈ before, s.history.expiration (s.history.current t) ≤ expiration)
    (hafter : ∀ t ∈ after, expiration < s.history.expiration (s.history.current t)) :
    World.TimersKept { s with
      pump := { s.pump with
        tspec := update s.pump.tspec tev ts
        timers := before ++ tev :: after
        timerRegistered := update s.pump.timerRegistered tev true }
      clock := now
      history := s.history.register tev expiration } := by
  have hr := h.right
  have hnot : tev ∉ before ++ after := by
    rw [← htimers, hr.mem_iff, hfree]
    exact Bool.false_ne_true
  have hpending := h.pending
  have hsorted := hr.sorted
  have hflag := hr.flag
  have hahead := h.ahead
  have hexpires := hr.expiration
  rw [htimers] at hpending hsorted hflag hahead hexpires
  -- of the timers that were there, number and expiration stay
  have hne : ∀ t ∈ before ++ after, t ≠ tev := by
    rintro t ht rfl
    exact hnot ht
  have hcurrent : ∀ t ∈ before ++ after, (s.history.register tev expiration).current t = s.history.current t :=
    fun t ht => update_of_ne (hne t ht) ..
  have hexpiration : ∀ n < s.history.count, (s.history.register tev expiration).expiration n = s.history.expiration n :=
    fun n hn => update_of_ne hn.ne ..
  have hnumber : (s.history.register tev expiration).current tev = s.history.count := update_self ..
  have hself : (s.history.register tev expiration).expiration s.history.count = expiration := update_self ..
  have hmembers : ∀ t, t ∈ before ++ tev :: after → t = tev ∨ t ∈ before ++ after := by
    intro t ht
    simp only [List.mem_append, List.mem_cons] at ht ⊢
    tauto
  refine ⟨⟨?_, ?_, ?_, hr.once, ?_, hr.notCancelled, ?_⟩, ?_, ?_, ?_, ?_, h.clock.trans hnow, ?_⟩
  · -- the new one comes last among equals
    have hold : (before ++ after).Pairwise fun t t' => (s.history.register tev expiration).Before
        ((s.history.register tev expiration).current t) ((s.history.register tev expiration).current t') := by
      refine hsorted.imp_of_mem fun {t t'} ht ht' hb => ?_
      rw [hcurrent t ht, hcurrent t' ht']
      exact (History.register_before (hpending t ht).1 (hpending t' ht').1).2 hb
    rw [List.pairwise_append] at hold
    refine List.pairwise_append.2 ⟨hold.1, List.pairwise_cons.2 ⟨fun t ht => ?_, hold.2.1⟩, fun t ht t' ht' => ?_⟩
    · have hmem := List.mem_append_right before ht
      rw [hcurrent t hmem, hnumber]
      refine Or.inl ?_
      rw [hself, hexpiration _ (hpending t hmem).1]
      exact hafter t ht
    · have hmem := List.mem_append_left after ht
      rcases List.mem_cons.1 ht' with rfl | ht'
      · rw [hcurrent t hmem, hnumber]
        unfold History.Before
        rw [hself, hexpiration _ (hpending t hmem).1]
        have hle := hbefore t ht
        have hlt := (hpending t hmem).1
        omega
      · exact hold.2.2 t ht t' ht'
  · intro t ht
    dsimp only at ht ⊢
    rcases hmembers t ht with rfl | hmem
    · rw [hnumber, hself, update_self, hts]
    · rw [hcurrent t hmem, hexpiration _ (hpending t hmem).1, update_of_ne (hne t hmem)]
      exact hexpires t hmem
  · intro t
    dsimp only
    have hcount := hflag t
    rw [List.count_append] at hcount ⊢
    by_cases ht : t = tev
    · subst ht
      rw [hfree, Bool.toNat_false] at hcount
      rw [update_self, List.count_cons_self, Bool.toNat_true]
      omega
    · rw [update_of_ne ht, List.count_cons_of_ne (Ne.symm ht)]
      exact hcount
  · intro r hmem
    rw [hexpiration _ (h.past r hmem).1]
    exact hr.notEarly r hmem
  · refine hr.inOrder.imp_of_mem fun {r r'} hr₁ hr₂ hb hlt => ?_
    exact (History.register_before (h.past r hr₁).1 (h.past r' hr₂).1).2 (hb hlt)
  · intro t ht
    rcases hmembers t ht with rfl | hmem
    · rw [hnumber]
      refine ⟨Nat.lt_succ_self _, fun hrun => ?_, fun hcancelled => (h.cancelled _ hcancelled).false⟩
      obtain ⟨r, hmem, hr⟩ := List.mem_map.1 hrun
      exact (h.past r hmem).1.ne hr
    · rw [hcurrent t hmem]
      exact ⟨(hpending t hmem).1.trans (Nat.lt_succ_self _), (hpending t hmem).2⟩
  · intro r hmem
    exact ⟨(h.past r hmem).1.trans (Nat.lt_succ_self _), (h.past r hmem).2.trans (Nat.le_succ _)⟩
  · intro n hn
    exact (h.cancelled n hn).trans (Nat.lt_succ_self _)
  · intro r hrun t ht hlt
    rcases hmembers t ht with rfl | hmem
    · rw [hnumber] at hlt
      exact absurd hlt (h.past r hrun).2.not_gt
    · rw [hcurrent t hmem] at hlt ⊢
      exact (History.register_before (h.past r hrun).1 (hpending t hmem).1).2 (hahead r hrun t hmem hlt)
  · intro now' hphase
    exact (h.now now' hphase).trans hnow

/-- `Evp_register_timer` fails and leaves the queue alone, or puts the timer in its place. -/
theorem registerTimer_cases (s : Pump T F W D) (tev : T) (now : Timespec) :
    (∃ code, registerTimer s tev now = (s, .error code)) ∨
    s.timerRegistered tev = false ∧
      ((∃ ts code, registerTimer s tev now = ({ s with tspec := update s.tspec tev ts }, .error code)) ∨
      ∃ ts, ts = timespecAdd now (s.tspec tev) ∧ ¬ts.sec < (s.tspec tev).sec ∧ registerTimer s tev now =
        ({ s with
            tspec := update s.tspec tev ts
            timers := insertTimer (fun timer => timespecCmp (update s.tspec tev ts timer) ts = .gt) tev s.timers
            timerRegistered := update s.timerRegistered tev true }, .success)) := by
  unfold registerTimer
  split_ifs with hregistered
  · exact .inl ⟨_, rfl⟩
  have hfree := Bool.eq_false_of_not_eq_true hregistered
  dsimp only
  split_ifs with hoverflow
  · exact .inr ⟨hfree, .inl ⟨_, _, rfl⟩⟩
  · exact .inr ⟨hfree, .inr ⟨_, rfl, hoverflow, rfl⟩⟩

theorem World.TimersKept.registerTimer {s : World T F W D} (h : s.TimersKept) {tev : T} {now : Timespec}
    (hnow : s.clock.value ≤ now.value) : World.TimersKept { s with
      pump := (registerTimer s.pump tev now).1
      clock := now
      history := if (Event.registerTimer s.pump tev now).2 = .success then
        s.history.register tev (now.value + (s.pump.tspec tev).value) else s.history } := by
  have hr := h.right
  have hne : s.pump.timerRegistered tev = false → ∀ t ∈ s.pump.timers, t ≠ tev := by
    rintro hfree t ht rfl
    rw [hr.mem_iff, hfree] at ht
    cases ht
  obtain ⟨code, heq⟩ | ⟨hfree, ⟨ts, code, heq⟩ | ⟨ts, hts, hoverflow, heq⟩⟩ := registerTimer_cases s.pump tev now
  · rw [heq, if_neg (Rc.noConfusion : Rc.error code ≠ .success)]
    exact h.of_eq rfl (fun _ _ => rfl) rfl rfl hnow (fun _ hphase => .inl hphase)
  · rw [heq, if_neg (Rc.noConfusion : Rc.error code ≠ .success)]
    exact h.of_eq rfl (fun t ht => update_of_ne (hne hfree t ht) ..) rfl rfl hnow (fun _ hphase => .inl hphase)
  rw [heq, if_pos rfl]
  -- the seconds did not wrap around
  have hnonneg : 0 ≤ now.sec.toInt := by
    have hclock := h.clock.trans hnow
    have hnsec := now.nsec_lt
    unfold Timespec.value at hclock
    unfold nsecsPerSec at hclock hnsec
    omega
  have hvalue := timespecAdd_value hnonneg (hts ▸ hoverflow)
  rw [← hts] at hvalue
  have hlater : ∀ t ∈ s.pump.timers, (timespecCmp (update s.pump.tspec tev ts t) ts = .gt ↔
      now.value + (s.pump.tspec tev).value < s.history.expiration (s.history.current t)) := by
    intro t ht
    rw [update_of_ne (hne hfree t ht), timespecCmp_spec, hvalue, hr.expiration t ht]
    split_ifs <;> simp <;> omega
  obtain ⟨before, after, htimers, hinsert, hbefore, hafter⟩ := insertTimer_spec
    (fun timer => decide (timespecCmp (update s.pump.tspec tev ts timer) ts = .gt)) tev s.pump.timers
  rw [hinsert]
  refine h.insert hfree hnow hvalue htimers (fun t ht => ?_) fun t ht => ?_
  · have hnot := of_decide_eq_false (hbefore t ht)
    rw [hlater t (htimers ▸ List.mem_append_left _ ht)] at hnot
    exact not_lt.1 hnot
  · -- the others do not expire before the first of them
    have hsorted := hr.sorted
    rw [htimers, List.pairwise_append] at hsorted
    cases after with
    | nil => cases ht
    | cons first rest =>
      have hfirst := of_decide_eq_true (hafter first rfl)
      rw [hlater first (htimers ▸ List.mem_append_right _ List.mem_cons_self)] at hfirst
      rcases List.mem_cons.1 ht with rfl | ht
      · exact hfirst
      · have hb := (List.pairwise_cons.1 hsorted.2.1).1 t ht
        unfold History.Before at hb
        omega

theorem World.TimersKept.unregisterTimer {s : World T F W D} (h : s.TimersKept) (tev : T) : World.TimersKept { s with
    pump := unregisterTimer s.pump tev
    history := if s.pump.timerRegistered tev then
      { s.history with cancelled := s.history.current tev :: s.history.cancelled } else s.history } := by
  have hr := h.right
  unfold Event.unregisterTimer
  by_cases hregistered : s.pump.timerRegistered tev = true
  · rw [if_pos hregistered, if_pos hregistered]
    have hmem := (hr.mem_iff tev).2 hregistered
    have hsub : ∀ t ∈ s.pump.timers.erase tev, t ∈ s.pump.timers := fun t ht => List.mem_of_mem_erase ht
    refine ⟨⟨?_, ?_, ?_, hr.once, hr.notEarly, ?_, hr.inOrder⟩, ?_, h.past, ?_, ?_, h.clock, h.now⟩
    · exact hr.sorted.sublist List.erase_sublist
    · exact fun t ht => hr.expiration t (hsub t ht)
    · intro t
      dsimp only
      by_cases ht : t = tev
      · subst ht
        rw [List.count_erase_self, hr.flag, hregistered, update_self]
        rfl
      · rw [List.count_erase_of_ne ht, hr.flag, update_of_ne ht]
    · intro r hrun hcancelled
      rcases List.mem_cons.1 hcancelled with heq | hold
      · refine (h.pending tev hmem).2.1 ?_
        rw [← heq]
        exact List.mem_map_of_mem hrun
      · exact hr.notCancelled r hrun hold
    · intro t ht
      obtain ⟨hlt, hrun, hcancelled⟩ := h.pending t (hsub t ht)
      refine ⟨hlt, hrun, fun hmem' => ?_⟩
      rcases List.mem_cons.1 hmem' with heq | hold
      · -- two timers in the queue have different numbers
        have hne : t ≠ tev := by
          rintro rfl
          exact hr.nodup.not_mem_erase ht
        exact absurd heq (hr.current_ne (hsub t ht) hmem hne)
      · exact hcancelled hold
    · intro n hn
      rcases List.mem_cons.1 hn with rfl | hold
      · exact (h.pending tev hmem).1
      · exact h.cancelled n hold
    · exact fun r hrun t ht => h.ahead r hrun t (hsub t ht)
  · rw [if_neg hregistered, if_neg hregistered]
    exact h

/-! ## The loop -/

/-- The first timer of the queue has expired. -/
theorem World.TimersKept.run {s : World T F W D} (h : s.TimersKept) {tev : T} {timers : List T}
    (htimers : s.pump.timers = tev :: timers) (hexpired : (s.pump.tspec tev).value ≤ s.clock.value)
    (running : Option (Callback T F W)) : World.TimersKept { s with
      pump := { s.pump with timers := timers, timerRegistered := update s.pump.timerRegistered tev false }
      running := running
      history := { s.history with
        runs := s.history.runs ++ [⟨s.history.current tev, s.clock.value, s.history.count⟩] } } := by
  have hr := h.right
  have hsorted := hr.sorted
  have hnodup := hr.nodup
  have hpending := h.pending
  have hahead := h.ahead
  have hexpires := hr.expiration
  have hflag := hr.flag
  rw [htimers] at hsorted hnodup hpending hahead hexpires hflag
  -- the timer in front is the earliest, and it runs in no other entry
  obtain ⟨hfirst, hrest⟩ := List.pairwise_cons.1 hsorted
  obtain ⟨hlt, hrun, hcancelled⟩ := hpending tev List.mem_cons_self
  refine ⟨⟨hrest, ?_, ?_, ?_, ?_, ?_, ?_⟩, ?_, ?_, h.cancelled, ?_, h.clock, h.now⟩
  · exact fun t ht => hexpires t (List.mem_cons_of_mem _ ht)
  · intro t
    dsimp only
    by_cases ht : t = tev
    · subst ht
      rw [update_self, List.count_eq_zero.2 (List.nodup_cons.1 hnodup).1]
      rfl
    · rw [update_of_ne ht, ← hflag t, List.count_cons_of_ne (Ne.symm ht)]
  · rw [List.map_append, List.map_singleton]
    exact List.nodup_append.2 ⟨hr.once, List.nodup_singleton _, by
      rintro n hn m hm rfl
      rw [List.mem_singleton.1 hm] at hn
      exact hrun hn⟩
  · rw [List.forall_mem_append]
    refine ⟨hr.notEarly, List.forall_mem_singleton.2 ?_⟩
    rw [← hexpires tev List.mem_cons_self]
    exact hexpired
  · rw [List.forall_mem_append]
    exact ⟨hr.notCancelled, List.forall_mem_singleton.2 hcancelled⟩
  · refine List.pairwise_append.2 ⟨hr.inOrder, List.pairwise_singleton .., fun r hmem => ?_⟩
    exact List.forall_mem_singleton.2 fun hnumber => hahead r hmem tev List.mem_cons_self hnumber
  · intro t ht
    obtain ⟨hlt', hrun', hcancelled'⟩ := hpending t (List.mem_cons_of_mem _ ht)
    refine ⟨hlt', ?_, hcancelled'⟩
    rw [List.map_append, List.map_singleton, List.mem_append, List.mem_singleton, not_or]
    exact ⟨hrun', (hfirst t ht).ne.symm⟩
  · rw [List.forall_mem_append]
    exact ⟨h.past, List.forall_mem_singleton.2 ⟨hlt, le_rfl⟩⟩
  · rw [List.forall_mem_append]
    exact ⟨fun r hmem t ht => hahead r hmem t (List.mem_cons_of_mem _ ht),
      List.forall_mem_singleton.2 fun t ht _ => hfirst t ht⟩

theorem World.TimersKept.dispatch {s : World T F W D} (h : s.TimersKept) : s.dispatch.TimersKept := by
  unfold World.dispatch
  split
  case h_1 => exact h
  case h_2 now hphase =>
    split
    case h_1 => exact h.of_eq rfl (fun _ _ => rfl) rfl rfl le_rfl nofun
    case h_2 tev timers htimers =>
      split_ifs with helapsed
      · refine h.run htimers ?_ _
        -- it has elapsed at the time that was read when the pump woke up
        have hnot := of_decide_eq_true helapsed
        rw [timespecCmp_spec] at hnot
        have hnow := h.now now hphase
        split_ifs at hnot <;> first
          | omega
          | exact absurd rfl hnot
      · exact h.of_eq rfl (fun _ _ => rfl) rfl rfl le_rfl nofun
  case h_3 =>
    split
    case h_1 => exact h.of_eq rfl (fun _ _ => rfl) rfl rfl le_rfl nofun
    case h_2 fdev evq hevq =>
      cases fdev with
      | sem | timerfd | client _ => exact h.of_eq rfl (fun _ _ => rfl) rfl rfl le_rfl fun _ hphase => .inl hphase
  case h_4 =>
    split
    case h_1 => exact h.of_eq rfl (fun _ _ => rfl) rfl rfl le_rfl nofun
    case h_2 =>
      dsimp only
      split <;> exact h.of_eq rfl (fun _ _ => rfl) rfl rfl le_rfl fun _ hphase => .inl hphase

variable [DecidableEq F] [DecidableEq W] {c : Client F W}

theorem World.TimersKept.request {s s' : World T F W D} {r : Request T F W} (h : s.TimersKept)
    (hkept : IntervalsKept (.request r) s) (hs : s.request c r = some s') : s'.TimersKept := by
  unfold World.request at hs
  cases r with
  | setTimerInterval tev ts =>
    obtain rfl := Option.some.inj hs
    -- the interval of a timer that is not registered is free to change
    refine h.of_eq rfl (fun t ht => update_of_ne ?_ ..) rfl rfl le_rfl fun _ hphase => .inl hphase
    rintro rfl
    have hregistered := (h.right.mem_iff t).1 ht
    rw [show s.pump.timerRegistered t = false from hkept] at hregistered
    cases hregistered
  | registerTimer tev now =>
    obtain ⟨hnow, hs⟩ := Option.ite_none_right_eq_some.1 hs
    obtain rfl := Option.some.inj hs
    exact h.registerTimer hnow
  | unregisterTimer tev =>
    obtain rfl := Option.some.inj hs
    exact h.unregisterTimer tev
  | registerFdmon fdev able =>
    obtain rfl := Option.some.inj hs
    unfold registerFdmon
    split_ifs
    all_goals exact h.of_eq rfl (fun _ _ => rfl) rfl rfl le_rfl fun _ hphase => .inl hphase
  | unregisterFdmon fdev =>
    obtain rfl := Option.some.inj hs
    unfold unregisterFdmon
    split_ifs
    all_goals exact h.of_eq rfl (fun _ _ => rfl) rfl rfl le_rfl fun _ hphase => .inl hphase
  | registerUevWatch uev =>
    obtain rfl := Option.some.inj hs
    unfold registerUevWatch
    split_ifs
    all_goals exact h.of_eq rfl (fun _ _ => rfl) rfl rfl le_rfl fun _ hphase => .inl hphase
  | unregisterUevWatch uev =>
    obtain rfl := Option.some.inj hs
    unfold unregisterUevWatch
    split_ifs
    all_goals exact h.of_eq rfl (fun _ _ => rfl) rfl rfl le_rfl fun _ hphase => .inl hphase

theorem World.TimersKept.step {e : Action T F W D} {s s' : World T F W D} (h : s.TimersKept)
    (hkept : IntervalsKept e s) (hs : World.step c e s = some s') : s'.TimersKept := by
  unfold World.step at hs
  cases e with
  | request r => exact h.request hkept (request_of_step hs)
  | pushUev eventType data =>
    obtain rfl := Option.some.inj hs
    unfold pushUev
    split_ifs
    all_goals exact h.of_eq rfl (fun _ _ => rfl) rfl rfl le_rfl fun _ hphase => .inl hphase
  | pump b now =>
    dsimp only at hs
    split at hs
    · obtain ⟨⟨-, hnow⟩, hs⟩ := Option.ite_none_right_eq_some.1 hs
      obtain rfl := Option.some.inj hs
      refine h.of_eq rfl (fun _ _ => rfl) rfl rfl hnow fun now' hphase => .inr ?_
      injection hphase with heq
      rw [heq]
    · cases hs
  | dispatch =>
    obtain ⟨-, hs⟩ := Option.ite_none_right_eq_some.1 hs
    obtain rfl := Option.some.inj hs
    exact h.dispatch
  | ret =>
    dsimp only at hs
    split at hs
    · cases hs
    all_goals
      obtain rfl := Option.some.inj hs
      exact h.of_eq rfl (fun _ _ => rfl) rfl rfl le_rfl fun _ hphase => .inl hphase

/-- **The timers are right**, in every run in which the interval of a timer is not changed while it is registered. -/
theorem timersRight_of_kept (c : Client F W) (tspec : T → Timespec) {s : World T F W D}
    (h : Reaches (World.step c) IntervalsKept (World.new tspec) s) : s.TimersRight :=
  (h.invariant (fun _ _ _ hk hc hs => hk.step hc hs) (World.TimersKept.new tspec)).right

/-- A batch with one event, of the timer of the pump. -/
def timerEvent : Batch (FdEvent Unit) where
  buff _ := { events := EPOLLIN, ptr := .timerfd }
  rc := 1
  pos := oneEvent.pos
  bound := oneEvent.bound
  distinct _ hi _ hj _ := (Nat.lt_one_iff.1 hi).trans (Nat.lt_one_iff.1 hj).symm

/-- Two timers; the one that is registered later expires first. -/
theorem timersRight_of_kept_two : ∃ s, Reaches (World.step oneClient) IntervalsKept
    (World.new (fun later : Bool => seconds (if later then 1 else 2)) : World Bool Unit Unit Unit) s ∧
      s.history.runs.map Run.number = [1, 0] ∧ s.TimersRight := by
  obtain ⟨s, hreach, hruns⟩ : ∃ s, Reaches (World.step oneClient) IntervalsKept
      (World.new (fun later : Bool => seconds (if later then 1 else 2)) : World Bool Unit Unit Unit) s ∧
        s.history.runs.map Run.number = [1, 0] :=
    exists_of_checked [.request (.registerTimer false (seconds 0)), .request (.registerTimer true (seconds 0)),
      .pump timerEvent (seconds 2), .dispatch, .ret, .dispatch] (by decide +kernel)
  exact ⟨s, hreach, hruns, timersRight_of_kept oneClient _ hreach⟩

end Libtarp.Event
