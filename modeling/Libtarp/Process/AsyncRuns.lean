import Libtarp.Event.Requests
import Libtarp.Process.Async

/-!
# Runs of asynchronous processes

The reaper unregisters the monitors of a process, but an event of one of them may be in the queue of the pump by
then. And a process that does not exit at once when its object is destroyed keeps its timers, with the object gone.

* `Contract`: completion comes once and last, and nothing comes after the object was destroyed.
* `Tidy`: the condition under which it holds in every run (`contract_of_tidy`).
* `output_after_completion`: a run in which output is delivered after completion.
-/

namespace Libtarp.Process

open Function Lib Event

variable {O W D : Type}

/-- The callbacks so far are as they should be. -/
structure Async.Contract (s : Async O W D) : Prop where
  once : ∀ p, s.deliveries.countP (fun d => d.process = p ∧ d.callback = .completion) ≤ 1
  last : s.deliveries.Pairwise fun d d' => d.callback = .completion → d'.process ≠ d.process
  alive : ∀ d ∈ s.deliveries, d.destroyed = false

/-- The process whose monitor has an event. -/
def process? : FdEvent (ℕ × Stream) → Option ℕ
  | .client f => some f.1
  | _ => none

/-- What `waitpid` reports in the step, if it is called. -/
def Act.exited : Act O D → Option ℤ
  | .stop _ exited _ | .destroy _ exited _ | .dispatch exited _ => exited
  | _ => none

/-- The process that the step waits for. -/
def Async.waitsFor (e : Act O D) (s : Async O W D) : Option ℕ :=
  match e with
  | .dispatch .. => s.world.nextTimer.map ProcessTimer.process
  | .stop o .. | .destroy o .. => if (s.object o).running then (s.object o).rawPstate else none
  | _ => none

/-- A process that is reaped has no event queued, an object is destroyed only if its process has been reaped or is
reaped then, and the entries that are read of a batch are of registered monitors. -/
def Tidy (c : Client (ℕ × Stream) W) (e : Act O D) (s : Async O W D) : Prop :=
  (e.exited ≠ none → ∀ p ∈ s.waitsFor e, ∀ fdev ∈ s.world.pump.evq, process? fdev ≠ some p) ∧
    match e with
    | .destroy o exited _ => (s.object o).running = true → exited ≠ none
    | .pump b _ => ∀ i < b.rc, s.world.pump.Watches c (b.buff (entryIdx i)).ptr
    | _ => True

instance (c : Client (ℕ × Stream) W) (e : Act O D) (s : Async O W D) : Decidable (Tidy c e s) :=
  match e with
  | .destroy .. | .pump .. | .run .. | .stop .. | .dispatch .. | .ret => instDecidableAnd

/-! ## Requests -/

section Requests

variable [DecidableEq W] {c : Client (ℕ × Stream) W} {w w' : World ProcessTimer (ℕ × Stream) W D}
  {rs : List (Request ProcessTimer (ℕ × Stream) W)}

/-- **Requests one after the other.** What is registered was so before or is registered by one of them. -/
theorem requests_effect (h : requests c rs w = some w') :
    w'.pump.evq = w.pump.evq ∧ (Orderly c w → Orderly c w') ∧
      (∀ t, w'.pump.timerRegistered t = true →
        w.pump.timerRegistered t = true ∨ ∃ now, .registerTimer t now ∈ rs) ∧
      ∀ f, w'.pump.fdRegistered f = true → w.pump.fdRegistered f = true ∨ ∃ able, .registerFdmon f able ∈ rs := by
  induction rs generalizing w with
  | nil =>
    obtain rfl := Option.some.inj h
    exact ⟨rfl, id, fun _ => .inl, fun _ => .inl⟩
  | cons r rs ih =>
    obtain ⟨w₁, hr, hrs⟩ := Option.bind_eq_some_iff.1 h
    obtain ⟨he, horderly⟩ := request_effect hr
    obtain ⟨hevq, horderly', htimers, hmonitors⟩ := ih hrs
    refine ⟨hevq.trans he.evq, fun ho => horderly' (horderly ho), fun t ht => ?_, fun f hf => ?_⟩
    · rcases htimers t ht with hold | ⟨now, hmem⟩
      · rcases he.timers t hold with hbefore | ⟨now, rfl⟩
        · exact .inl hbefore
        · exact .inr ⟨now, List.mem_cons_self ..⟩
      · exact .inr ⟨now, List.mem_cons_of_mem _ hmem⟩
    · rcases hmonitors f hf with hold | ⟨able, hmem⟩
      · rcases he.monitors f hold with hbefore | ⟨able, rfl⟩
        · exact .inl hbefore
        · exact .inr ⟨able, List.mem_cons_self ..⟩
      · exact .inr ⟨able, List.mem_cons_of_mem _ hmem⟩

/-- What is unregistered, and not registered again, is so no more. -/
theorem requests_gone (h : requests c rs w = some w') :
    (∀ t, .unregisterTimer t ∈ rs → (∀ now, .registerTimer t now ∉ rs) → w'.pump.timerRegistered t = false) ∧
      ∀ f, .unregisterFdmon f ∈ rs → (∀ able, .registerFdmon f able ∉ rs) → w'.pump.fdRegistered f = false := by
  induction rs generalizing w with
  | nil => exact ⟨nofun, nofun⟩
  | cons r rs ih =>
    obtain ⟨w₁, hr, hrs⟩ := Option.bind_eq_some_iff.1 h
    obtain ⟨he, -⟩ := request_effect hr
    obtain ⟨-, -, htimers, hmonitors⟩ := requests_effect hrs
    refine ⟨fun t ht hnone => ?_, fun f hf hnone => ?_⟩
    · have hnone' : ∀ now, .registerTimer t now ∉ rs := fun now hmem => hnone now (List.mem_cons_of_mem _ hmem)
      rcases List.mem_cons.1 ht with hfirst | hrest
      · by_contra hregistered
        rcases htimers t (Bool.eq_true_of_not_eq_false hregistered) with hold | ⟨now, hmem⟩
        · rw [he.timerGone t hfirst.symm] at hold
          cases hold
        · exact hnone' now hmem
      · exact (ih hrs).1 t hrest hnone'
    · have hnone' : ∀ able, .registerFdmon f able ∉ rs := fun able hmem => hnone able (List.mem_cons_of_mem _ hmem)
      rcases List.mem_cons.1 hf with hfirst | hrest
      · by_contra hregistered
        rcases hmonitors f (Bool.eq_true_of_not_eq_false hregistered) with hold | ⟨able, hmem⟩
        · rw [he.monitorGone f hfirst.symm] at hold
          cases hold
        · exact hnone' able hmem
      · exact (ih hrs).2 f hrest hnone'

end Requests

theorem mem_streams (stream : Stream) : stream ∈ streams := by cases stream <;> decide

theorem process_eq {t : ProcessTimer} {p : ℕ} (h : t.process = p) : t = .killer p ∨ t = .reaper p := by
  cases t with
  | killer q => exact .inl (congrArg _ h)
  | reaper q => exact .inr (congrArg _ h)

/-! ## The invariant -/

/-- The process was started and its state is in use. -/
def Async.Live (s : Async O W D) (p : ℕ) : Prop := p < s.count ∧ (s.proc p).freed = false

/-- Timers, monitors and queued events are of processes in use, each of which belongs to the object that runs it; a
process of which completion was delivered is no longer in use. -/
structure Async.Inv (c : Client (ℕ × Stream) W) (s : Async O W D) : Prop where
  orderly : Orderly c s.world
  timers : ∀ t, s.world.pump.timerRegistered t = true → s.Live t.process
  monitors : ∀ f, s.world.pump.fdRegistered f = true → s.Live f.1 ∧ (s.proc f.1).piped f.2 = true
  queued : ∀ f, .client f ∈ s.world.pump.evq → s.Live f.1
  owner : ∀ p, s.Live p → (s.object (s.proc p).userPriv).running = true ∧
    (s.object (s.proc p).userPriv).rawPstate = some p ∧ (s.object (s.proc p).userPriv).life ≠ .destroyed
  raw : ∀ o, (s.object o).running = true → ∃ p, (s.object o).rawPstate = some p ∧ s.Live p ∧ (s.proc p).userPriv = o
  past : ∀ d ∈ s.deliveries, d.process < s.count ∧ (d.callback = .completion → (s.proc d.process).freed = true)
  last : s.deliveries.Pairwise fun d d' => d.callback = .completion → d'.process ≠ d.process
  alive : ∀ d ∈ s.deliveries, d.destroyed = false

theorem Async.Inv.contract {c : Client (ℕ × Stream) W} {s : Async O W D} (h : s.Inv c) : s.Contract := by
  refine ⟨fun p => ?_, h.last, h.alive⟩
  -- after a completion there is none of the same process
  have hcount : ∀ ds : List Delivery, ds.Pairwise (fun d d' => d.callback = .completion → d'.process ≠ d.process) →
      ds.countP (fun d => d.process = p ∧ d.callback = .completion) ≤ 1 := by
    intro ds hds
    induction ds with
    | nil => exact Nat.zero_le 1
    | cons d ds ih =>
      obtain ⟨hd, hds⟩ := List.pairwise_cons.1 hds
      rw [List.countP_cons]
      split_ifs with hcompletion
      · have hnone : ds.countP (fun d => d.process = p ∧ d.callback = .completion) = 0 := by
          rw [List.countP_eq_zero]
          intro d' hd' heq
          obtain ⟨hp, hcallback⟩ := of_decide_eq_true hcompletion
          exact hd d' hd' hcallback ((of_decide_eq_true heq).1.trans hp.symm)
        omega
      · exact ih hds
  exact hcount _ h.last

/-! ## Steps -/

section Steps

variable [DecidableEq O] [DecidableEq W] {c : Client (ℕ × Stream) W} {reports : O → Bool} {s s' : Async O W D}

omit [DecidableEq O] [DecidableEq W] in
theorem Async.Inv.new (anyone : O) : (Async.new anyone : Async O W D).Inv c where
  orderly := Orderly.new _
  timers := nofun
  monitors := nofun
  queued := nofun
  owner p hp := absurd hp.1 (Nat.not_lt_zero p)
  raw := nofun
  past := nofun
  last := List.Pairwise.nil
  alive := nofun

omit [DecidableEq W] in
/-- An object stays with the process that it runs, and one that runs a process is not destroyed. -/
theorem Async.Inv.of_object (h : s.Inv c) (o : O) (x : Object) (hrunning : x.running = (s.object o).running)
    (hraw : x.rawPstate = (s.object o).rawPstate)
    (hlife : x.running = true → (s.object o).life ≠ .destroyed → x.life ≠ .destroyed) :
    Async.Inv c { s with object := update s.object o x } := by
  refine ⟨h.orderly, h.timers, h.monitors, h.queued, fun p hp => ?_, fun o' ho' => ?_, h.past, h.last, h.alive⟩
  · obtain ⟨hrun, hown, halive⟩ := h.owner p hp
    dsimp only
    by_cases heq : (s.proc p).userPriv = o
    · rw [heq] at hrun hown halive ⊢
      rw [update_self, hrunning, hraw]
      exact ⟨hrun, hown, hlife (hrunning.trans hrun) halive⟩
    · rw [update_of_ne heq]
      exact ⟨hrun, hown, halive⟩
  · dsimp only at ho' ⊢
    by_cases heq : o' = o
    · rw [heq, update_self] at ho' ⊢
      rw [hraw]
      exact h.raw o (hrunning ▸ ho')
    · rw [update_of_ne heq] at ho' ⊢
      exact h.raw o' ho'

/-- The process has not exited. -/
theorem Async.Inv.waits (h : s.Inv c) {p : ℕ} {now : Timespec} (hp : s.Live p)
    (hs : asyncProcessReaper c reports p none now s = some s') : s'.Inv c := by
  obtain ⟨world, hrequests, rfl⟩ := Option.map_eq_some_iff.1 hs
  obtain ⟨hevq, horderly, htimers, hmonitors⟩ := requests_effect hrequests
  refine ⟨horderly h.orderly, fun t ht => ?_, fun f hf => ?_, fun f hf => ?_, h.owner, h.raw, h.past, h.last, h.alive⟩
  · rcases htimers t ht with hold | ⟨now', hmem⟩
    · exact h.timers t hold
    · obtain ⟨rfl, -⟩ : t = .reaper p ∧ now' = now := by simpa using hmem
      exact hp
  · rcases hmonitors f hf with hold | ⟨able, hmem⟩
    · exact h.monitors f hold
    · simp at hmem
  · dsimp only at hf
    rw [hevq] at hf
    exact h.queued f hf

omit [DecidableEq W] in
theorem mem_releases {p : ℕ} {piped : Stream → Bool} {r : Request ProcessTimer (ℕ × Stream) W} :
    r ∈ releases p piped ↔ (∃ stream, piped stream = true ∧ r = .unregisterFdmon (p, stream)) ∨
      r = .unregisterTimer (.killer p) ∨ r = .unregisterTimer (.reaper p) := by
  unfold releases
  rw [List.mem_append, List.mem_map]
  simp only [List.mem_filter, mem_streams, true_and, List.mem_cons, List.not_mem_nil, or_false, eq_comm]

omit [DecidableEq O] [DecidableEq W] in
theorem Async.Inv.ne_of_completion (h : s.Inv c) {p : ℕ} (hp : s.Live p) {d : Delivery} (hd : d ∈ s.deliveries)
    (hcallback : d.callback = .completion) : d.process ≠ p := by
  intro heq
  have hcompleted := (h.past d hd).2 hcallback
  rw [heq] at hcompleted
  exact Bool.false_ne_true (hp.2.symm.trans hcompleted)

omit [DecidableEq O] [DecidableEq W] in
/-- A callback of a process in use comes after no completion of it. -/
theorem Async.Inv.delivers (h : s.Inv c) {p : ℕ} (hp : s.Live p) (callback : Callback) :
    (s.deliveries ++ [Delivery.mk p callback false]).Pairwise
        (fun d d' => d.callback = .completion → d'.process ≠ d.process) ∧
      ∀ d ∈ s.deliveries ++ [Delivery.mk p callback false], d.destroyed = false := by
  refine ⟨List.pairwise_append.2 ⟨h.last, List.pairwise_singleton .., fun d hd d' hd' hcallback => ?_⟩, fun d hd => ?_⟩
  · obtain rfl := List.mem_singleton.1 hd'
    exact (h.ne_of_completion hp hd hcallback).symm
  · rcases List.mem_append.1 hd with hbefore | hnew
    · exact h.alive d hbefore
    · obtain rfl := List.mem_singleton.1 hnew
      rfl

/-- **The process is reaped**, with no event of it queued. -/
theorem Async.Inv.reaps (h : s.Inv c) {p : ℕ} {status : ℤ} {now : Timespec} (hp : s.Live p)
    (hquiet : ∀ f, .client f ∈ s.world.pump.evq → f.1 ≠ p)
    (hs : asyncProcessReaper c reports p (some status) now s = some s') :
    s'.Inv c ∧ (s'.object (s.proc p).userPriv).running = false := by
  obtain ⟨world, hrequests, rfl⟩ := Option.map_eq_some_iff.1 hs
  obtain ⟨hevq, horderly, htimers, hmonitors⟩ := requests_effect hrequests
  obtain ⟨htimersGone, hmonitorsGone⟩ := requests_gone hrequests
  obtain ⟨hrunning, hraw, halive⟩ := h.owner p hp
  have hfreed : ∀ q, q ≠ p → update s.proc p { s.proc p with freed := true } q = s.proc q :=
    fun q hq => update_of_ne hq ..
  have hlive : ∀ q, s.Live q → q ≠ p →
      q < s.count ∧ (update s.proc p { s.proc p with freed := true } q).freed = false := by
    intro q hq hne
    rw [hfreed q hne]
    exact hq
  have hold : ∀ q, q < s.count ∧ (update s.proc p { s.proc p with freed := true } q).freed = false →
      q ≠ p ∧ s.Live q := by
    intro q hq
    have hne : q ≠ p := by
      rintro rfl
      rw [update_self] at hq
      cases hq.2
    rw [hfreed q hne] at hq
    exact ⟨hne, hq⟩
  unfold complete Async.deliver
  simp only [update_self, decide_eq_false halive, and_true]
  refine ⟨horderly h.orderly, fun t ht => ?_, fun f hf => ?_, fun f hf => ?_, fun q hq => ?_, fun o ho => ?_,
    fun d hd => ?_, ?_, fun d hd => ?_⟩
  · -- a timer that is left was there before, and is of another process
    have hbefore : s.world.pump.timerRegistered t = true := by
      refine (htimers t ht).resolve_right ?_
      rintro ⟨now', hmem⟩
      simp [mem_releases] at hmem
    refine hlive _ (h.timers t hbefore) fun hne => ?_
    have hgone : world.pump.timerRegistered t = false := by
      refine htimersGone t (mem_releases.2 (.inr ?_)) fun now' hmem => ?_
      · rcases process_eq hne with rfl | rfl
        · exact .inl rfl
        · exact .inr rfl
      · simp [mem_releases] at hmem
    rw [hgone] at ht
    cases ht
  · -- and so is a monitor
    have hbefore : s.world.pump.fdRegistered f = true := by
      refine (hmonitors f hf).resolve_right ?_
      rintro ⟨able, hmem⟩
      simp [mem_releases] at hmem
    obtain ⟨hflive, hpiped⟩ := h.monitors f hbefore
    have hne : f.1 ≠ p := by
      rintro rfl
      have hgone : world.pump.fdRegistered f = false := by
        refine hmonitorsGone f (mem_releases.2 (.inl ⟨f.2, hpiped, rfl⟩)) fun able hmem => ?_
        simp [mem_releases] at hmem
      rw [hgone] at hf
      cases hf
    refine ⟨hlive _ hflive hne, ?_⟩
    dsimp only
    rw [hfreed _ hne]
    exact hpiped
  · dsimp only at hf
    rw [hevq] at hf
    exact hlive _ (h.queued f hf) (hquiet f hf)
  · -- the objects of the other processes are other objects
    obtain ⟨hne, hq⟩ := hold q hq
    obtain ⟨hqrunning, hqraw, hqalive⟩ := h.owner q hq
    have howner : (s.proc q).userPriv ≠ (s.proc p).userPriv := by
      intro heq
      rw [heq, hraw] at hqraw
      exact hne (Option.some.inj hqraw).symm
    dsimp only
    rw [hfreed q hne, update_of_ne howner]
    exact ⟨hqrunning, hqraw, hqalive⟩
  · dsimp only at ho ⊢
    have howner : o ≠ (s.proc p).userPriv := by
      rintro rfl
      rw [update_self] at ho
      cases ho
    rw [update_of_ne howner] at ho ⊢
    obtain ⟨q, hqraw, hq, hqowner⟩ := h.raw o ho
    have hne : q ≠ p := by
      rintro rfl
      exact howner hqowner.symm
    refine ⟨q, hqraw, hlive q hq hne, ?_⟩
    rw [hfreed q hne]
    exact hqowner
  · dsimp only at hd ⊢
    rcases List.mem_append.1 hd with hbefore | hnew
    · obtain ⟨hknown, hcompleted⟩ := h.past d hbefore
      refine ⟨hknown, fun hcallback => ?_⟩
      rw [hfreed _ (h.ne_of_completion hp hbefore hcallback)]
      exact hcompleted hcallback
    · obtain rfl := List.mem_singleton.1 hnew
      dsimp only
      rw [update_self]
      exact ⟨hp.1, fun _ => rfl⟩
  · exact (h.delivers hp _).1
  · exact (h.delivers hp _).2 d hd

omit [DecidableEq O] [DecidableEq W] in
/-- A process in use has output. -/
theorem Async.Inv.output (h : s.Inv c) {p : ℕ} {stream : Stream} (hp : s.Live p) :
    (asyncProcessFdEventCb p stream s).Inv c := by
  unfold asyncProcessFdEventCb Async.deliver
  split_ifs
  · obtain ⟨-, -, halive⟩ := h.owner p hp
    rw [decide_eq_false halive]
    refine ⟨h.orderly, h.timers, h.monitors, h.queued, h.owner, h.raw, fun d hd => ?_, (h.delivers hp _).1,
      (h.delivers hp _).2⟩
    rcases List.mem_append.1 hd with hbefore | hnew
    · exact h.past d hbefore
    · obtain rfl := List.mem_singleton.1 hnew
      exact ⟨hp.1, nofun⟩
  · exact ⟨h.orderly, h.timers, h.monitors, h.queued, h.owner, h.raw, h.past, h.last, h.alive⟩

omit [DecidableEq W] in
theorem mem_registers {p : ℕ} {cfg : Settings} {able : Stream → Bool} {now now' : Timespec}
    {r : Request ProcessTimer (ℕ × Stream) W} (hr : r ∈ registers p cfg able now now') :
    (∀ t now'', r = .registerTimer t now'' → t.process = p) ∧
      ∀ f able', r = .registerFdmon f able' → f.1 = p ∧ cfg.piped f.2 = true := by
  unfold registers at hr
  rw [List.append_assoc, List.mem_append, List.mem_map] at hr
  rcases hr with ⟨stream, hstream, rfl⟩ | htimer
  · refine ⟨nofun, fun f able' heq => ?_⟩
    obtain ⟨rfl, -⟩ := Request.registerFdmon.inj heq
    exact ⟨rfl, (List.mem_filter.1 hstream).2⟩
  · have htimers : ∀ t now'', r = .registerTimer t now'' → t = .reaper p ∨ t = .killer p := by
      rintro t now'' rfl
      split_ifs at htimer <;> simp at htimer <;> tauto
    refine ⟨fun t now'' heq => ?_, ?_⟩
    · rcases htimers t now'' heq with rfl | rfl
      · rfl
      · rfl
    · rintro f able' rfl
      split_ifs at htimer <;> simp at htimer

/-- **A process is started**, with a number that is new. -/
theorem Async.Inv.run {o : O} {cfg : Settings} {forked : Bool} {able : Stream → Bool} {now now' : Timespec}
    (h : s.Inv c) (halive : (s.object o).life ≠ .destroyed)
    (hs : Process.run c o cfg forked able now now' s = some s') : s'.Inv c := by
  unfold Process.run at hs
  by_cases hbusy : (s.object o).running = true
  · rw [if_pos hbusy] at hs
    cases hs
  rw [if_neg hbusy] at hs
  have hidle : (s.object o).running = false := Bool.eq_false_of_not_eq_true hbusy
  have hothers : ∀ p, s.Live p → (s.proc p).userPriv ≠ o := by
    rintro p hp rfl
    rw [(h.owner p hp).1] at hidle
    cases hidle
  by_cases hconsistent : ¬cfg.Consistent
  · rw [if_pos hconsistent] at hs
    obtain rfl := Option.some.inj hs
    exact ⟨h.orderly, h.timers, h.monitors, h.queued, h.owner, h.raw, h.past, h.last, h.alive⟩
  rw [if_neg hconsistent] at hs
  cases forked with
  | false =>
    -- only the object is marked
    obtain rfl := Option.some.inj hs
    refine ⟨h.orderly, h.timers, h.monitors, h.queued, fun p hp => ?_, fun o' ho' => ?_, h.past, h.last, h.alive⟩
    · dsimp only
      rw [update_of_ne (hothers p hp)]
      exact h.owner p hp
    · dsimp only at ho' ⊢
      have hne : o' ≠ o := by
        rintro rfl
        rw [update_self] at ho'
        cases ho'
      rw [update_of_ne hne] at ho' ⊢
      exact h.raw o' ho'
  | true =>
    obtain ⟨world, hrequests, rfl⟩ := Option.map_eq_some_iff.1 hs
    obtain ⟨hevq, horderly, htimers, hmonitors⟩ := requests_effect hrequests
    -- the processes so far stay as they are, and the new one is in use
    have hproc : ∀ p x, p < s.count → update s.proc s.count x p = s.proc p :=
      fun p x hp => update_of_ne (Nat.ne_of_lt hp) ..
    have hlive : ∀ p x, s.Live p → p < s.count + 1 ∧ (update s.proc s.count x p).freed = false := by
      intro p x hp
      rw [hproc p x hp.1]
      exact ⟨Nat.lt_succ_of_lt hp.1, hp.2⟩
    have hnew : ∀ p, p = s.count →
        p < s.count + 1 ∧ (update s.proc s.count ⟨o, cfg.piped, willCreatePipes cfg, false⟩ p).freed = false := by
      rintro p rfl
      rw [update_self]
      exact ⟨Nat.lt_succ_self _, rfl⟩
    refine ⟨horderly h.orderly, fun t ht => ?_, fun f hf => ?_, fun f hf => ?_, fun p hp => ?_, fun o' ho' => ?_,
      fun d hd => ?_, h.last, h.alive⟩
    · rcases htimers t ht with hold | ⟨now'', hmem⟩
      · exact hlive _ _ (h.timers t hold)
      · exact hnew _ ((mem_registers hmem).1 t now'' rfl)
    · rcases hmonitors f hf with hold | ⟨able', hmem⟩
      · obtain ⟨hflive, hpiped⟩ := h.monitors f hold
        refine ⟨hlive _ _ hflive, ?_⟩
        dsimp only
        rw [hproc _ _ hflive.1]
        exact hpiped
      · obtain ⟨hp, hpiped⟩ := (mem_registers hmem).2 f able' rfl
        refine ⟨hnew _ hp, ?_⟩
        dsimp only
        rw [hp, update_self]
        exact hpiped
    · dsimp only at hf
      rw [hevq] at hf
      exact hlive _ _ (h.queued f hf)
    · obtain ⟨hlt, hused⟩ := hp
      dsimp only at hlt hused ⊢
      by_cases hp : p = s.count
      · rw [hp, update_self, update_self]
        exact ⟨rfl, rfl, halive⟩
      · have hbefore : p < s.count := by omega
        rw [hproc p _ hbefore] at hused ⊢
        rw [update_of_ne (hothers p ⟨hbefore, hused⟩)]
        exact h.owner p ⟨hbefore, hused⟩
    · dsimp only at ho' ⊢
      by_cases heq : o' = o
      · refine ⟨s.count, ?_, hnew _ rfl, ?_⟩
        · rw [heq, update_self]
        · rw [update_self, heq]
      · rw [update_of_ne heq] at ho' ⊢
        obtain ⟨p, hraw, hp, howner⟩ := h.raw o' ho'
        refine ⟨p, hraw, hlive p _ hp, ?_⟩
        rw [hproc p _ hp.1]
        exact howner
    · obtain ⟨hknown, hcompleted⟩ := h.past d hd
      dsimp only
      rw [hproc _ _ hknown]
      exact ⟨Nat.lt_succ_of_lt hknown, hcompleted⟩

/-- The process of an object is stopped. -/
theorem Async.Inv.stop {o : O} {exited : Option ℤ} {now : Timespec} (h : s.Inv c)
    (hquiet : exited ≠ none → ∀ p, (s.object o).running = true → (s.object o).rawPstate = some p →
      ∀ f, .client f ∈ s.world.pump.evq → f.1 ≠ p)
    (hs : Process.stop c reports o exited now s = some s') :
    s'.Inv c ∧ (((s.object o).running = true → exited ≠ none) → (s'.object o).running = false) := by
  unfold Process.stop at hs
  by_cases hrunning : (s.object o).running = true
  · rw [if_pos hrunning] at hs
    obtain ⟨p, hraw, hp, howner⟩ := h.raw o hrunning
    rw [hraw] at hs
    cases exited with
    | none => exact ⟨h.waits hp hs, fun hexited => absurd rfl (hexited hrunning)⟩
    | some status =>
      obtain ⟨hinv, hidle⟩ := h.reaps hp (hquiet nofun p hrunning hraw) hs
      rw [howner] at hidle
      exact ⟨hinv, fun _ => hidle⟩
  · rw [if_neg hrunning] at hs
    obtain rfl := Option.some.inj hs
    exact ⟨h, fun _ => Bool.eq_false_of_not_eq_true hrunning⟩

theorem queued_ne {p : ℕ} {evq : List (FdEvent (ℕ × Stream))} (h : ∀ fdev ∈ evq, process? fdev ≠ some p)
    (f : ℕ × Stream) (hf : .client f ∈ evq) : f.1 ≠ p :=
  fun heq => h _ hf (congrArg some heq)

omit [DecidableEq O] [DecidableEq W] in
/-- The process of an object that runs one, where its exit is reported, has no event queued. -/
theorem stop_quiet {o : O} {exited : Option ℤ} (hquiet : exited ≠ none →
      ∀ p ∈ if (s.object o).running then (s.object o).rawPstate else none, ∀ fdev ∈ s.world.pump.evq, process? fdev ≠ some p)
    (hexited : exited ≠ none) (p : ℕ) (hrunning : (s.object o).running = true) (hraw : (s.object o).rawPstate = some p) :
    ∀ f, .client f ∈ s.world.pump.evq → f.1 ≠ p := by
  refine queued_ne (hquiet hexited p ?_)
  rw [if_pos hrunning, hraw]
  rfl

/-- **One step.** -/
theorem Async.Inv.step {e : Act O D} (h : s.Inv c) (htidy : Tidy c e s) (hs : Async.step c reports e s = some s') :
    s'.Inv c := by
  unfold Async.step at hs
  by_cases hover : s.terminated = true
  · rw [if_pos hover] at hs
    cases hs
  rw [if_neg hover] at hs
  obtain ⟨hquiet, hrest⟩ := htidy
  cases e with
  | run o cfg forked able now now' =>
    dsimp only at hs
    split_ifs at hs with hshared
    refine h.run ?_ hs
    rw [hshared]
    exact nofun
  | stop o exited now =>
    dsimp only at hs
    split_ifs at hs
    exact (h.stop (stop_quiet hquiet) hs).1
  | destroy o exited now =>
    dsimp only at hs
    split_ifs at hs
    obtain ⟨s₁, hstop, rfl⟩ := Option.map_eq_some_iff.1 hs
    -- the object in its destructor stops the process, and is idle then
    have hexpired := h.of_object o { s.object o with life := .expired } rfl rfl (fun _ _ => nofun)
    have hsame : update s.object o { s.object o with life := .expired } o = { s.object o with life := .expired } :=
      update_self ..
    obtain ⟨hinv, hidle⟩ := hexpired.stop (by dsimp only; rw [hsame]; exact stop_quiet hquiet) hstop
    have hdone : (s₁.object o).running = false := hidle (by dsimp only; rw [hsame]; exact hrest)
    exact hinv.of_object o _ rfl rfl fun hrun => absurd (hdone.symm.trans hrun) Bool.false_ne_true
  | pump b now =>
    obtain ⟨world, hworld, rfl⟩ := Option.map_eq_some_iff.1 hs
    unfold World.step at hworld
    dsimp only at hworld
    split at hworld
    · split_ifs at hworld
      obtain rfl := Option.some.inj hworld
      refine ⟨⟨h.orderly.timers, h.orderly.interest⟩, h.timers, h.monitors, fun f hf => ?_, h.owner, h.raw, h.past,
        h.last, h.alive⟩
      dsimp only at hf
      rw [pumpOsEvents_evq, List.mem_append, List.mem_map] at hf
      rcases hf with hold | ⟨i, hi, hread⟩
      · exact h.queued f hold
      · have hwatches := hrest i (List.mem_range.1 hi)
        rw [hread] at hwatches
        exact (h.monitors f (h.orderly.interest _ f hwatches).1).1
    · cases hworld
  | dispatch exited now =>
    obtain ⟨world, hworld, hs⟩ := Option.bind_eq_some_iff.1 hs
    unfold World.step at hworld
    dsimp only at hworld
    split_ifs at hworld with hfree
    obtain rfl := Option.some.inj hworld
    obtain ⟨horderly, hmonitors, htimer | ⟨htimers, hevq, hcallback⟩⟩ := dispatch_cases h.orderly hfree
    · obtain ⟨tev, hnext, hrunning, hregistered, htimers, hevq⟩ := htimer
      have hlive := h.timers tev hregistered
      have hinv : Async.Inv c { s with world := s.world.dispatch } := by
        refine ⟨horderly, fun t ht => ?_, hmonitors ▸ h.monitors, hevq ▸ h.queued, h.owner, h.raw, h.past, h.last,
          h.alive⟩
        dsimp only at ht
        rw [htimers, update_apply] at ht
        split_ifs at ht
        exact h.timers t ht
      have hreaper : asyncProcessReaper c reports tev.process exited now { s with world := s.world.dispatch } =
          some s' := by
        dsimp only at hs
        rw [hrunning] at hs
        cases tev with
        | killer p => exact hs
        | reaper p => exact hs
      cases exited with
      | none => exact hinv.waits hlive hreaper
      | some status =>
        refine (hinv.reaps hlive (queued_ne ?_) hreaper).1
        dsimp only
        rw [hevq]
        refine hquiet nofun _ ?_
        unfold Async.waitsFor
        dsimp only
        rw [hnext]
        rfl
    · have hinv : Async.Inv c { s with world := s.world.dispatch } :=
        ⟨horderly, htimers ▸ h.timers, hmonitors ▸ h.monitors, fun f hf => h.queued f (hevq _ hf), h.owner, h.raw,
          h.past, h.last, h.alive⟩
      dsimp only at hs
      rcases hcallback with ⟨f, hrunning, hqueued⟩ | hwatch
      · rw [hrunning] at hs
        obtain rfl := Option.some.inj hs
        exact hinv.output (h.queued f hqueued)
      · cases hrunning : s.world.dispatch.running with
        | none =>
          rw [hrunning] at hs
          obtain rfl := Option.some.inj hs
          exact hinv
        | some callback =>
          obtain ⟨uev, rfl⟩ := hwatch callback hrunning
          rw [hrunning] at hs
          obtain rfl := Option.some.inj hs
          exact hinv
  | ret =>
    obtain ⟨world, hworld, rfl⟩ := Option.map_eq_some_iff.1 hs
    unfold World.step at hworld
    dsimp only at hworld
    split at hworld
    · cases hworld
    all_goals
      obtain rfl := Option.some.inj hworld
      exact ⟨⟨h.orderly.timers, h.orderly.interest⟩, h.timers, h.monitors, h.queued, h.owner, h.raw, h.past, h.last,
        h.alive⟩

end Steps

/-! ## Runs -/

/-- **Completion comes once and last**, and nothing comes after the object was destroyed, in every run in which no
process is reaped with an event of it queued, every object that is destroyed has no process left, and no batch is
misread. -/
theorem contract_of_tidy [DecidableEq O] [DecidableEq W] (c : Client (ℕ × Stream) W) (reports : O → Bool) (anyone : O)
    {s : Async O W D} (h : Reaches (Async.step c reports) (Tidy c) (Async.new anyone) s) : s.Contract :=
  (h.invariant (fun _ _ _ hi hc hs => hi.step hc hs) (Async.Inv.new anyone)).contract

/-- A file descriptor for every pipe. -/
def pipeClient : Client (ℕ × Stream) Unit where
  fd f := 3 * f.1 + match f.2 with
    | .stdin => 0
    | .stdout => 1
    | .stderr => 2
  eventType := oneClient.eventType
  bound := oneClient.bound

/-- The timer of the pump has run off, and there may be output of the first process. -/
def timerAndOutput (output : Bool) : Batch (FdEvent (ℕ × Stream)) where
  buff i := { events := EPOLLIN, ptr := if i = 0 then .timerfd else .client (0, .stdout) }
  rc := if output then 2 else 1
  pos := by split <;> omega
  bound := by
    unfold maxEpollBatch
    split <;> omega
  distinct i hi j hj heq := by
    dsimp only at hi hj heq
    split_ifs at hi hj heq <;> omega

/-- Output is piped, and there is no timeout. -/
def pipeOutput : Settings where
  action stream := if stream = .stdout then .pipe else .pass
  timeout := -1

/-- A process has output and is reaped; then the object runs another one, and is destroyed. -/
theorem contract_of_tidy_two : ∃ s : Async Unit Unit Unit, s.Contract ∧
    s.deliveries = [⟨0, .output .stdout, false⟩, ⟨0, .completion, false⟩, ⟨1, .completion, false⟩] := by
  obtain ⟨s, hreach, hdeliveries⟩ : ∃ s, Reaches (Async.step pipeClient fun _ => false) (Tidy pipeClient)
      (Async.new () : Async Unit Unit Unit) s ∧
        s.deliveries = [⟨0, .output .stdout, false⟩, ⟨0, .completion, false⟩, ⟨1, .completion, false⟩] :=
    exists_of_checked
      [.run () pipeOutput true (fun _ => true) (seconds 0) (seconds 0), .pump (timerAndOutput true) (seconds 1),
        .dispatch none (seconds 1), .ret, .dispatch none (seconds 1), .dispatch none (seconds 1),
        .dispatch none (seconds 1), .ret, .dispatch none (seconds 1), .dispatch none (seconds 1),
        .pump (timerAndOutput false) (seconds 2), .dispatch (some 0) (seconds 2), .ret,
        .run () pipeOutput true (fun _ => true) (seconds 2) (seconds 2), .destroy () (some 137) (seconds 2)]
      (by decide +kernel)
  exact ⟨s, contract_of_tidy pipeClient _ () hreach, hdeliveries⟩

/-- **Output is delivered after completion**, where the process is reaped while its output is in the queue; **and
completion to an object that is gone**, where `waitpid` reports no exit when it is destroyed. -/
theorem output_after_completion :
    (¬∀ s, Reaches (Async.step pipeClient fun _ => false) Free (Async.new () : Async Unit Unit Unit) s →
      s.deliveries.Pairwise fun d d' => d.callback = .completion → d'.process ≠ d.process) ∧
    ¬∀ s, Reaches (Async.step pipeClient fun _ => false) Free (Async.new () : Async Unit Unit Unit) s →
      ∀ d ∈ s.deliveries, d.destroyed = false := by
  refine ⟨fun hall => ?_, fun hall => ?_⟩
  · obtain ⟨s, hreach, hdeliveries⟩ : ∃ s, Reaches (Async.step pipeClient fun _ => false) Free
        (Async.new () : Async Unit Unit Unit) s ∧
          s.deliveries = [⟨0, .completion, false⟩, ⟨0, .output .stdout, false⟩] :=
      exists_of_events
        [.run () pipeOutput true (fun _ => true) (seconds 0) (seconds 0), .pump (timerAndOutput true) (seconds 1),
          .dispatch (some 0) (seconds 1), .ret, .dispatch none (seconds 1), .dispatch none (seconds 1),
          .dispatch none (seconds 1)]
        (by decide +kernel)
    have hlast := hall s hreach
    rw [hdeliveries] at hlast
    exact absurd hlast (by decide)
  · obtain ⟨s, hreach, hdeliveries⟩ : ∃ s, Reaches (Async.step pipeClient fun _ => false) Free
        (Async.new () : Async Unit Unit Unit) s ∧ s.deliveries = [⟨0, .completion, true⟩] :=
      exists_of_events
        [.run () pipeOutput true (fun _ => true) (seconds 0) (seconds 0), .destroy () none (seconds 0),
          .pump (timerAndOutput false) (seconds 1), .dispatch (some 137) (seconds 1)]
        (by decide +kernel)
    have halive := hall s hreach
    rw [hdeliveries] at halive
    exact absurd halive (by decide)

end Libtarp.Process
