import Libtarp.Channel.StateMask
import Libtarp.Channel.TrunkRuns

/-!
# Monitors of a trunk (`evchan.hxx`, `trunk::add_monitor`, `trunk::refresh_channel_state`)

A trunk is readable while a sender waits and writable while a receiver does. `Watched` is a trunk with
the calls made on it, its state mask and its monitors; a critical section of a call that changes a
queue refreshes the mask before it ends. The notifications of `close` are made after its section, by
which time the lists are empty; they are taken to be part of it.

* `step_queues`: a section that does not refresh the state leaves both queues as they are.
* `WatchInv.refresh`: a refresh brings the mask up to date, and tells the monitors of every edge.
* `monitors_right`: what the mask and the notifications say in every state of every interleaving.
-/

namespace Libtarp.Unbuffered

open Function Lib
open Evchan (Mask ChanState Action Notification Alternates notifyMonitors heard replay edge heard_append heard_of_ne
  heard_of_event_ne alternates_edge mem_replay sweep_spec)

variable {ι α : Type} [DecidableEq ι]

/-! ## The trunk and its monitors -/

/-- A trunk with its monitors: for each what `add_monitor` returned and the states it was added for, all
notifications, and those after which the notifier was removed from the list. -/
structure Watched (ι α : Type) where
  sys : System ι α
  stateMask : Mask
  sendMonitors : List ℕ
  recvMonitors : List ℕ
  registered : List (Mask × Mask)
  log : List (Notification ℕ)
  removed : List (Notification ℕ)

/-- The state as `refresh_channel_state` computes it. -/
def currentState (c : Trunk ι α) : Mask :=
  (if !c.recvWaitq.isEmpty then {.writable} else ∅) ∪ if !c.sendWaitq.isEmpty then {.readable} else ∅

/-- `refresh_channel_state`. Rising edges come first. -/
def Watched.refreshChannelState (keep : Notification ℕ → Bool) (w : Watched ι α) : Watched ι α :=
  let current := currentState w.sys.chan
  if current = w.stateMask then w
  else
    let (recv₁, n₁) := if .readable ∈ current ∧ .readable ∉ w.stateMask then
      notifyMonitors keep .readable .apply w.recvMonitors else (w.recvMonitors, [])
    let (send₁, n₂) := if .writable ∈ current ∧ .writable ∉ w.stateMask then
      notifyMonitors keep .writable .apply w.sendMonitors else (w.sendMonitors, [])
    let (recv₂, n₃) := if .readable ∈ w.stateMask ∧ .readable ∉ current then
      notifyMonitors keep .readable .clear recv₁ else (recv₁, [])
    let (send₂, n₄) := if .writable ∈ w.stateMask ∧ .writable ∉ current then
      notifyMonitors keep .writable .clear send₁ else (send₁, [])
    { w with
      recvMonitors := recv₂
      sendMonitors := send₂
      stateMask := if w.sys.chan.closed then insert .closed current else current
      log := w.log ++ (n₁ ++ n₂ ++ n₃ ++ n₄)
      removed := w.removed ++ (n₁ ++ n₂ ++ n₃ ++ n₄).filter (!keep ·) }

/-- The critical section calls `refresh_channel_state`: a value is passed or taken, a call joins a queue,
or one leaves it because its time is up. -/
def refreshes : Event ι α → System ι α → Bool
  | .tryPush .., s => !(s.chan.closed || s.chan.recvWaitq.isEmpty)
  | .tryGet _, s => !s.chan.closed && !s.chan.sendWaitq.isEmpty
  | .pushUntil .., s => !s.chan.closed
  | .getUntil .., s => !s.chan.closed
  | .wake t expired, s =>
    match s.stage t with
    | .sending useDeadline => !(s.chan.op t).done && !s.chan.closed && (useDeadline && expired)
    | .receiving useDeadline => !(s.chan.op t).done && !s.chan.closed && (useDeadline && expired)
    | _ => false
  | .close, _ => false

/-- `close`, with the state mask and the lists of monitors. -/
def Watched.close (w : Watched ι α) : Watched ι α :=
  { w with
    sys := w.sys.become (Unbuffered.close w.sys.chan)
    stateMask := insert .closed w.stateMask
    recvMonitors := []
    sendMonitors := []
    log := w.log ++ (w.recvMonitors ++ w.sendMonitors).map fun i => ⟨i, .closed, .apply⟩ }

def Watched.addMonitor (w : Watched ι α) (states : Mask) : Watched ι α :=
  { w with
    recvMonitors := if .readable ∈ states then w.recvMonitors ++ [w.registered.length] else w.recvMonitors
    sendMonitors := if .writable ∈ states then w.sendMonitors ++ [w.registered.length] else w.sendMonitors
    registered := w.registered ++ [(w.stateMask, states)] }

inductive WatchEvent (ι α : Type) where
  /-- a critical section; `keep` is what the notifiers answer in it -/
  | act (e : Event ι α) (keep : Notification ℕ → Bool)
  | addMonitor (states : Mask)

def Watched.step : WatchEvent ι α → Watched ι α → Option (Watched ι α)
  | .act .close _, w => some w.close
  | .act e keep, w => (Unbuffered.step e w.sys).map fun sys =>
    if refreshes e w.sys then ({ w with sys := sys } : Watched ι α).refreshChannelState keep else { w with sys := sys }
  | .addMonitor states, w => some (w.addMonitor states)

/-- A new trunk without monitors. -/
def Watched.start : Watched ι α := ⟨Unbuffered.start, ∅, [], [], [], [], []⟩

/-- The list of monitors for a flag. -/
def Watched.monitors (w : Watched ι α) : ChanState → List ℕ
  | .closed => []
  | .readable => w.recvMonitors
  | .writable => w.sendMonitors

variable {s s' : System ι α} {w w' : Watched ι α} {e : Event ι α}

/-! ## The queues -/

omit [DecidableEq ι] in
theorem mem_currentState_readable (c : Trunk ι α) : .readable ∈ currentState c ↔ c.sendWaitq ≠ [] := by
  unfold currentState
  cases c.recvWaitq <;> cases c.sendWaitq <;> simp

omit [DecidableEq ι] in
theorem mem_currentState_writable (c : Trunk ι α) : .writable ∈ currentState c ↔ c.recvWaitq ≠ [] := by
  unfold currentState
  cases c.recvWaitq <;> cases c.sendWaitq <;> simp

omit [DecidableEq ι] in
theorem closed_notMem_currentState (c : Trunk ι α) : ChanState.closed ∉ currentState c := by
  unfold currentState
  split_ifs <;> decide

theorem passData_closed (c : Trunk ι α) (v : Value ι α) : (passData c v).closed = c.closed := by
  unfold passData
  split <;> rfl

theorem getData_closed (c : Trunk ι α) : (getData c).1.closed = c.closed := by
  unfold getData
  split <;> rfl

/-- **What a section does to the queues it does not refresh the state for**: nothing. -/
theorem step_queues (hne : e ≠ .close) (he : step e s = some s') : s'.chan.closed = s.chan.closed ∧
    (refreshes e s = true → s.chan.closed = false) ∧
    (refreshes e s = false → s'.chan.sendWaitq = s.chan.sendWaitq ∧ s'.chan.recvWaitq = s.chan.recvWaitq) := by
  cases e with
  | tryPush t x =>
    have hst := idle_of_call he (.inl ⟨x, rfl⟩)
    by_cases hno : (s.chan.closed || s.chan.recvWaitq.isEmpty) = true
    · simp only [step, hst, tryPush, if_pos hno] at he
      obtain rfl := Option.some.inj he
      exact ⟨rfl, fun hr => by simp [refreshes, hno] at hr, fun _ => ⟨rfl, rfl⟩⟩
    · simp only [step, hst, tryPush, if_neg hno] at he
      obtain rfl := Option.some.inj he
      refine ⟨passData_closed _ _, fun _ => ?_, fun hr => ?_⟩
      · rw [Bool.or_eq_true, not_or] at hno
        simpa using hno.1
      · simp [refreshes, hno] at hr
  | tryGet t =>
    have hst := idle_of_call he (.inr (.inl rfl))
    simp only [step, hst, tryGet] at he
    split_ifs at he with hcl hq
    · obtain rfl := Option.some.inj he
      exact ⟨rfl, fun hr => by simp [refreshes, hcl] at hr, fun _ => ⟨rfl, rfl⟩⟩
    · obtain rfl := Option.some.inj he
      exact ⟨getData_closed _, fun _ => by simpa using hcl, fun hr => by simp [refreshes, hcl, hq] at hr⟩
    · obtain rfl := Option.some.inj he
      exact ⟨rfl, fun _ => by simpa using hcl, fun _ => ⟨rfl, rfl⟩⟩
  | pushUntil t x d =>
    have hst := idle_of_call he (.inr (.inr (.inl ⟨x, d, rfl⟩)))
    simp only [step, hst, doTryPushUntil] at he
    split_ifs at he with hcl hq
    · obtain rfl := Option.some.inj he
      exact ⟨rfl, fun hr => by simp [refreshes, hcl] at hr, fun _ => ⟨rfl, rfl⟩⟩
    · obtain rfl := Option.some.inj he
      exact ⟨passData_closed _ _, fun _ => by simpa using hcl, fun hr => by simp [refreshes, hcl] at hr⟩
    · obtain rfl := Option.some.inj he
      exact ⟨rfl, fun _ => by simpa using hcl, fun hr => by simp [refreshes, hcl] at hr⟩
  | getUntil t d =>
    have hst := idle_of_call he (.inr (.inr (.inr ⟨d, rfl⟩)))
    simp only [step, hst, doTryGetUntil] at he
    split_ifs at he with hcl hq
    · obtain rfl := Option.some.inj he
      exact ⟨rfl, fun hr => by simp [refreshes, hcl] at hr, fun _ => ⟨rfl, rfl⟩⟩
    · obtain rfl := Option.some.inj he
      exact ⟨getData_closed _, fun _ => by simpa using hcl, fun hr => by simp [refreshes, hcl] at hr⟩
    · obtain rfl := Option.some.inj he
      exact ⟨rfl, fun _ => by simpa using hcl, fun hr => by simp [refreshes, hcl] at hr⟩
  | wake t expired =>
    cases hst : s.stage t with
    | idle => simp [step, hst] at he
    | returned a => simp [step, hst] at he
    | sending d =>
      -- only a call whose time is up leaves its queue, and it refreshes the state
      simp only [step, hst, wakeSender] at he
      split_ifs at he with hdone hcl hexp
      · obtain rfl := Option.some.inj he
        exact ⟨rfl, fun hr => by simp [refreshes, hst, hdone] at hr, fun _ => ⟨rfl, rfl⟩⟩
      · obtain rfl := Option.some.inj he
        exact ⟨rfl, fun hr => by simp [refreshes, hst, hcl] at hr, fun _ => ⟨rfl, rfl⟩⟩
      · obtain rfl := Option.some.inj he
        exact ⟨rfl, fun _ => by simpa using hcl, fun hr => by simp [refreshes, hst, hdone, hcl, hexp] at hr⟩
      · obtain rfl := Option.some.inj he
        exact ⟨rfl, fun _ => by simpa using hcl, fun _ => ⟨rfl, rfl⟩⟩
    | receiving d =>
      simp only [step, hst, wakeReceiver] at he
      split_ifs at he with hdone hcl hexp
      · obtain rfl := Option.some.inj he
        exact ⟨rfl, fun hr => by simp [refreshes, hst, hdone] at hr, fun _ => ⟨rfl, rfl⟩⟩
      · obtain rfl := Option.some.inj he
        exact ⟨rfl, fun hr => by simp [refreshes, hst, hcl] at hr, fun _ => ⟨rfl, rfl⟩⟩
      · obtain rfl := Option.some.inj he
        exact ⟨rfl, fun _ => by simpa using hcl, fun hr => by simp [refreshes, hst, hdone, hcl, hexp] at hr⟩
      · obtain rfl := Option.some.inj he
        exact ⟨rfl, fun _ => by simpa using hcl, fun _ => ⟨rfl, rfl⟩⟩
  | close => exact absurd rfl hne

/-! ## The refresh -/

/-- An event channel that is readable and writable as the trunk is, with the same monitors. -/
def Watched.asChannel (w : Watched ι α) : Evchan.EventChannel ℕ Unit where
  circular := !w.sys.chan.recvWaitq.isEmpty
  capacity := 0
  closed := w.sys.chan.closed
  msgs := if w.sys.chan.sendWaitq.isEmpty then [] else [()]
  sendMonitors := w.sendMonitors
  recvMonitors := w.recvMonitors
  stateMask := w.stateMask

omit [DecidableEq ι] in
theorem currentState_asChannel (w : Watched ι α) : Evchan.currentState w.asChannel = currentState w.sys.chan := by
  unfold Evchan.currentState currentState Watched.asChannel
  cases w.sys.chan.recvWaitq <;> cases w.sys.chan.sendWaitq <;> rfl

omit [DecidableEq ι] in
/-- **A trunk refreshes its state as an event channel does.** -/
theorem refresh_eq (keep : Notification ℕ → Bool) (w : Watched ι α) :
    w.refreshChannelState keep =
      { w with
        recvMonitors := (Evchan.refreshChannelState keep w.asChannel).1.recvMonitors
        sendMonitors := (Evchan.refreshChannelState keep w.asChannel).1.sendMonitors
        stateMask := (Evchan.refreshChannelState keep w.asChannel).1.stateMask
        log := w.log ++ (Evchan.refreshChannelState keep w.asChannel).2
        removed := w.removed ++ (Evchan.refreshChannelState keep w.asChannel).2.filter (!keep ·) } := by
  unfold Watched.refreshChannelState Evchan.refreshChannelState
  rw [currentState_asChannel]
  by_cases hsame : currentState w.sys.chan = w.stateMask
  · rw [if_pos hsame, if_pos (show currentState w.sys.chan = w.asChannel.stateMask from hsame)]
    simp [Watched.asChannel]
  · rw [if_neg hsame, if_neg (show ¬currentState w.sys.chan = w.asChannel.stateMask from hsame)]
    rfl

/-! ## The invariant -/

structure WatchInv (w : Watched ι α) : Prop where
  sys : Inv w.sys
  mask : w.sys.chan.closed = false → w.stateMask = currentState w.sys.chan
  closed : .closed ∈ w.stateMask ↔ w.sys.chan.closed = true
  nodup : ∀ f, (w.monitors f).Nodup
  known : ∀ f, ∀ i ∈ w.monitors f, i < w.registered.length
  logged : ∀ n ∈ w.log, n.notifier < w.registered.length
  /-- a monitor is in the lists it was put in, or asked to be removed, or was told of the end -/
  kept : ∀ (i : ℕ) (m states : Mask), w.registered[i]? = some (m, states) → ChanState.closed ∉ m → ∀ f ∈ states, f ≠ .closed →
    (∃ n ∈ w.removed, n.notifier = i ∧ n.event = f) ∨
      if w.sys.chan.closed then ⟨i, .closed, .apply⟩ ∈ w.log else i ∈ w.monitors f
  before : w.sys.chan.closed = false → ∀ (i : ℕ) (m states : Mask), w.registered[i]? = some (m, states) → ChanState.closed ∉ m
  heard : ∀ f, ∀ i ∈ w.monitors f, ∀ m states : Mask, w.registered[i]? = some (m, states) →
    Alternates (decide (f ∈ m)) (heard w.log i f) (decide (f ∈ w.stateMask))

omit [DecidableEq ι] in
theorem watchInv_start : WatchInv (Watched.start : Watched ι α) where
  sys := inv_start
  mask := fun _ => rfl
  closed := by simp [Watched.start, Unbuffered.start]
  nodup := fun f => by cases f <;> exact List.nodup_nil
  known := fun f i hi => by cases f <;> cases hi
  logged := fun n hn => by cases hn
  kept := fun i m states hreg => by simp [Watched.start] at hreg
  before := fun _ i m states hreg => by simp [Watched.start] at hreg
  heard := fun f i hi => by cases f <;> cases hi

omit [DecidableEq ι] in
/-- **A refresh after the queues of an open trunk have changed.** -/
theorem WatchInv.refresh (h : WatchInv w) (keep : Notification ℕ → Bool) (hopen : w.sys.chan.closed = false)
    {sys : System ι α} (hsys : Inv sys) (hclosed : sys.chan.closed = false) :
    WatchInv (({ w with sys := sys } : Watched ι α).refreshChannelState keep) := by
  set v : Watched ι α := { w with sys := sys } with hv
  have hcl : .closed ∈ v.asChannel.stateMask ↔ v.asChannel.closed = true := by
    refine h.closed.trans ?_
    rw [hopen]
    exact (show v.asChannel.closed = false from hclosed) ▸ Iff.rfl
  obtain ⟨hmask, hrecv, hsend, hids, hgone, hheard⟩ :=
    Evchan.refresh_spec (c := v.asChannel) keep (h.nodup .readable) (h.nodup .writable) hcl
  rw [currentState_asChannel, if_neg (by simp [Watched.asChannel, hv, hclosed])] at hmask
  rw [currentState_asChannel] at hheard
  rw [refresh_eq]
  set c := (Evchan.refreshChannelState keep v.asChannel).1
  set n := (Evchan.refreshChannelState keep v.asChannel).2
  have hsub : ∀ f, (c.monitors f).Sublist (w.monitors f) := by
    intro f
    cases f with
    | closed => exact List.Sublist.refl _
    | readable => exact hrecv
    | writable => exact hsend
  have hlist : ∀ f, ({ v with
      recvMonitors := c.recvMonitors
      sendMonitors := c.sendMonitors
      stateMask := c.stateMask
      log := v.log ++ n
      removed := v.removed ++ n.filter (!keep ·) } : Watched ι α).monitors f = c.monitors f := by
    intro f
    cases f <;> rfl
  refine ⟨hsys, fun _ => hmask, ?_, ?_, ?_, ?_, ?_, fun _ => h.before hopen, ?_⟩
  · show .closed ∈ c.stateMask ↔ sys.chan.closed = true
    rw [hmask, hclosed]
    simp [closed_notMem_currentState]
  · intro f
    rw [hlist]
    exact (hsub f).nodup (h.nodup f)
  · intro f i hi
    rw [hlist] at hi
    exact h.known f i ((hsub f).subset hi)
  · intro m hm
    rcases List.mem_append.1 hm with hm | hm
    · exact h.logged m hm
    · rcases hids m hm with hm | hm
      · exact h.known .readable _ hm
      · exact h.known .writable _ hm
  · intro i m states hreg hno f hf hne
    have hold := h.kept i m states hreg hno f hf hne
    rw [if_neg (by simp [hopen])] at hold
    rw [if_neg (show ¬sys.chan.closed = true by simp [hclosed]), hlist]
    rcases hold with ⟨m', hm', hrest⟩ | hi
    · exact .inl ⟨m', List.mem_append_left _ hm', hrest⟩
    · -- a monitor that was dropped answered no, and that is in the log
      by_cases hstay : i ∈ c.monitors f
      · exact .inr hstay
      · have hmem : i ∈ v.asChannel.monitors f := by
          cases f with
          | closed => exact absurd rfl hne
          | readable => exact hi
          | writable => exact hi
        obtain ⟨m', hm', hni, hnf, hk⟩ := hgone f i hmem hstay
        exact .inl ⟨m', List.mem_append_right _ (List.mem_filter.2 ⟨hm', by simp [hk]⟩), hni, hnf⟩
  · intro f i hi m states hreg
    rw [hlist] at hi
    show Alternates _ (Evchan.heard (w.log ++ n) i f) (decide (f ∈ c.stateMask))
    rw [heard_append, hmask]
    refine (h.heard f i ((hsub f).subset hi) m states hreg).append ?_
    rw [hheard f i hi]
    exact alternates_edge _ _

omit [DecidableEq ι] in
/-- A section that leaves the queues alone. -/
theorem WatchInv.stay (h : WatchInv w) {sys : System ι α} (hsys : Inv sys) (hclosed : sys.chan.closed = w.sys.chan.closed)
    (hsend : sys.chan.sendWaitq = w.sys.chan.sendWaitq) (hrecv : sys.chan.recvWaitq = w.sys.chan.recvWaitq) :
    WatchInv ({ w with sys := sys } : Watched ι α) where
  sys := hsys
  mask := fun hopen => by
    have hcur : currentState sys.chan = currentState w.sys.chan := by
      unfold currentState
      rw [hsend, hrecv]
    exact (h.mask (hclosed ▸ hopen)).trans hcur.symm
  closed := h.closed.trans (by rw [hclosed])
  nodup := fun f => by cases f <;> [exact h.nodup .closed; exact h.nodup .readable; exact h.nodup .writable]
  known := fun f => by cases f <;> [exact h.known .closed; exact h.known .readable; exact h.known .writable]
  logged := h.logged
  kept := fun i m states hreg hno f hf hne => by
    have hold := h.kept i m states hreg hno f hf hne
    rw [← hclosed] at hold
    cases f with
    | closed => exact absurd rfl hne
    | readable => exact hold
    | writable => exact hold
  before := fun hopen => h.before (hclosed ▸ hopen)
  heard := fun f => by cases f <;> [exact h.heard .closed; exact h.heard .readable; exact h.heard .writable]

omit [DecidableEq ι] in
/-- **A new monitor** has heard nothing, and knows the mask. -/
theorem WatchInv.addMonitor (h : WatchInv w) (states : Mask) : WatchInv (w.addMonitor states) := by
  set i₀ := w.registered.length with hi₀
  have hlist : ∀ f i, i ∈ (w.addMonitor states).monitors f ↔
      i ∈ w.monitors f ∨ i = i₀ ∧ f ∈ states ∧ f ≠ .closed := by
    intro f i
    cases f with
    | closed => simp [Watched.monitors]
    | readable => by_cases hf : .readable ∈ states <;> simp [Watched.monitors, Watched.addMonitor, hf, hi₀]
    | writable => by_cases hf : .writable ∈ states <;> simp [Watched.monitors, Watched.addMonitor, hf, hi₀]
  have hnodup : ∀ ls : List ℕ, ls.Nodup → (∀ i ∈ ls, i < i₀) → (ls ++ [i₀]).Nodup := by
    intro ls hn hlt
    rw [List.nodup_append]
    refine ⟨hn, List.nodup_singleton _, ?_⟩
    rintro a ha b hb rfl
    have := hlt a ha
    rw [List.mem_singleton.1 hb] at this
    omega
  have hcases : ∀ i m st, (w.addMonitor states).registered[i]? = some (m, st) →
      w.registered[i]? = some (m, st) ∨ i = i₀ ∧ m = w.stateMask ∧ st = states := by
    intro i m st hreg
    rcases Nat.lt_or_ge i i₀ with hi | hi
    · exact .inl (by rwa [Watched.addMonitor, List.getElem?_append_left hi] at hreg)
    · have hlt := (List.getElem?_eq_some_iff.1 hreg).1
      simp only [Watched.addMonitor, List.length_append, List.length_singleton] at hlt
      obtain rfl : i = i₀ := by omega
      rw [Watched.addMonitor, hi₀, List.getElem?_concat_length] at hreg
      obtain ⟨rfl, rfl⟩ := Prod.mk.inj (Option.some.inj hreg)
      exact .inr ⟨rfl, rfl, rfl⟩
  refine ⟨h.sys, h.mask, h.closed, ?_, ?_, ?_, ?_, ?_, ?_⟩
  · intro f
    cases f with
    | closed => exact List.nodup_nil
    | readable =>
      show (if .readable ∈ states then w.recvMonitors ++ [i₀] else w.recvMonitors).Nodup
      split_ifs
      · exact hnodup _ (h.nodup .readable) (h.known .readable)
      · exact h.nodup .readable
    | writable =>
      show (if .writable ∈ states then w.sendMonitors ++ [i₀] else w.sendMonitors).Nodup
      split_ifs
      · exact hnodup _ (h.nodup .writable) (h.known .writable)
      · exact h.nodup .writable
  · intro f i hi
    simp only [Watched.addMonitor, List.length_append, List.length_singleton]
    rcases (hlist f i).1 hi with hi | ⟨rfl, -⟩
    · have := h.known f i hi
      omega
    · omega
  · intro n hn
    have := h.logged n hn
    simp only [Watched.addMonitor, List.length_append, List.length_singleton]
    omega
  · intro i m st hreg hno f hf hne
    rcases hcases i m st hreg with hreg | ⟨rfl, rfl, rfl⟩
    · refine (h.kept i m st hreg hno f hf hne).imp id fun hold => ?_
      by_cases hcl : w.sys.chan.closed = true
      · rw [if_pos hcl] at hold
        exact (if_pos hcl).mpr hold
      · rw [if_neg hcl] at hold
        exact (if_neg hcl).mpr ((hlist f i).2 (.inl hold))
    · -- a mask without the flag was returned, so the trunk is open
      have hopen : ¬w.sys.chan.closed = true := fun hcl => hno (h.closed.2 hcl)
      exact .inr ((if_neg hopen).mpr ((hlist f i₀).2 (.inr ⟨rfl, hf, hne⟩)))
  · intro hopen i m st hreg
    rcases hcases i m st hreg with hreg | ⟨-, rfl, -⟩
    · exact h.before hopen i m st hreg
    · intro hmem
      exact Bool.false_ne_true (hopen.symm.trans (h.closed.1 hmem))
  · intro f i hi m st hreg
    rcases (hlist f i).1 hi with hi | ⟨rfl, -⟩
    · rcases hcases i m st hreg with hreg | ⟨rfl, -, -⟩
      · exact h.heard f i hi m st hreg
      · exact absurd (h.known f _ hi) (Nat.lt_irrefl _)
    · rcases hcases _ m st hreg with hreg | ⟨-, rfl, -⟩
      · exact absurd (List.getElem?_eq_some_iff.1 hreg).1 (Nat.lt_irrefl _)
      · -- nothing was logged for a number that was not given out
        show Alternates _ (Evchan.heard w.log i₀ f) _
        rw [heard_of_ne f fun n hn => (h.logged n hn).ne]
        rfl

/-- **`close`** tells all that are in a list, and empties the lists. -/
theorem WatchInv.close (h : WatchInv w) : WatchInv w.close := by
  refine ⟨(step_spec h.sys (e := .close) rfl).1, fun hopen => Bool.noConfusion hopen, ?_, ?_, ?_, ?_, ?_,
    fun hopen => Bool.noConfusion hopen, ?_⟩
  · exact ⟨fun _ => rfl, fun _ => Finset.mem_insert_self _ _⟩
  · intro f
    cases f <;> exact List.nodup_nil
  · intro f i hi
    cases f <;> cases hi
  · intro n hn
    rcases List.mem_append.1 hn with hn | hn
    · exact h.logged n hn
    · obtain ⟨i, hi, rfl⟩ := List.mem_map.1 hn
      rcases List.mem_append.1 hi with hi | hi
      · exact h.known .readable i hi
      · exact h.known .writable i hi
  · intro i m states hreg hno f hf hne
    refine (h.kept i m states hreg hno f hf hne).imp id fun hold => ?_
    rw [if_pos (show w.close.sys.chan.closed = true from rfl)]
    split_ifs at hold with hcl
    · exact List.mem_append_left _ hold
    · refine List.mem_append_right _ (List.mem_map.2 ⟨i, ?_, rfl⟩)
      cases f with
      | closed => exact absurd rfl hne
      | readable => exact List.mem_append_left _ hold
      | writable => exact List.mem_append_right _ hold
  · intro f i hi
    cases f <;> cases hi

/-- **One section, or one call of `add_monitor`, keeps the invariant**; the trunk below makes the same step. -/
theorem watched_step {e : WatchEvent ι α} (h : WatchInv w) (he : Watched.step e w = some w') :
    WatchInv w' ∧ (w'.sys = w.sys ∨ ∃ d, Unbuffered.step d w.sys = some w'.sys) := by
  cases e with
  | addMonitor states =>
    obtain rfl := Option.some.inj he
    exact ⟨h.addMonitor states, .inl rfl⟩
  | act d keep =>
    by_cases hd : d = .close
    · subst hd
      obtain rfl := Option.some.inj he
      exact ⟨h.close, .inr ⟨.close, rfl⟩⟩
    · have hstep : Watched.step (.act d keep) w = (Unbuffered.step d w.sys).map fun sys =>
          if refreshes d w.sys then ({ w with sys := sys } : Watched ι α).refreshChannelState keep
          else { w with sys := sys } := by
        cases d <;> first | rfl | exact absurd rfl hd
      rw [hstep] at he
      obtain ⟨sys, hsys, rfl⟩ := Option.map_eq_some_iff.1 he
      obtain ⟨hclosed, hopen, hsame⟩ := step_queues hd hsys
      have hinv : Inv sys := (step_spec h.sys hsys).1
      by_cases hr : refreshes d w.sys = true
      · rw [if_pos hr]
        refine ⟨h.refresh keep (hopen hr) hinv (hclosed.trans (hopen hr)), .inr ⟨d, ?_⟩⟩
        rw [refresh_eq]
        exact hsys
      · rw [if_neg hr]
        obtain ⟨hsend, hrecv⟩ := hsame (by simpa using hr)
        exact ⟨h.stay hinv hclosed hsend hrecv, .inr ⟨d, hsys⟩⟩

/-! ## Every interleaving -/

/-- The mask agrees with the trunk, and with what the monitors heard. -/
structure MonitorsRight (w : Watched ι α) : Prop where
  readable : w.sys.chan.closed = false → (.readable ∈ w.stateMask ↔ ∃ v, (tryGet w.sys.chan).2 = .got (some v))
  writable : w.sys.chan.closed = false → ∀ v, (.writable ∈ w.stateMask ↔ (tryPush w.sys.chan v).2 = .pushed true none)
  single : w.sys.chan.closed = false → ¬(.readable ∈ w.stateMask ∧ .writable ∈ w.stateMask)
  closed : .closed ∈ w.stateMask ↔ w.sys.chan.closed = true
  /-- a monitor that did not ask to be removed heard every edge of its flags -/
  edges : w.sys.chan.closed = false → ∀ (i : ℕ) (m states : Mask), w.registered[i]? = some (m, states) →
    ∀ f ∈ states, f ≠ .closed → (∀ n ∈ w.removed, ¬(n.notifier = i ∧ n.event = f)) →
    (heard w.log i f).IsChain (· ≠ ·) ∧ (f ∈ replay m w.log i ↔ f ∈ w.stateMask)
  /-- and is told of the end -/
  told : w.sys.chan.closed = true → ∀ (i : ℕ) (m states : Mask), w.registered[i]? = some (m, states) →
    ChanState.closed ∉ m → ∀ f ∈ states, f ≠ .closed → (∀ n ∈ w.removed, ¬(n.notifier = i ∧ n.event = f)) →
    ⟨i, .closed, .apply⟩ ∈ w.log

theorem tryGet_iff (hinv : Inv s) (hopen : s.chan.closed = false) :
    (∃ v, (tryGet s.chan).2 = .got (some v)) ↔ s.chan.sendWaitq ≠ [] := by
  unfold tryGet
  rw [if_neg (by simp [hopen])]
  cases hq : s.chan.sendWaitq with
  | nil => simp
  | cons sender q =>
    -- the operation of a waiting sender holds its value
    obtain ⟨⟨d, hd⟩, -⟩ := hinv.sender sender (by rw [hq]; exact List.mem_cons_self)
    obtain ⟨x, -, hx⟩ := hinv.sending sender d hd
    rw [if_pos (by rfl)]
    refine ⟨fun _ => List.cons_ne_nil _ _, fun _ => ⟨⟨sender, x⟩, ?_⟩⟩
    unfold getData
    rw [hq]
    exact congrArg _ hx

theorem tryPush_iff (hopen : s.chan.closed = false) (v : Value ι α) :
    (tryPush s.chan v).2 = .pushed true none ↔ s.chan.recvWaitq ≠ [] := by
  unfold tryPush
  rw [hopen, Bool.false_or]
  cases s.chan.recvWaitq with
  | nil => simp
  | cons receiver q => simp

theorem WatchInv.monitorsRight (h : WatchInv w) : MonitorsRight w := by
  refine ⟨fun hopen => ?_, fun hopen v => ?_, fun hopen => ?_, h.closed, ?_, ?_⟩
  · rw [h.mask hopen, mem_currentState_readable, tryGet_iff h.sys hopen]
  · rw [h.mask hopen, mem_currentState_writable, tryPush_iff hopen]
  · rw [h.mask hopen, mem_currentState_readable, mem_currentState_writable]
    rintro ⟨hs, hr⟩
    exact h.sys.single.elim hs hr
  · intro hopen i m states hreg f hf hne hno
    rcases h.kept i m states hreg (h.before hopen i m states hreg) f hf hne with ⟨n, hn, hrest⟩ | hi
    · exact absurd hrest (hno n hn)
    · rw [if_neg (by simp [hopen])] at hi
      have halt := h.heard f i hi m states hreg
      exact ⟨halt.isChain, (mem_replay halt).trans decide_eq_true_iff⟩
  · intro hcl i m states hreg hm f hf hne hno
    rcases h.kept i m states hreg hm f hf hne with ⟨n, hn, hrest⟩ | hi
    · exact absurd hrest (hno n hn)
    · rwa [if_pos hcl] at hi

/-- **In every state of every interleaving** of calls and of monitors joining, the mask says what the trunk
admits, and every monitor that did not leave knows it. The trunk itself runs as it does without monitors. -/
theorem monitors_right (h : Reaches Watched.step Free (Watched.start : Watched ι α) w) :
    MonitorsRight w ∧ Reaches Unbuffered.step Free (start : System ι α) w.sys := by
  have hboth : WatchInv w ∧ Reaches Unbuffered.step Free (start : System ι α) w.sys := by
    refine h.invariant (I := fun w => WatchInv w ∧ Reaches Unbuffered.step Free start w.sys) ?_ ⟨watchInv_start, .start⟩
    rintro e w w' ⟨hinv, hreach⟩ - he
    obtain ⟨hinv', hsys⟩ := watched_step hinv he
    refine ⟨hinv', ?_⟩
    rcases hsys with hsys | ⟨d, hd⟩
    · exact hsys ▸ hreach
    · exact hreach.next trivial hd
  exact ⟨hboth.1.monitorsRight, hboth.2⟩

/-- A monitor joins, and a sender comes to wait. -/
theorem monitors_right_two : ∃ w : Watched ℕ ℕ,
    runEvents Watched.step [.addMonitor {.readable}, .act (.pushUntil 0 7 false) fun _ => true] Watched.start = some w ∧
      MonitorsRight w ∧ w.stateMask = {.readable} ∧ heard w.log 0 .readable = [.apply] := by
  have hrun : runEvents Watched.step [.addMonitor {.readable}, .act (.pushUntil 0 7 false) fun _ => true]
      (Watched.start : Watched ℕ ℕ) = some _ := rfl
  refine ⟨_, hrun, (monitors_right (reaches_of_run hrun)).1, ?_, ?_⟩
  · decide +kernel
  · decide +kernel

end Libtarp.Unbuffered
