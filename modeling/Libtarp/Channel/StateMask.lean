import Libtarp.Channel.BoundedQueue
import Mathlib.Data.Finset.Erase
import Mathlib.Data.List.Chain

/-!
# The state mask and the notifications

`MaskRight`: the mask says what the channel admits, and every monitor that is still in a list
heard each edge of that flag once. `close` empties the buffer but does not clear `READABLE`, so
all this holds exactly as long as `close` finds the buffer empty (`maskRight_iff`).

* `refresh_spec`: what `refresh_channel_state` does to the mask, the lists and the notifications.
* `Alternates`: edges that start from one level and end at another, one way and the other by turns.
-/

namespace Libtarp.Evchan

open Lib

variable {α : Type}

/-! ## Edges of one flag -/

/-- Edges that lead from one level to another by turns. -/
def Alternates : Bool → List Action → Bool → Prop
  | b, [], b' => b = b'
  | false, .apply :: l, b' => Alternates true l b'
  | true, .clear :: l, b' => Alternates false l b'
  | _, _ :: _, _ => False

/-- The edge from one level to another. -/
def edge : Bool → Bool → List Action
  | false, true => [.apply]
  | true, false => [.clear]
  | _, _ => []

theorem Alternates.append {b b' b'' : Bool} {l l' : List Action} (h : Alternates b l b')
    (h' : Alternates b' l' b'') : Alternates b (l ++ l') b'' := by
  induction l generalizing b with
  | nil => exact (show b = b' from h) ▸ h'
  | cons a l ih =>
    cases b <;> cases a
    · exact ih h
    · exact h.elim
    · exact h.elim
    · exact ih h

theorem alternates_edge (b b' : Bool) : Alternates b (edge b b') b' := by
  cases b <;> cases b' <;> rfl

theorem Alternates.isChain {b b' : Bool} {l : List Action} (h : Alternates b l b') : l.IsChain (· ≠ ·) := by
  induction l generalizing b with
  | nil => exact .nil
  | cons a l ih =>
    cases l with
    | nil => exact .singleton a
    | cons a' l =>
      cases b <;> cases a <;> cases a' <;> first
        | exact h.elim
        | exact List.isChain_cons_cons.2 ⟨by decide, ih h⟩

/-! ## What a monitor hears -/

/-- The edges of a flag that a monitor was notified of. -/
def heard (log : List (Notification ℕ)) (i : ℕ) (f : ChanState) : List Action :=
  (log.filter fun n => n.notifier = i ∧ n.event = f).map Notification.action

/-- A mask brought up to date by a notification. -/
def applyTo (m : Mask) (n : Notification ℕ) : Mask :=
  match n.action with
  | .apply => insert n.event m
  | .clear => m.erase n.event

/-- The mask that a monitor makes out for itself, from the one returned to it. -/
def replay (m : Mask) (log : List (Notification ℕ)) (i : ℕ) : Mask := (log.filter (·.notifier = i)).foldl applyTo m

theorem heard_append (l l' : List (Notification ℕ)) (i : ℕ) (f : ChanState) :
    heard (l ++ l') i f = heard l i f ++ heard l' i f := by
  unfold heard
  rw [List.filter_append, List.map_append]

theorem heard_of_ne {log : List (Notification ℕ)} {i : ℕ} (f : ChanState) (h : ∀ n ∈ log, n.notifier ≠ i) :
    heard log i f = [] := by
  unfold heard
  rw [List.filter_eq_nil_iff.2, List.map_nil]
  intro n hn
  simp [h n hn]

/-- A list of monitors hears an edge once, all of them. -/
theorem heard_notify {ls : List ℕ} (hn : ls.Nodup) {i : ℕ} (hi : i ∈ ls) (e f : ChanState) (a : Action) :
    heard (ls.map fun j => ⟨j, e, a⟩) i f = if e = f then [a] else [] := by
  unfold heard
  rw [List.filter_map, List.map_map]
  by_cases hef : e = f
  · have hfil : (ls.filter ((fun n : Notification ℕ => decide (n.notifier = i ∧ n.event = f)) ∘
        fun j => ⟨j, e, a⟩)) = [i] := by
      have hp : ((fun n : Notification ℕ => decide (n.notifier = i ∧ n.event = f)) ∘
          fun j => (⟨j, e, a⟩ : Notification ℕ)) = fun j => j == i := by
        funext j
        simp only [Function.comp_apply, hef, and_true]
        rfl
      rw [hp, List.filter_beq, List.count_eq_one_of_mem hn hi]
      rfl
    rw [hfil, if_pos hef]
    rfl
  · rw [if_neg hef, List.filter_eq_nil_iff.2, List.map_nil]
    intro j _
    simp [hef]

/-- **A monitor that hears the edges of a flag by turns** knows the level of the flag. -/
theorem mem_replay {log : List (Notification ℕ)} {i : ℕ} {f : ChanState} {m : Mask} {b : Bool}
    (h : Alternates (decide (f ∈ m)) (heard log i f) b) : f ∈ replay m log i ↔ b = true := by
  unfold replay
  induction log generalizing m with
  | nil => exact (show decide (f ∈ m) = b from h) ▸ decide_eq_true_iff.symm
  | cons n log ih =>
    by_cases hni : n.notifier = i
    · rw [List.filter_cons_of_pos (by simpa using hni), List.foldl_cons]
      apply ih
      -- what is heard alternates, so an event that is heard changes the bit
      by_cases hnf : n.event = f
      · have hcons : heard (n :: log) i f = n.action :: heard log i f := by
          unfold heard
          rw [List.filter_cons_of_pos (by simp [hni, hnf]), List.map_cons]
        rw [hcons] at h
        unfold applyTo
        cases ha : n.action with
        | apply =>
          rw [ha] at h
          simp only [hnf, Finset.mem_insert_self, decide_true]
          cases hm : decide (f ∈ m) with
          | false => rw [hm] at h; exact h
          | true => rw [hm] at h; exact h.elim
        | clear =>
          rw [ha] at h
          simp only [hnf, Finset.notMem_erase, decide_false]
          cases hm : decide (f ∈ m) with
          | false => rw [hm] at h; exact h.elim
          | true => rw [hm] at h; exact h
      · have hcons : heard (n :: log) i f = heard log i f := by
          unfold heard
          rw [List.filter_cons_of_neg (by simp [hnf])]
        have hsame : (f ∈ applyTo m n) = (f ∈ m) := by
          unfold applyTo
          cases n.action with
          | apply => simp [Finset.mem_insert, Ne.symm hnf]
          | clear => simp [Finset.mem_erase, Ne.symm hnf]
        simp only [hsame]
        rwa [hcons] at h
    · rw [List.filter_cons_of_neg (by simpa using hni)]
      apply ih
      have hcons : heard (n :: log) i f = heard log i f := by
        unfold heard
        rw [List.filter_cons_of_neg (by simp [hni])]
      rwa [hcons] at h

/-! ## The refresh -/

/-- The list of monitors for a flag. -/
def EventChannel.monitors {ι : Type} (c : EventChannel ι α) : ChanState → List ι
  | .closed => []
  | .readable => c.recvMonitors
  | .writable => c.sendMonitors

theorem closed_notMem_currentState {ι : Type} (c : EventChannel ι α) : ChanState.closed ∉ currentState c := by
  unfold currentState
  split_ifs <;> decide

/-- One list: its monitors hear the edge of their flag, and some of them stay. -/
theorem sweep_spec (keep : Notification ℕ → Bool) (f : ChanState) (old new : Mask) {ls : List ℕ} (hn : ls.Nodup)
    {p₁ p₂ : List ℕ × List (Notification ℕ)}
    (h₁ : p₁ = if f ∈ new ∧ f ∉ old then notifyMonitors keep f .apply ls else (ls, []))
    (h₂ : p₂ = if f ∈ old ∧ f ∉ new then notifyMonitors keep f .clear p₁.1 else (p₁.1, [])) :
    p₂.1.Sublist ls ∧ (∀ n ∈ p₁.2 ++ p₂.2, n.notifier ∈ ls ∧ n.event = f) ∧
      (∀ i ∈ ls, i ∉ p₂.1 → ∃ n ∈ p₁.2 ++ p₂.2, n.notifier = i ∧ n.event = f ∧ keep n = false) ∧
      ∀ i ∈ p₂.1, heard p₁.2 i f ++ heard p₂.2 i f = edge (decide (f ∈ old)) (decide (f ∈ new)) := by
  -- a flag that stays as it was is not announced
  by_cases hold : f ∈ old
  · rw [if_neg (fun h => h.2 hold)] at h₁
    by_cases hnew : f ∈ new
    · rw [if_neg (fun h => h.2 hnew), h₁] at h₂
      subst h₁ h₂
      refine ⟨List.Sublist.refl _, by simp, fun i hi hno => absurd hi hno, fun i _ => ?_⟩
      simp only [hold, hnew, decide_true]
      rfl
    · rw [if_pos ⟨hold, hnew⟩, h₁] at h₂
      subst h₁ h₂
      refine ⟨List.filter_sublist, by simp [notifyMonitors], fun i hi hno => ?_, fun i hi => ?_⟩
      · exact ⟨⟨i, f, .clear⟩, by simpa [notifyMonitors] using hi, rfl, rfl, by simpa [notifyMonitors, hi] using hno⟩
      have hmem : i ∈ ls := List.filter_sublist.subset hi
      simp only [hold, hnew, decide_true, decide_false, notifyMonitors, heard_notify hn hmem]
      rfl
  · by_cases hnew : f ∈ new
    · rw [if_pos ⟨hnew, hold⟩] at h₁
      rw [if_neg (fun h => hold h.1), h₁] at h₂
      subst h₁ h₂
      refine ⟨List.filter_sublist, by simp [notifyMonitors], fun i hi hno => ?_, fun i hi => ?_⟩
      · exact ⟨⟨i, f, .apply⟩, by simpa [notifyMonitors] using hi, rfl, rfl, by simpa [notifyMonitors, hi] using hno⟩
      have hmem : i ∈ ls := List.filter_sublist.subset hi
      simp only [hold, hnew, decide_true, decide_false, notifyMonitors, heard_notify hn hmem]
      rfl
    · rw [if_neg (fun h => hnew h.1)] at h₁
      rw [if_neg (fun h => hold h.1), h₁] at h₂
      subst h₁ h₂
      refine ⟨List.Sublist.refl _, by simp, fun i hi hno => absurd hi hno, fun i _ => ?_⟩
      simp only [hold, hnew, decide_false]
      rfl

theorem heard_of_event_ne {log : List (Notification ℕ)} {f : ChanState} (i : ℕ) (h : ∀ n ∈ log, n.event ≠ f) :
    heard log i f = [] := by
  unfold heard
  rw [List.filter_eq_nil_iff.2, List.map_nil]
  intro n hn
  simp [h n hn]

/-- **`refresh_channel_state`**: the mask is brought up to date, and every monitor that stays in
a list heard the edge of its flag. -/
theorem refresh_spec (keep : Notification ℕ → Bool) {c : EventChannel ℕ α} (hr : c.recvMonitors.Nodup)
    (hs : c.sendMonitors.Nodup) (hcl : .closed ∈ c.stateMask ↔ c.closed = true) :
    let c' := (refreshChannelState keep c).1
    let n := (refreshChannelState keep c).2
    c'.stateMask = (if c.closed then insert .closed (currentState c) else currentState c) ∧
      c'.recvMonitors.Sublist c.recvMonitors ∧ c'.sendMonitors.Sublist c.sendMonitors ∧
      (∀ m ∈ n, m.notifier ∈ c.recvMonitors ∨ m.notifier ∈ c.sendMonitors) ∧
      (∀ f, ∀ i ∈ c.monitors f, i ∉ c'.monitors f → ∃ m ∈ n, m.notifier = i ∧ m.event = f ∧ keep m = false) ∧
      ∀ f, ∀ i ∈ c'.monitors f,
        heard n i f = edge (decide (f ∈ c.stateMask)) (decide (f ∈ currentState c)) := by
  intro c' n
  by_cases hsame : currentState c = c.stateMask
  · have hc : refreshChannelState keep c = (c, []) := by
      unfold refreshChannelState
      exact if_pos hsame
    have hopen : ¬c.closed = true := fun h => closed_notMem_currentState c (hsame ▸ hcl.2 h)
    simp only [c', n, hc, if_neg hopen]
    refine ⟨hsame.symm, List.Sublist.refl _, List.Sublist.refl _, by simp, fun f i hi hno => absurd hi hno,
      fun f i _ => ?_⟩
    rw [hsame]
    cases decide (f ∈ c.stateMask) <;> rfl
  · -- the four sweeps in their order: up for both lists, and then down
    obtain ⟨p₁, hp₁⟩ : ∃ p, p = if .readable ∈ currentState c ∧ .readable ∉ c.stateMask then
      notifyMonitors keep .readable .apply c.recvMonitors else (c.recvMonitors, []) := ⟨_, rfl⟩
    obtain ⟨q₁, hq₁⟩ : ∃ q, q = if .writable ∈ currentState c ∧ .writable ∉ c.stateMask then
      notifyMonitors keep .writable .apply c.sendMonitors else (c.sendMonitors, []) := ⟨_, rfl⟩
    obtain ⟨p₂, hp₂⟩ : ∃ p, p = if .readable ∈ c.stateMask ∧ .readable ∉ currentState c then
      notifyMonitors keep .readable .clear p₁.1 else (p₁.1, []) := ⟨_, rfl⟩
    obtain ⟨q₂, hq₂⟩ : ∃ q, q = if .writable ∈ c.stateMask ∧ .writable ∉ currentState c then
      notifyMonitors keep .writable .clear q₁.1 else (q₁.1, []) := ⟨_, rfl⟩
    have hc : refreshChannelState keep c =
        ({ c with
            recvMonitors := p₂.1
            sendMonitors := q₂.1
            stateMask := if c.closed then insert .closed (currentState c) else currentState c },
          p₁.2 ++ q₁.2 ++ p₂.2 ++ q₂.2) := by
      rw [hp₂, hq₂, hp₁, hq₁]
      unfold refreshChannelState
      exact if_neg hsame
    obtain ⟨hpsub, hpev, hpgone, hpheard⟩ := sweep_spec keep .readable c.stateMask (currentState c) hr hp₁ hp₂
    obtain ⟨hqsub, hqev, hqgone, hqheard⟩ := sweep_spec keep .writable c.stateMask (currentState c) hs hq₁ hq₂
    simp only [c', n, hc]
    refine ⟨trivial, hpsub, hqsub, ?_, ?_, ?_⟩
    · intro m hm
      simp only [List.mem_append] at hm hpev hqev
      rcases hm with ((hm | hm) | hm) | hm
      · exact .inl (hpev m (.inl hm)).1
      · exact .inr (hqev m (.inl hm)).1
      · exact .inl (hpev m (.inr hm)).1
      · exact .inr (hqev m (.inr hm)).1
    · intro f i hi hno
      simp only [List.mem_append] at hpgone hqgone ⊢
      cases f with
      | closed => cases hi
      | readable =>
        obtain ⟨m, hm, hrest⟩ := hpgone i hi hno
        exact ⟨m, by tauto, hrest⟩
      | writable =>
        obtain ⟨m, hm, hrest⟩ := hqgone i hi hno
        exact ⟨m, by tauto, hrest⟩
    · intro f i hi
      simp only [List.mem_append] at hpev hqev
      simp only [heard_append]
      cases f with
      | closed => cases hi
      | readable =>
        -- the other list is told of the other state
        have h₁ : heard q₁.2 i .readable = [] := heard_of_event_ne i fun m hm => by simp [(hqev m (.inl hm)).2]
        have h₂ : heard q₂.2 i .readable = [] := heard_of_event_ne i fun m hm => by simp [(hqev m (.inr hm)).2]
        rw [h₁, h₂]
        simpa using hpheard i hi
      | writable =>
        have h₁ : heard p₁.2 i .writable = [] := heard_of_event_ne i fun m hm => by simp [(hpev m (.inl hm)).2]
        have h₂ : heard p₂.2 i .writable = [] := heard_of_event_ne i fun m hm => by simp [(hpev m (.inr hm)).2]
        rw [h₁, h₂]
        simpa using hqheard i hi

/-! ## The invariant -/

structure Inv (s : Session α) : Prop where
  queue : s.chan.queue.Valid
  mask : s.chan.stateMask = if s.chan.closed then insert .closed (currentState s.chan) else currentState s.chan
  recv : s.chan.recvMonitors.Nodup
  send : s.chan.sendMonitors.Nodup
  known : ∀ f, ∀ i ∈ s.chan.monitors f, i < s.registered.length
  logged : ∀ n ∈ s.log, n.notifier < s.registered.length
  kept : s.chan.closed = false → ∀ i m states, s.registered[i]? = some (m, states) → ∀ f ∈ states, f ≠ .closed →
    i ∈ s.chan.monitors f ∨ ∃ n ∈ s.removed, n.notifier = i ∧ n.event = f
  heard : ∀ f, ∀ i ∈ s.chan.monitors f, ∀ m states, s.registered[i]? = some (m, states) →
    Alternates (decide (f ∈ m)) (heard s.log i f) (decide (f ∈ s.chan.stateMask))

theorem Inv.closed_iff {s : Session α} (h : Inv s) : .closed ∈ s.chan.stateMask ↔ s.chan.closed = true := by
  rw [h.mask]
  by_cases hcl : s.chan.closed = true
  · simp [hcl]
  · simp [hcl, closed_notMem_currentState]

theorem Inv.mem_mask {s : Session α} (h : Inv s) {f : ChanState} (hf : f ≠ .closed) :
    f ∈ s.chan.stateMask ↔ f ∈ currentState s.chan := by
  rw [h.mask]
  by_cases hcl : s.chan.closed = true
  · rw [if_pos hcl, Finset.mem_insert, or_iff_right hf]
  · rw [if_neg hcl]

/-- **A refresh after the buffer has changed.** -/
theorem Inv.refresh {s : Session α} (h : Inv s) (keep : Notification ℕ → Bool) (msgs : List α)
    (hq : ({ s.chan with msgs := msgs } : EventChannel ℕ α).queue.Valid) :
    Inv (s.become keep (refreshChannelState keep { s.chan with msgs := msgs }).1
      (refreshChannelState keep { s.chan with msgs := msgs }).2) := by
  set c : EventChannel ℕ α := { s.chan with msgs := msgs } with hc
  obtain ⟨hmask, hrs, hss, hids, hgone, hheard⟩ := refresh_spec (c := c) keep h.recv h.send h.closed_iff
  have hqueue := refreshChannelState_queue keep c
  have hclosed : (refreshChannelState keep c).1.closed = c.closed := congrArg BoundedQueue.closed hqueue
  -- the state is computed from what the sweeps leave alone
  have hcur : currentState (refreshChannelState keep c).1 = currentState c := by
    have hmsgs : (refreshChannelState keep c).1.msgs = c.msgs := congrArg BoundedQueue.items hqueue
    have hcap : (refreshChannelState keep c).1.capacity = c.capacity := congrArg BoundedQueue.capacity hqueue
    have hcirc : (refreshChannelState keep c).1.circular = c.circular := congrArg BoundedQueue.circular hqueue
    unfold currentState
    rw [hmsgs, hcap, hcirc]
  have hsub : ∀ f, ((refreshChannelState keep c).1.monitors f).Sublist (s.chan.monitors f) := by
    intro f
    cases f with
    | closed => exact List.Sublist.refl _
    | readable => exact hrs
    | writable => exact hss
  refine ⟨?_, ?_, hrs.nodup h.recv, hss.nodup h.send, ?_, ?_, ?_, ?_⟩
  · exact (show (refreshChannelState keep c).1.queue = c.queue from hqueue) ▸ hq
  · show (refreshChannelState keep c).1.stateMask = _
    rw [hmask]
    simp only [Session.become, hclosed, hcur]
  · intro f i hi
    exact h.known f i ((hsub f).subset hi)
  · intro n hn
    rcases List.mem_append.1 hn with hn | hn
    · exact h.logged n hn
    · rcases hids n hn with hn | hn
      · exact h.known .readable _ hn
      · exact h.known .writable _ hn
  · intro hopen i m states hreg f hf hne
    rcases h.kept (hclosed.symm.trans hopen) i m states hreg f hf hne with hi | ⟨n, hn, hrest⟩
    · -- a monitor that was dropped answered no, and that is in the log
      by_cases hstay : i ∈ (refreshChannelState keep c).1.monitors f
      · exact .inl hstay
      · obtain ⟨n, hn, hni, hnf, hk⟩ := hgone f i hi hstay
        refine .inr ⟨n, List.mem_append_right _ (List.mem_filter.2 ⟨hn, by simp [hk]⟩), hni, hnf⟩
    · exact .inr ⟨n, List.mem_append_left _ hn, hrest⟩
  · intro f i hi m states hreg
    show Alternates _ (Evchan.heard (s.log ++ (refreshChannelState keep c).2) i f) _
    rw [heard_append]
    refine (h.heard f i ((hsub f).subset hi) m states hreg).append ?_
    rw [hheard f i hi]
    have hfne : f ≠ .closed := by
      rintro rfl
      cases hi
    have hnew : (f ∈ (refreshChannelState keep c).1.stateMask) ↔ f ∈ currentState c := by
      rw [hmask]
      by_cases hcl : c.closed = true
      · rw [if_pos hcl, Finset.mem_insert, or_iff_right hfne]
      · rw [if_neg hcl]
    have hdec : decide (f ∈ (s.become keep (refreshChannelState keep c).1
        (refreshChannelState keep c).2).chan.stateMask) = decide (f ∈ currentState c) := decide_eq_decide.2 hnew
    rw [hdec]
    exact alternates_edge _ _

/-- Nothing changes. -/
theorem Inv.stay {s : Session α} (h : Inv s) (keep : Notification ℕ → Bool) : Inv (s.become keep s.chan []) := by
  have heq : s.become keep s.chan [] = s := by
    unfold Session.become
    simp
  rw [heq]
  exact h

/-- **A new monitor** has heard nothing, and knows the mask. -/
theorem Inv.addMonitor {s : Session α} (h : Inv s) (states : Mask) :
    Inv { s with chan := (Evchan.addMonitor s.chan s.registered.length states).1
                 registered := s.registered ++ [(s.chan.stateMask, states)] } := by
  set i₀ := s.registered.length with hi₀
  have hlist : ∀ f, ∀ i, i ∈ ((Evchan.addMonitor s.chan i₀ states).1).monitors f ↔
      i ∈ s.chan.monitors f ∨ i = i₀ ∧ f ∈ states ∧ f ≠ .closed := by
    intro f i
    cases f with
    | closed => simp [EventChannel.monitors]
    | readable =>
      by_cases hf : .readable ∈ states
      · simp [EventChannel.monitors, Evchan.addMonitor, hf]
      · simp [EventChannel.monitors, Evchan.addMonitor, hf]
    | writable =>
      by_cases hf : .writable ∈ states
      · simp [EventChannel.monitors, Evchan.addMonitor, hf]
      · simp [EventChannel.monitors, Evchan.addMonitor, hf]
  have hnodup : ∀ ls : List ℕ, ls.Nodup → (∀ i ∈ ls, i < i₀) → (ls ++ [i₀]).Nodup := by
    intro ls hn hlt
    rw [List.nodup_append]
    refine ⟨hn, List.nodup_singleton _, ?_⟩
    rintro a ha b hb rfl
    have := hlt a ha
    rw [List.mem_singleton.1 hb] at this
    omega
  -- the registrations before it are as they were
  have hold : ∀ i p, i < i₀ → (s.registered ++ [(s.chan.stateMask, states)])[i]? = some p →
      s.registered[i]? = some p := by
    intro i p hi hp
    rwa [List.getElem?_append_left hi] at hp
  have hnew : ∀ p, (s.registered ++ [(s.chan.stateMask, states)])[i₀]? = some p → p = (s.chan.stateMask, states) := by
    intro p hp
    rw [hi₀, List.getElem?_concat_length] at hp
    exact (Option.some.inj hp).symm
  -- nothing was logged for a number that was not given out
  have hfresh : ∀ f, Evchan.heard s.log i₀ f = [] := fun f => heard_of_ne f fun n hn => (h.logged n hn).ne
  refine ⟨h.queue, h.mask, ?_, ?_, ?_, ?_, ?_, ?_⟩
  · show (if .readable ∈ states then s.chan.recvMonitors ++ [i₀] else s.chan.recvMonitors).Nodup
    split_ifs
    · exact hnodup _ h.recv (h.known .readable)
    · exact h.recv
  · show (if .writable ∈ states then s.chan.sendMonitors ++ [i₀] else s.chan.sendMonitors).Nodup
    split_ifs
    · exact hnodup _ h.send (h.known .writable)
    · exact h.send
  · intro f i hi
    simp only [List.length_append, List.length_singleton]
    rcases (hlist f i).1 hi with hi | ⟨rfl, -⟩
    · have := h.known f i hi
      omega
    · omega
  · intro n hn
    have := h.logged n hn
    simp only [List.length_append, List.length_singleton]
    omega
  · intro hopen i m st hreg f hf hne
    by_cases hi : i < i₀
    · rcases h.kept hopen i m st (hold i _ hi hreg) f hf hne with hm | hm
      · exact .inl ((hlist f i).2 (.inl hm))
      · exact .inr hm
    · have hii : i = i₀ := by
        have hlt := (List.getElem?_eq_some_iff.1 hreg).1
        simp only [List.length_append, List.length_singleton] at hlt
        omega
      subst hii
      obtain ⟨-, rfl⟩ := Prod.mk.inj (hnew _ hreg)
      exact .inl ((hlist f i₀).2 (.inr ⟨rfl, hf, hne⟩))
  · intro f i hi m st hreg
    rcases (hlist f i).1 hi with hi | ⟨rfl, -⟩
    · exact h.heard f i hi m st (hold i _ (h.known f i hi) hreg)
    · obtain ⟨rfl, -⟩ := Prod.mk.inj (hnew _ hreg)
      show Alternates _ (Evchan.heard s.log i₀ f) _
      rw [hfresh]
      rfl

/-- **`close` on an empty buffer.** -/
theorem Inv.close {s : Session α} (h : Inv s) (hempty : s.chan.msgs = []) :
    Inv (s.become (fun _ => true) (Evchan.close s.chan).1 (Evchan.close s.chan).2.1) := by
  have hcur : currentState (Evchan.close s.chan).1 = currentState s.chan := by
    unfold currentState Evchan.close
    rw [hempty]
  refine ⟨⟨h.queue.pos, Nat.zero_le _, fun _ => rfl⟩, ?_, List.nodup_nil, List.nodup_nil, ?_, ?_, ?_, ?_⟩
  · show insert .closed s.chan.stateMask = if true then insert .closed (currentState (Evchan.close s.chan).1) else _
    rw [hcur, if_pos rfl, h.mask]
    split_ifs
    · exact Finset.insert_idem _ _
    · rfl
  · intro f i hi
    cases f <;> cases hi
  · intro n hn
    rcases List.mem_append.1 hn with hn | hn
    · exact h.logged n hn
    · obtain ⟨i, hi, rfl⟩ := List.mem_map.1 hn
      rcases List.mem_append.1 hi with hi | hi
      · exact h.known .readable i hi
      · exact h.known .writable i hi
  · intro hopen
    cases hopen
  · intro f i hi
    cases f <;> cases hi

/-! ## Runs -/

/-- The mask agrees with the channel, and with what the monitors heard. -/
structure MaskRight (s : Session α) : Prop where
  readable : ∀ keep, .readable ∈ s.chan.stateMask ↔ ∃ x, (tryGet keep s.chan).2.2 = .got (some x)
  closed : .closed ∈ s.chan.stateMask ↔ s.chan.closed = true
  writable : s.chan.closed = false → ∀ keep x,
    (.writable ∈ s.chan.stateMask ↔ ∃ c n, tryPush keep s.chan x = .ok (c, n, .pushed true none))
  /-- the mask is what a new monitor is returned -/
  returned : ∀ states i, (Evchan.addMonitor s.chan i states).2 = .mask s.chan.stateMask
  /-- a monitor that did not ask to be removed heard every edge of its flags -/
  edges : s.chan.closed = false → ∀ i m states, s.registered[i]? = some (m, states) → ∀ f ∈ states, f ≠ .closed →
    (∀ n ∈ s.removed, ¬(n.notifier = i ∧ n.event = f)) →
    (heard s.log i f).IsChain (· ≠ ·) ∧ (f ∈ replay m s.log i ↔ f ∈ s.chan.stateMask)

theorem mem_currentState_readable {ι : Type} (c : EventChannel ι α) :
    .readable ∈ currentState c ↔ c.msgs ≠ [] := by
  unfold currentState
  cases c.msgs <;> split_ifs <;> simp_all

theorem mem_currentState_writable {ι : Type} (c : EventChannel ι α) :
    .writable ∈ currentState c ↔ c.circular = true ∨ c.msgs.length < c.capacity := by
  unfold currentState
  split_ifs <;> simp_all

theorem tryPush_answer {c : EventChannel ℕ α} {x : α} {keep : Notification ℕ → Bool} {r : Answer α}
    {q : BoundedQueue α} (hopen : c.closed = false) (hd : c.queue.Does (.tryPush x keep) r q) :
    r = if c.circular = true ∨ c.msgs.length < c.capacity then .pushed true none else .pushed false (some x) := by
  simp only [BoundedQueue.Does] at hd
  rw [if_neg (show ¬c.queue.closed = true by simp [EventChannel.queue, hopen])] at hd
  split_ifs at hd with hroom hcirc
  · rw [hd.1, if_pos (.inr hroom)]
  · rw [hd.1, if_pos (.inl hcirc)]
  · have hno : ¬(c.circular = true ∨ c.msgs.length < c.capacity) := by
      rintro (h | h)
      · exact hcirc h
      · exact hroom h
    rw [hd.1, if_neg hno]

/-- A push leaves the channel alone, or changes the buffer and refreshes the state. -/
theorem tryPush_cases {ι : Type} {keep : Notification ι → Bool} {c c' : EventChannel ι α}
    {n : List (Notification ι)} {r : Answer α} {x : α} (h : tryPush keep c x = .ok (c', n, r)) :
    c' = c ∧ n = [] ∨ ∃ msgs, refreshChannelState keep { c with msgs := msgs } = (c', n) ∧ msgs ≠ [] := by
  have hrefresh : ∀ p : EventChannel ι α × List (Notification ι),
      Except.ok (p.1, p.2, Answer.pushed (α := α) true none) = (.ok (c', n, r) : Except Exception _) → p = (c', n) := by
    intro p hp
    have := Except.ok.inj hp
    exact Prod.ext (congrArg (fun t => t.1) this) (congrArg (fun t => t.2.1) this)
  unfold tryPush at h
  by_cases hcl : c.closed = true
  · rw [if_pos hcl] at h
    have := Except.ok.inj h
    exact .inl ⟨(congrArg (fun t => t.1) this).symm, (congrArg (fun t => t.2.1) this).symm⟩
  rw [if_neg hcl] at h
  by_cases hroom : c.msgs.length < c.capacity
  · rw [if_pos hroom] at h
    exact .inr ⟨_, hrefresh _ h, List.concat_ne_nil _ _⟩
  rw [if_neg hroom] at h
  by_cases hcirc : c.circular = true
  · rw [if_pos hcirc] at h
    by_cases hover : (c.msgs.tail ++ [x]).length > c.capacity
    · simp only [if_pos hover] at h
      cases h
    · simp only [if_neg hover] at h
      exact .inr ⟨_, hrefresh _ h, List.concat_ne_nil _ _⟩
  · rw [if_neg hcirc] at h
    have := Except.ok.inj h
    exact .inl ⟨(congrArg (fun t => t.1) this).symm, (congrArg (fun t => t.2.1) this).symm⟩

theorem tryGet_cases {ι : Type} (keep : Notification ι → Bool) (c : EventChannel ι α) :
    tryGet keep c = (c, [], .got none) ∨ ∃ msgs r, tryGet keep c =
      ((refreshChannelState keep { c with msgs := msgs }).1, (refreshChannelState keep { c with msgs := msgs }).2, r) ∧
      ∃ x, c.msgs = x :: msgs := by
  unfold tryGet
  cases c.msgs with
  | nil => exact .inl rfl
  | cons x l =>
    by_cases hcl : c.closed = true
    · simp only [if_pos hcl]
      exact .inl trivial
    · simp only [if_neg hcl]
      exact .inr ⟨l, _, rfl, x, rfl⟩

theorem Inv.maskRight {s : Session α} (h : Inv s) : MaskRight s := by
  refine ⟨fun keep => ?_, h.closed_iff, fun hopen keep x => ?_, fun _ _ => rfl, ?_⟩
  · rw [h.mem_mask (by decide), mem_currentState_readable]
    unfold tryGet
    cases hm : s.chan.msgs with
    | nil => simp
    | cons x l =>
      have hcl : ¬s.chan.closed = true := by
        intro hcl
        have hnil : s.chan.msgs = [] := h.queue.closed hcl
        rw [hm] at hnil
        cases hnil
      simp only [if_neg hcl]
      exact ⟨fun _ => ⟨x, rfl⟩, fun _ => List.cons_ne_nil x l⟩
  · rw [h.mem_mask (by decide), mem_currentState_writable]
    obtain ⟨c, n, r, he, hd⟩ := tryPush_does keep (fun _ => true) h.queue x
    have hr := tryPush_answer hopen hd
    constructor
    · intro hor
      exact ⟨c, n, by rw [he, hr, if_pos hor]⟩
    · rintro ⟨c', n', he'⟩
      have hr' : r = .pushed true none := congrArg (fun p => p.2.2) (Except.ok.inj (he.symm.trans he'))
      by_contra hor
      rw [if_neg hor] at hr
      cases hr.symm.trans hr'
  · intro hopen i m states hreg f hf hne hno
    rcases h.kept hopen i m states hreg f hf hne with hi | ⟨n, hn, hrest⟩
    · have halt := h.heard f i hi m states hreg
      exact ⟨halt.isChain, (mem_replay halt).trans decide_eq_true_iff⟩
    · exact absurd hrest (hno n hn)

/-- `close` is called on an empty buffer. -/
def CloseEmpty (c : Call α) (s : Session α) : Prop := c = .close → s.chan.msgs = []

theorem exec_step (c : Call α) {s : Session α} (h : Inv s) :
    ∃ s' r, exec c s = .ok (s', r) ∧ (CloseEmpty c s → Inv s') ∧ (MaskRight s' → CloseEmpty c s) := by
  have hne : ∀ d : Call α, d ≠ .close → CloseEmpty d s := fun d hd hc => absurd hc hd
  cases c with
  | tryPush x keep =>
    obtain ⟨c', n, r, he, hd⟩ := tryPush_does keep keep h.queue x
    refine ⟨s.become keep c' n, r, by simp only [exec, he]; rfl, fun _ => ?_, fun _ => hne _ (by simp)⟩
    have hvalid : c'.queue.Valid := h.queue.does hd
    rcases tryPush_cases he with ⟨rfl, rfl⟩ | ⟨msgs, hr, -⟩
    · exact h.stay keep
    · have hq := refreshChannelState_queue keep { s.chan with msgs := msgs }
      have := h.refresh keep msgs (hq ▸ (hr ▸ hvalid))
      rwa [hr] at this
  | tryGet keep =>
    refine ⟨s.become keep (tryGet keep s.chan).1 (tryGet keep s.chan).2.1, (tryGet keep s.chan).2.2, rfl,
      fun _ => ?_, fun _ => hne _ (by simp)⟩
    have hvalid : (tryGet keep s.chan).1.queue.Valid := h.queue.does (tryGet_does keep keep h.queue)
    rcases tryGet_cases keep s.chan with hg | ⟨msgs, r, hg, -⟩
    · rw [hg]
      exact h.stay keep
    · rw [hg] at hvalid ⊢
      exact h.refresh keep msgs (refreshChannelState_queue keep { s.chan with msgs := msgs } ▸ hvalid)
  | getAll keep =>
    exact ⟨_, _, rfl, fun _ => h.refresh keep [] ⟨h.queue.pos, Nat.zero_le _, fun _ => rfl⟩, fun _ => hne _ (by simp)⟩
  | clear keep =>
    exact ⟨_, _, rfl, fun _ => h.refresh keep [] ⟨h.queue.pos, Nat.zero_le _, fun _ => rfl⟩, fun _ => hne _ (by simp)⟩
  | close =>
    refine ⟨_, _, rfl, fun hc => h.close (hc rfl), fun hright _ => ?_⟩
    -- the flag that `close` left in the mask is that of a buffer that is gone
    by_contra hmsgs
    have hmem : .readable ∈ s.chan.stateMask := by
      rw [h.mem_mask (by decide), mem_currentState_readable]
      exact hmsgs
    obtain ⟨x, hx⟩ := (hright.readable fun _ => true).1 (Finset.mem_insert_of_mem hmem)
    cases hx
  | addMonitor states => exact ⟨_, _, rfl, fun _ => h.addMonitor states, fun _ => hne _ (by simp)⟩

/-- **The mask and the notifications are right after every call of a run** exactly when `close`
always finds the buffer empty. -/
theorem maskRight_iff {capacity : ℕ} {circular : Bool} {c : EventChannel ℕ α}
    (hc : eventChannel capacity circular = .ok c) (cs : List (Call α)) :
    After exec MaskRight cs (Session.start c) ↔ Meets exec CloseEmpty cs (Session.start c) := by
  refine after_iff_meets Inv (fun c s h => exec_step c h) (fun s h => h.maskRight) ?_
  have hvalid := (queue_start hc).2
  unfold eventChannel at hc
  split_ifs at hc with h0
  obtain rfl := Except.ok.inj hc
  have hroom : 0 < capacity := Nat.pos_of_ne_zero h0
  have hcur : currentState (ι := ℕ) (α := α) ⟨circular, capacity, false, [], [], [], {.writable}⟩ = {.writable} := by
    unfold currentState
    simp [hroom]
  refine ⟨hvalid, hcur.symm, List.nodup_nil, List.nodup_nil, ?_, by simp [Session.start], ?_, ?_⟩
  · intro f i hi
    cases f <;> cases hi
  · intro _ i m states hreg
    simp [Session.start] at hreg
  · intro f i hi
    cases f <;> cases hi

theorem maskRight_iff_two : ∃ c : EventChannel ℕ ℕ, eventChannel 1 false = .ok c ∧
    After exec MaskRight [.tryPush 7 fun _ => true, .tryGet fun _ => true, .close] (Session.start c) := by
  have hnew : ∃ c : EventChannel ℕ ℕ, eventChannel 1 false = .ok c := ⟨_, rfl⟩
  obtain ⟨c, hc⟩ := hnew
  refine ⟨c, hc, (maskRight_iff hc _).2 ?_⟩
  obtain rfl := Except.ok.inj hc
  refine ⟨by simp [CloseEmpty], fun s r h => ⟨by simp [CloseEmpty], fun s' r' h' => ⟨fun _ => ?_, fun _ _ _ => trivial⟩⟩⟩
  obtain ⟨rfl, -⟩ := Prod.mk.inj (Except.ok.inj h)
  obtain ⟨rfl, -⟩ := Prod.mk.inj (Except.ok.inj h')
  decide +kernel

/-- A channel that is closed with an event in it goes on telling that it is readable. -/
theorem closed_readable : ∃ (c : EventChannel ℕ ℕ) (s : Session ℕ) (rs : List (Answer ℕ)),
    eventChannel 1 false = .ok c ∧
      runCalls exec [.tryPush 7 fun _ => true, .close] (Session.start c) = .ok (s, rs) ∧
      .readable ∈ s.chan.stateMask ∧ (tryGet (fun _ => true) s.chan).2.2 = .got none :=
  ⟨_, _, _, rfl, rfl, by decide +kernel, rfl⟩

end Libtarp.Evchan
