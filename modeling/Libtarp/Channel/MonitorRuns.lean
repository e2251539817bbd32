import Libtarp.Channel.Monitor
import Libtarp.Channel.StateMask

/-!
# What a monitor reports

`Timely` is the condition on the interleaving: no notification comes under an id that is watched
on another channel by then, or for a flag its mask does not have; and the mask that `watch`
applies at the end has only such flags, which the channel still has or is about to clear.

* `Moves`: what a call on a channel does to the lists, the mask and the notifications.
* `notify_spec`: what a notification does to the monitor.
* `Watching.Inv`: the flags stored under an id are those of the channel watched under it, but for
  the notifications that are still to come.
* `reports_of_timely`: what is reported when no call is in progress.
-/

namespace Libtarp.Evchan

open Lib Function

variable {κ K α : Type} [DecidableEq κ] [DecidableEq K]

/-! ## Calls on a channel -/

/-- A call changes the buffer; the notifications in `n` are those of the flags that changed. -/
structure Moves {ι : Type} (c c' : EventChannel ι α) (n : List (Notification ι)) : Prop where
  monitors : ∀ f, c'.monitors f = c.monitors f
  closed : c'.closed = c.closed
  mask : c.closed = false → c.stateMask = currentState c → c'.stateMask = currentState c'
  noted : ∀ m ∈ n, m.event ≠ .closed ∧ (m.action = .apply ↔ m.event ∈ c'.stateMask)
  changed : ∀ f, f ≠ .closed → ∀ i ∈ c.monitors f,
    (f ∈ c.stateMask ↔ f ∈ c'.stateMask) ∨ ∃ m ∈ n, m.notifier = i ∧ m.event = f

theorem Moves.stay {ι : Type} (c : EventChannel ι α) : Moves c c [] :=
  ⟨fun _ => rfl, rfl, fun _ h => h, by simp, fun _ _ _ _ => .inl Iff.rfl⟩

/-- One flag of a refresh, where every notifier stays. -/
theorem sweep_all {ι : Type} (f : ChanState) (old new : Mask) (ls : List ι)
    {p₁ p₂ : List ι × List (Notification ι)}
    (h₁ : p₁ = if f ∈ new ∧ f ∉ old then notifyMonitors all f .apply ls else (ls, []))
    (h₂ : p₂ = if f ∈ old ∧ f ∉ new then notifyMonitors all f .clear p₁.1 else (p₁.1, [])) :
    p₂.1 = ls ∧ (∀ n ∈ p₁.2 ++ p₂.2, n.event = f ∧ (n.action = .apply ↔ f ∈ new)) ∧
      ∀ i ∈ ls, (f ∈ old ↔ f ∈ new) ∨ ∃ n ∈ p₁.2 ++ p₂.2, n.notifier = i ∧ n.event = f := by
  have hnotify : ∀ a, notifyMonitors all f a ls = (ls, ls.map fun i => ⟨i, f, a⟩) := by
    intro a
    unfold notifyMonitors all
    rw [List.filter_true]
  by_cases hold : f ∈ old
  · rw [if_neg (fun h => h.2 hold)] at h₁
    by_cases hnew : f ∈ new
    · rw [if_neg (fun h => h.2 hnew), h₁] at h₂
      subst h₁ h₂
      exact ⟨rfl, by simp, fun _ _ => .inl (by simp [hold, hnew])⟩
    · rw [if_pos ⟨hold, hnew⟩, h₁, hnotify] at h₂
      subst h₁ h₂
      refine ⟨rfl, by simp [hnew], fun i hi => .inr ⟨⟨i, f, .clear⟩, by simpa using hi, rfl, rfl⟩⟩
  · by_cases hnew : f ∈ new
    · rw [if_pos ⟨hnew, hold⟩, hnotify] at h₁
      rw [if_neg (fun h => hold h.1), h₁] at h₂
      subst h₁ h₂
      refine ⟨rfl, by simp [hnew], fun i hi => .inr ⟨⟨i, f, .apply⟩, by simpa using hi, rfl, rfl⟩⟩
    · rw [if_neg (fun h => hnew h.1)] at h₁
      rw [if_neg (fun h => hold h.1), h₁] at h₂
      subst h₁ h₂
      exact ⟨rfl, by simp, fun _ _ => .inl (by simp [hold, hnew])⟩

/-- **A refresh after the buffer has changed.** -/
theorem moves_refresh {ι : Type} (c : EventChannel ι α) (msgs : List α) :
    Moves c (refreshChannelState all { c with msgs := msgs }).1 (refreshChannelState all { c with msgs := msgs }).2 := by
  set c₁ : EventChannel ι α := { c with msgs := msgs }
  have hqueue := refreshChannelState_queue all c₁
  have hcur : currentState (refreshChannelState all c₁).1 = currentState c₁ := by
    have hmsgs : (refreshChannelState all c₁).1.msgs = c₁.msgs := congrArg BoundedQueue.items hqueue
    have hcap : (refreshChannelState all c₁).1.capacity = c₁.capacity := congrArg BoundedQueue.capacity hqueue
    have hcirc : (refreshChannelState all c₁).1.circular = c₁.circular := congrArg BoundedQueue.circular hqueue
    unfold currentState
    rw [hmsgs, hcap, hcirc]
  have hclosed : (refreshChannelState all c₁).1.closed = c.closed := congrArg BoundedQueue.closed hqueue
  by_cases hsame : currentState c₁ = c₁.stateMask
  · have hc : refreshChannelState all c₁ = (c₁, []) := by
      unfold refreshChannelState
      exact if_pos hsame
    rw [hc]
    exact ⟨fun f => by cases f <;> rfl, rfl, fun _ _ => hsame.symm, by simp, fun _ _ _ _ => .inl Iff.rfl⟩
  · -- each list of monitors is swept for a rising edge and then for a falling one
    obtain ⟨p₁, hp₁⟩ : ∃ p, p = if .readable ∈ currentState c₁ ∧ .readable ∉ c.stateMask then
      notifyMonitors all .readable .apply c.recvMonitors else (c.recvMonitors, []) := ⟨_, rfl⟩
    obtain ⟨q₁, hq₁⟩ : ∃ q, q = if .writable ∈ currentState c₁ ∧ .writable ∉ c.stateMask then
      notifyMonitors all .writable .apply c.sendMonitors else (c.sendMonitors, []) := ⟨_, rfl⟩
    obtain ⟨p₂, hp₂⟩ : ∃ p, p = if .readable ∈ c.stateMask ∧ .readable ∉ currentState c₁ then
      notifyMonitors all .readable .clear p₁.1 else (p₁.1, []) := ⟨_, rfl⟩
    obtain ⟨q₂, hq₂⟩ : ∃ q, q = if .writable ∈ c.stateMask ∧ .writable ∉ currentState c₁ then
      notifyMonitors all .writable .clear q₁.1 else (q₁.1, []) := ⟨_, rfl⟩
    have hc : refreshChannelState all c₁ =
        ({ c₁ with
            recvMonitors := p₂.1
            sendMonitors := q₂.1
            stateMask := if c₁.closed then insert .closed (currentState c₁) else currentState c₁ },
          p₁.2 ++ q₁.2 ++ p₂.2 ++ q₂.2) := by
      rw [hp₂, hq₂, hp₁, hq₁]
      unfold refreshChannelState
      exact if_neg hsame
    obtain ⟨hpls, hpev, hpall⟩ := sweep_all .readable c.stateMask (currentState c₁) c.recvMonitors hp₁ hp₂
    obtain ⟨hqls, hqev, hqall⟩ := sweep_all .writable c.stateMask (currentState c₁) c.sendMonitors hq₁ hq₂
    have hmem : ∀ f, f ≠ .closed → (f ∈ (refreshChannelState all c₁).1.stateMask ↔ f ∈ currentState c₁) := by
      intro f hf
      rw [hc]
      show f ∈ (if c₁.closed then insert .closed (currentState c₁) else currentState c₁) ↔ _
      split_ifs
      · rw [Finset.mem_insert, or_iff_right hf]
      · rfl
    have hnotes : ∀ m, m ∈ (refreshChannelState all c₁).2 ↔ m ∈ p₁.2 ++ p₂.2 ∨ m ∈ q₁.2 ++ q₂.2 := by
      intro m
      rw [hc]
      simp only [List.mem_append]
      tauto
    refine ⟨?_, hclosed, ?_, ?_, ?_⟩
    · intro f
      rw [hc]
      cases f with
      | closed => rfl
      | readable => exact hpls
      | writable => exact hqls
    · intro hopen _
      have hopen' : ¬c₁.closed = true := by
        show ¬c.closed = true
        simp [hopen]
      rw [hcur, hc]
      exact if_neg hopen'
    · intro m hm
      rcases (hnotes m).1 hm with hm | hm
      · obtain ⟨he, ha⟩ := hpev m hm
        rw [he]
        exact ⟨by decide, ha.trans (hmem _ (by decide)).symm⟩
      · obtain ⟨he, ha⟩ := hqev m hm
        rw [he]
        exact ⟨by decide, ha.trans (hmem _ (by decide)).symm⟩
    · intro f hf i hi
      rw [hmem f hf]
      cases f with
      | closed => exact absurd rfl hf
      | readable =>
        rcases hpall i hi with h | ⟨m, hm, hrest⟩
        · exact .inl h
        · exact .inr ⟨m, (hnotes m).2 (.inl hm), hrest⟩
      | writable =>
        rcases hqall i hi with h | ⟨m, hm, hrest⟩
        · exact .inl h
        · exact .inr ⟨m, (hnotes m).2 (.inr hm), hrest⟩

/-- The lists that a notifier is put on: those of the flags in the mask. -/
theorem monitors_addMonitor {ι : Type} (c : EventChannel ι α) (w : ι) (mask : Mask) {f : ChanState} (hne : f ≠ .closed) :
    (Evchan.addMonitor c w mask).1.monitors f = if f ∈ mask then c.monitors f ++ [w] else c.monitors f := by
  cases f with
  | closed => exact absurd rfl hne
  | readable => rfl
  | writable => rfl

theorem mem_monitors_addMonitor {ι : Type} {c : EventChannel ι α} {v : ι} {f : ChanState} (hv : v ∈ c.monitors f) (w : ι)
    (mask : Mask) : v ∈ (Evchan.addMonitor c w mask).1.monitors f := by
  have hne : f ≠ .closed := by
    rintro rfl
    cases hv
  rw [monitors_addMonitor c w mask hne]
  split_ifs
  · exact List.mem_append_left _ hv
  · exact hv

/-! ## Notifications -/

theorem notify_none {m : MonitorState K} {k : K} (events : Mask) (action : Action) (h : m.notified k = none) :
    notify m k events action = ({ m with edged := m.edged.erase k, high := m.high.erase k }, false) := by
  unfold notify
  rw [h]

/-- **A notification under an id that is watched.** -/
theorem notify_spec {m : MonitorState K} {k : K} {fl interest : Mask} (events : Mask) (action : Action)
    (h : m.notified k = some (fl, interest)) :
    (notify m k events action).2 = true ∧
      (notify m k events action).1.notified = update m.notified k (some (flagsAfter action fl events, interest)) ∧
      (∀ k', k' ≠ k → (k' ∈ (notify m k events action).1.high ↔ k' ∈ m.high)) ∧
      (∀ k', k' ≠ k → (k' ∈ (notify m k events action).1.edged ↔ k' ∈ m.edged)) ∧
      ((flagsAfter action fl events ∩ levels ∩ interest).Nonempty ∨ .closed ∈ flagsAfter action fl events →
        k ∈ (notify m k events action).1.high) := by
  unfold notify
  rw [h]
  refine ⟨rfl, rfl, fun k' hk => ?_, fun k' hk => ?_, fun hor => ?_⟩
  · simp only
    split_ifs <;> simp [hk]
  · simp only
    split_ifs <;> simp [hk]
  · simp only
    by_cases hclosed : .closed ∈ flagsAfter action fl events
    · rw [if_pos hclosed]
      exact Finset.mem_insert_self ..
    · rw [if_neg hclosed, if_pos (hor.resolve_right hclosed)]
      exact Finset.mem_insert_self ..

/-! ## The invariant -/

/-- The id `k` is watched on the channel `c`, with the flags `fl` stored and the mask `interest`. -/
def Watching (s : World κ K α) (k : K) (fl interest : Mask) (c : κ) : Prop :=
  s.mon.notified k = some (fl, interest) ∧ s.latest k = some c

namespace Watching

structure Inv (s : World κ K α) : Prop where
  mask : ∀ c, (s.chan c).closed = false → (s.chan c).stateMask = currentState (s.chan c)
  busy : ∀ c, ∀ n ∈ s.busy c, n.event ≠ .closed ∧ (n.action = .apply ↔ n.event ∈ (s.chan c).stateMask)
  watched : ∀ k, s.mon.notified k = none ↔ s.latest k = none
  /-- the channel has a notifier for each flag of interest -/
  kept : ∀ k fl interest c, Watching s k fl interest c → (s.chan c).closed = false → ∀ f ∈ interest, f ≠ .closed →
    ∃ w ∈ (s.chan c).monitors f, w.key = k
  /-- the flag stored is right, unless it will be set right -/
  level : ∀ k fl interest c, Watching s k fl interest c → (s.chan c).closed = false → ∀ f ∈ interest, f ≠ .closed →
    (∀ n ∈ s.busy c, ¬(n.notifier.key = k ∧ n.event = f)) → (f ∈ fl → f ∈ (s.chan c).stateMask) ∧
      (f ∈ (s.chan c).stateMask → f ∈ fl ∨ ∃ l ∈ s.late, l.notifier.key = k ∧ f ∈ l.events)
  inside : ∀ k fl interest, s.mon.notified k = some (fl, interest) → ∀ f ∈ fl, f = .closed ∨ f ∈ interest
  high : ∀ k ∈ s.mon.high, s.mon.notified k ≠ none
  edged : ∀ k ∈ s.mon.edged, s.mon.notified k ≠ none
  shown : ∀ k fl interest, s.mon.notified k = some (fl, interest) → fl ≠ ∅ → k ∈ s.mon.high

variable {s s' : World κ K α}

omit [DecidableEq K] in
/-- **A call on a channel.** -/
theorem Inv.begin (h : Inv s) {c : κ} (hc : s.busy c = []) {chan : EventChannel (Notifier κ K) α}
    {n : List (Notification (Notifier κ K))} (hm : Moves (s.chan c) chan n) : Inv (s.begin c chan n) := by
  have hbusy : (s.begin c chan n).busy c = n := update_self ..
  have hchan : (s.begin c chan n).chan c = chan := update_self ..
  have hbusy' : ∀ d, d ≠ c → (s.begin c chan n).busy d = s.busy d := fun d hd => update_of_ne hd _ _
  have hchan' : ∀ d, d ≠ c → (s.begin c chan n).chan d = s.chan d := fun d hd => update_of_ne hd _ _
  refine ⟨?_, ?_, h.watched, ?_, ?_, h.inside, h.high, h.edged, h.shown⟩
  · intro d hd
    by_cases hdc : d = c
    · subst hdc
      rw [hchan] at hd ⊢
      have hopen : (s.chan d).closed = false := hm.closed ▸ hd
      exact hm.mask hopen (h.mask d hopen)
    · rw [hchan' d hdc] at hd ⊢
      exact h.mask d hd
  · intro d m hmem
    by_cases hdc : d = c
    · subst hdc
      rw [hbusy] at hmem
      rw [hchan]
      exact hm.noted m hmem
    · rw [hbusy' d hdc] at hmem
      rw [hchan' d hdc]
      exact h.busy d m hmem
  · intro k fl interest d hw hd f hf hne
    by_cases hdc : d = c
    · subst hdc
      rw [hchan] at hd ⊢
      rw [hm.monitors f]
      exact h.kept k fl interest d hw (hm.closed ▸ hd) f hf hne
    · rw [hchan' d hdc] at hd ⊢
      exact h.kept k fl interest d hw hd f hf hne
  · intro k fl interest d hw hd f hf hne hno
    by_cases hdc : d = c
    · subst hdc
      rw [hchan] at hd ⊢
      rw [hbusy] at hno
      have hopen : (s.chan d).closed = false := hm.closed ▸ hd
      -- the flag has not changed: the notifier that is kept for it would have been called
      have hsame : f ∈ (s.chan d).stateMask ↔ f ∈ chan.stateMask := by
        obtain ⟨w, hw', hkey⟩ := h.kept k fl interest d hw hopen f hf hne
        rcases hm.changed f hne w hw' with hsame | ⟨m, hmem, hmw, hmf⟩
        · exact hsame
        · exact absurd ⟨by rw [hmw, hkey], hmf⟩ (hno m hmem)
      rw [← hsame]
      exact h.level k fl interest d hw hopen f hf hne (by rw [hc]; simp)
    · rw [hchan' d hdc] at hd ⊢
      rw [hbusy' d hdc] at hno
      exact h.level k fl interest d hw hd f hf hne hno

omit [DecidableEq K] in
/-- **`close`**: nothing is said of a closed channel any more. -/
theorem Inv.close (h : Inv s) (c : κ) {late : List (Late κ K)} (hl : ∀ l ∈ s.late, l ∈ late) :
    Inv { s with chan := update s.chan c (Evchan.close (s.chan c)).1, late := late } := by
  set chan := update s.chan c (Evchan.close (s.chan c)).1 with hchandef
  -- a channel that is still open is another one, and has not changed
  have hclosed : ∀ d, (chan d).closed = false → d ≠ c ∧ chan d = s.chan d := by
    intro d hd
    by_cases hdc : d = c
    · rw [hdc, hchandef, update_self] at hd
      cases hd
    · exact ⟨hdc, update_of_ne hdc _ _⟩
  refine ⟨?_, ?_, h.watched, ?_, ?_, h.inside, h.high, h.edged, h.shown⟩
  · intro d hd
    have heq := (hclosed d hd).2
    show (chan d).stateMask = currentState (chan d)
    rw [heq]
    exact h.mask d (heq ▸ hd)
  · intro d m hmem
    obtain ⟨hne, ha⟩ := h.busy d m hmem
    refine ⟨hne, ha.trans ?_⟩
    show _ ↔ m.event ∈ (chan d).stateMask
    by_cases hdc : d = c
    · rw [hdc, hchandef, update_self]
      exact (Finset.mem_insert.trans (or_iff_right hne)).symm
    · rw [hchandef, update_of_ne hdc]
  · intro k fl interest d hw hd f hf hne
    have heq := (hclosed d hd).2
    show ∃ w ∈ (chan d).monitors f, w.key = k
    rw [heq]
    exact h.kept k fl interest d hw (heq ▸ hd) f hf hne
  · intro k fl interest d hw hd f hf hne hno
    have heq := (hclosed d hd).2
    show (f ∈ fl → f ∈ (chan d).stateMask) ∧ (f ∈ (chan d).stateMask → _)
    rw [heq]
    obtain ⟨h1, h2⟩ := h.level k fl interest d hw (heq ▸ hd) f hf hne hno
    refine ⟨h1, fun hmem => ?_⟩
    rcases h2 hmem with hfl | ⟨l, hmeml, hrest⟩
    · exact .inl hfl
    · exact .inr ⟨l, hl l hmeml, hrest⟩

omit [DecidableEq κ] in
/-- **`unwatch`.** -/
theorem Inv.unwatch (h : Inv s) (id : K) : Inv { s with
    mon := { notified := update s.mon.notified id none, edged := s.mon.edged.erase id, high := s.mon.high.erase id }
    latest := update s.latest id none } := by
  have hold : ∀ k p, update s.mon.notified id none k = some p → k ≠ id ∧ s.mon.notified k = some p := by
    intro k p hk
    by_cases hki : k = id
    · rw [hki, update_self] at hk
      cases hk
    · exact ⟨hki, by rwa [update_of_ne hki] at hk⟩
  have hw : ∀ k fl interest c, update s.mon.notified id none k = some (fl, interest) ∧
      update s.latest id none k = some c → Watching s k fl interest c := by
    rintro k fl interest c ⟨h1, h2⟩
    obtain ⟨hki, h1⟩ := hold k _ h1
    exact ⟨h1, by rwa [update_of_ne hki] at h2⟩
  refine ⟨h.mask, h.busy, ?_, ?_, ?_, ?_, ?_, ?_, ?_⟩
  · intro k
    show update s.mon.notified id none k = none ↔ update s.latest id none k = none
    by_cases hki : k = id
    · rw [hki, update_self, update_self]
      simp
    · rw [update_of_ne hki, update_of_ne hki]
      exact h.watched k
  · intro k fl interest c hk
    exact h.kept k fl interest c (hw k fl interest c hk)
  · intro k fl interest c hk
    exact h.level k fl interest c (hw k fl interest c hk)
  · intro k fl interest hk
    exact h.inside k fl interest (hold k _ hk).2
  · intro k hk
    obtain ⟨hne, hk⟩ := Finset.mem_erase.1 hk
    show update s.mon.notified id none k ≠ none
    rw [update_of_ne hne]
    exact h.high k hk
  · intro k hk
    obtain ⟨hne, hk⟩ := Finset.mem_erase.1 hk
    show update s.mon.notified id none k ≠ none
    rw [update_of_ne hne]
    exact h.edged k hk
  · intro k fl interest hk hfl
    obtain ⟨hne, hk⟩ := hold k _ hk
    exact Finset.mem_erase.2 ⟨hne, h.shown k fl interest hk hfl⟩

omit [DecidableEq κ] in
/-- An id that is watched anew is watched, and the others are as before. -/
theorem update_some_ne_none {β : Type} {f : K → Option β} {k : K} (h : f k ≠ none) (id : K) (x : β) :
    update f id (some x) k ≠ none := by
  by_cases hki : k = id
  · rw [hki, update_self]
    exact Option.some_ne_none x
  · rwa [update_of_ne hki]

/-- **`watch`**, up to the mask it applies at the end. -/
theorem Inv.watch (h : Inv s) (c : κ) (mask : Mask) (id : K) {late : List (Late κ K)} {n : ℕ}
    (hl : ∀ l ∈ s.late, l ∈ late)
    (hp : ((s.chan c).stateMask ∩ mask).Nonempty → ⟨⟨id, c, s.watches⟩, (s.chan c).stateMask⟩ ∈ late) :
    Inv { s with
      mon := { s.mon with notified := update s.mon.notified id (some (∅, mask)) }
      chan := update s.chan c (Evchan.addMonitor (s.chan c) ⟨id, c, s.watches⟩ mask).1
      late := late
      latest := update s.latest id (some c)
      watches := n } := by
  set w : Notifier κ K := ⟨id, c, s.watches⟩
  set chan := update s.chan c (Evchan.addMonitor (s.chan c) w mask).1 with hchandef
  have hat : chan c = (Evchan.addMonitor (s.chan c) w mask).1 := update_self ..
  have hsame : ∀ d, (chan d).closed = (s.chan d).closed ∧ (chan d).stateMask = (s.chan d).stateMask ∧
      currentState (chan d) = currentState (s.chan d) := by
    intro d
    by_cases hdc : d = c
    · rw [hdc, hat]
      exact ⟨rfl, rfl, rfl⟩
    · rw [hchandef, update_of_ne hdc]
      exact ⟨rfl, rfl, rfl⟩
  have hmon : ∀ d f, ∀ v ∈ (s.chan d).monitors f, v ∈ (chan d).monitors f := by
    intro d f v hv
    by_cases hdc : d = c
    · subst hdc
      rw [hat]
      exact mem_monitors_addMonitor hv w mask
    · rw [hchandef, update_of_ne hdc]
      exact hv
  have hnew : ∀ f ∈ mask, f ≠ .closed → w ∈ (chan c).monitors f := by
    intro f hf hne
    rw [hat, monitors_addMonitor _ _ _ hne, if_pos hf]
    exact List.mem_append_right _ (List.mem_singleton_self w)
  -- what is watched now was watched before, or is the new id
  have hcase : ∀ k fl interest d, update s.mon.notified id (some (∅, mask)) k = some (fl, interest) →
      update s.latest id (some c) k = some d →
      k = id ∧ fl = ∅ ∧ interest = mask ∧ d = c ∨ k ≠ id ∧ Watching s k fl interest d := by
    intro k fl interest d h1 h2
    by_cases hki : k = id
    · rw [hki, update_self] at h1 h2
      obtain ⟨rfl, rfl⟩ := Prod.mk.inj (Option.some.inj h1)
      exact .inl ⟨hki, rfl, rfl, (Option.some.inj h2).symm⟩
    · rw [update_of_ne hki] at h1 h2
      exact .inr ⟨hki, h1, h2⟩
  refine ⟨?_, ?_, ?_, ?_, ?_, ?_, ?_, ?_, ?_⟩
  · intro d hd
    obtain ⟨h1, h2, h3⟩ := hsame d
    show (chan d).stateMask = currentState (chan d)
    rw [h2, h3]
    exact h.mask d (h1 ▸ hd)
  · intro d m hm
    obtain ⟨hne, ha⟩ := h.busy d m hm
    refine ⟨hne, ha.trans ?_⟩
    show _ ↔ m.event ∈ (chan d).stateMask
    rw [(hsame d).2.1]
  · intro k
    show update s.mon.notified id (some (∅, mask)) k = none ↔ update s.latest id (some c) k = none
    by_cases hki : k = id
    · rw [hki, update_self, update_self]
      simp
    · rw [update_of_ne hki, update_of_ne hki]
      exact h.watched k
  · intro k fl interest d hw hd f hf hne
    rcases hcase k fl interest d hw.1 hw.2 with ⟨rfl, -, rfl, rfl⟩ | ⟨hki, hw'⟩
    · exact ⟨w, hnew f hf hne, rfl⟩
    · obtain ⟨v, hv, hkey⟩ := h.kept k fl interest d hw' ((hsame d).1 ▸ hd) f hf hne
      exact ⟨v, hmon d f v hv, hkey⟩
  · intro k fl interest d hw hd f hf hne hno
    show (f ∈ fl → f ∈ (chan d).stateMask) ∧ (f ∈ (chan d).stateMask → _)
    rw [(hsame d).2.1]
    rcases hcase k fl interest d hw.1 hw.2 with ⟨rfl, rfl, rfl, rfl⟩ | ⟨hki, hw'⟩
    · refine ⟨fun hmem => absurd hmem (Finset.notMem_empty f), fun hmem => .inr ?_⟩
      exact ⟨_, hp ⟨f, Finset.mem_inter.2 ⟨hmem, hf⟩⟩, rfl, hmem⟩
    · obtain ⟨h1, h2⟩ := h.level k fl interest d hw' ((hsame d).1 ▸ hd) f hf hne hno
      refine ⟨h1, fun hmem => ?_⟩
      rcases h2 hmem with hfl | ⟨l, hmeml, hrest⟩
      · exact .inl hfl
      · exact .inr ⟨l, hl l hmeml, hrest⟩
  · intro k fl interest hk
    by_cases hki : k = id
    · rw [hki] at hk
      obtain ⟨rfl, -⟩ := Prod.mk.inj (Option.some.inj ((update_self id (some (∅, mask)) s.mon.notified).symm.trans hk))
      intro f hf
      exact absurd hf (Finset.notMem_empty f)
    · exact h.inside k fl interest ((update_of_ne hki _ _).symm.trans hk)
  · intro k hk
    exact update_some_ne_none (h.high k hk) id _
  · intro k hk
    exact update_some_ne_none (h.edged k hk) id _
  · intro k fl interest hk hfl
    by_cases hki : k = id
    · rw [hki] at hk
      obtain ⟨rfl, -⟩ := Prod.mk.inj (Option.some.inj ((update_self id (some (∅, mask)) s.mon.notified).symm.trans hk))
      exact absurd rfl hfl
    · exact h.shown k fl interest ((update_of_ne hki _ _).symm.trans hk) hfl

omit [DecidableEq κ] in
/-- A notification for an id that is not watched changes nothing. -/
theorem Inv.notify_none (h : Inv s) {k : K} (events : Mask) (action : Action) (hk : s.mon.notified k = none) :
    notify s.mon k events action = (s.mon, false) := by
  rw [Evchan.notify_none events action hk, Finset.erase_eq_of_notMem fun hm => h.edged k hm hk,
    Finset.erase_eq_of_notMem fun hm => h.high k hm hk]

/-- **A notification under a watched id** that brings the stored flags nearer to the channel's. -/
theorem Inv.notified (h : Inv s) {k : K} {fl interest : Mask} (events : Mask) (action : Action)
    (hk : s.mon.notified k = some (fl, interest)) {busy : κ → List (Notification (Notifier κ K))}
    {late : List (Late κ K)} (hb : ∀ c, ∀ n ∈ busy c, n ∈ s.busy c)
    (hinside : ∀ f ∈ flagsAfter action fl events, f = .closed ∨ f ∈ interest)
    (hothers : ∀ c, ∀ n ∈ s.busy c, n ∉ busy c → n.notifier.key = k) (hlate : ∀ l ∈ s.late, l ∉ late → l.notifier.key = k)
    (hlevel : ∀ c, s.latest k = some c → (s.chan c).closed = false → ∀ f ∈ interest, f ≠ .closed →
      (∀ n ∈ busy c, ¬(n.notifier.key = k ∧ n.event = f)) →
        (f ∈ flagsAfter action fl events → f ∈ (s.chan c).stateMask) ∧
          (f ∈ (s.chan c).stateMask → f ∈ flagsAfter action fl events ∨ ∃ l ∈ late, l.notifier.key = k ∧ f ∈ l.events)) :
    Inv { s with mon := (notify s.mon k events action).1, busy := busy, late := late } := by
  obtain ⟨-, hmap, hhigh, hedged, hin⟩ := notify_spec events action hk
  set m := (notify s.mon k events action).1
  have hnone : ∀ k', m.notified k' = none ↔ s.mon.notified k' = none := by
    intro k'
    rw [hmap]
    by_cases hkk : k' = k
    · rw [hkk, update_self, hk]
      simp
    · rw [update_of_ne hkk]
  -- an id that is reported is still watched
  have hstill : ∀ k', (k' ≠ k → s.mon.notified k' ≠ none) → m.notified k' ≠ none := by
    intro k' hk'
    rw [ne_eq, hnone]
    by_cases hkk : k' = k
    · rw [hkk, hk]
      simp
    · exact hk' hkk
  have hcase : ∀ k' fl' interest', m.notified k' = some (fl', interest') →
      k' = k ∧ fl' = flagsAfter action fl events ∧ interest' = interest ∨
        k' ≠ k ∧ s.mon.notified k' = some (fl', interest') := by
    intro k' fl' interest' hk'
    rw [hmap] at hk'
    by_cases hkk : k' = k
    · rw [hkk, update_self] at hk'
      obtain ⟨rfl, rfl⟩ := Prod.mk.inj (Option.some.inj hk')
      exact .inl ⟨hkk, rfl, rfl⟩
    · rw [update_of_ne hkk] at hk'
      exact .inr ⟨hkk, hk'⟩
  refine ⟨h.mask, fun c n hn => h.busy c n (hb c n hn), fun k' => (hnone k').trans (h.watched k'), ?_, ?_, ?_, ?_, ?_, ?_⟩
  · rintro k' fl' interest' c ⟨h1, h2⟩ hc f hf hne
    rcases hcase k' fl' interest' h1 with ⟨rfl, -, rfl⟩ | ⟨-, h1⟩
    · exact h.kept k' fl interest' c ⟨hk, h2⟩ hc f hf hne
    · exact h.kept k' fl' interest' c ⟨h1, h2⟩ hc f hf hne
  · rintro k' fl' interest' c ⟨h1, h2⟩ hc f hf hne hno
    rcases hcase k' fl' interest' h1 with ⟨rfl, rfl, rfl⟩ | ⟨hkk, h1⟩
    · exact hlevel c h2 hc f hf hne hno
    · have hno' : ∀ n ∈ s.busy c, ¬(n.notifier.key = k' ∧ n.event = f) := by
        intro n hn hnk
        by_cases hmem : n ∈ busy c
        · exact hno n hmem hnk
        · exact hkk (hnk.1.symm.trans (hothers c n hn hmem))
      obtain ⟨h3, h4⟩ := h.level k' fl' interest' c ⟨h1, h2⟩ hc f hf hne hno'
      refine ⟨h3, fun hmem => ?_⟩
      rcases h4 hmem with hfl | ⟨l, hl, hlk, hlf⟩
      · exact .inl hfl
      · refine .inr ⟨l, by_contra fun hno => ?_, hlk, hlf⟩
        exact hkk (hlk.symm.trans (hlate l hl hno))
  · intro k' fl' interest' hk' f hf
    rcases hcase k' fl' interest' hk' with ⟨-, rfl, rfl⟩ | ⟨-, h1⟩
    · exact hinside f hf
    · exact h.inside k' fl' interest' h1 f hf
  · intro k' hk'
    exact hstill k' fun hkk => h.high k' ((hhigh k' hkk).1 hk')
  · intro k' hk'
    exact hstill k' fun hkk => h.edged k' ((hedged k' hkk).1 hk')
  · intro k' fl' interest' hk' hfl
    rcases hcase k' fl' interest' hk' with ⟨rfl, rfl, rfl⟩ | ⟨hkk, h1⟩
    · obtain ⟨f, hf⟩ := Finset.nonempty_iff_ne_empty.2 hfl
      apply hin
      rcases hinside f hf with rfl | hint
      · exact .inr hf
      · cases f with
        | closed => exact .inr hf
        | readable => exact .inl ⟨.readable, by simp [hf, hint, levels]⟩
        | writable => exact .inl ⟨.writable, by simp [hf, hint, levels]⟩
    · exact (hhigh k' hkk).2 (h.shown k' fl' interest' h1 hfl)

theorem mem_flagsAfter_of_ne {action : Action} {fl : Mask} {e f : ChanState} (hef : f ≠ e) :
    f ∈ flagsAfter action fl {e} ↔ f ∈ fl := by
  cases action <;> simp [flagsAfter, hef]

theorem mem_flagsAfter_self {action : Action} {fl : Mask} {e : ChanState} :
    e ∈ flagsAfter action fl {e} ↔ action = .apply := by
  cases action <;> simp [flagsAfter]

/-- The condition on the interleaving. It is about the notifications that reach the monitor. -/
def Timely : Event κ K α → World κ K α → Prop
  | .deliver c, s => ∀ n rest, s.busy c = n :: rest → ∀ fl interest,
      s.mon.notified n.notifier.key = some (fl, interest) → s.latest n.notifier.key = some c ∧ n.event ∈ interest
  | .apply l, s => ∀ fl interest, s.mon.notified l.notifier.key = some (fl, interest) →
      s.latest l.notifier.key = some l.notifier.home ∧ ∀ f ∈ l.events, f ≠ .closed → f ∈ interest ∧
        ((s.chan l.notifier.home).closed = false → f ∈ (s.chan l.notifier.home).stateMask ∨
          ∃ n ∈ s.busy l.notifier.home, n.notifier.key = l.notifier.key ∧ n.event = f)
  | _, _ => True

/-- Where one list begins with an element, its rest is part of it. -/
theorem mem_of_mem_rest {ν : Type} {busy : κ → List ν} {c : κ} {n : ν} {rest : List ν} (hb : busy c = n :: rest) :
    ∀ d, ∀ m ∈ update busy c rest d, m ∈ busy d := by
  intro d m hm
  by_cases hdc : d = c
  · subst hdc
    rw [update_self] at hm
    rw [hb]
    exact List.mem_cons_of_mem _ hm
  · rwa [update_of_ne hdc] at hm

/-- The next notification of a call, for an id that is watched. -/
theorem Inv.deliver (h : Inv s) {c : κ} {n : Notification (Notifier κ K)}
    {rest : List (Notification (Notifier κ K))} (hb : s.busy c = n :: rest) {fl interest : Mask}
    (hk : s.mon.notified n.notifier.key = some (fl, interest))
    (ht : s.latest n.notifier.key = some c ∧ n.event ∈ interest) :
    Inv { s with mon := (notify s.mon n.notifier.key {n.event} n.action).1, busy := update s.busy c rest } := by
  have hn : n ∈ s.busy c := by
    rw [hb]
    exact List.mem_cons_self ..
  have hsub := mem_of_mem_rest hb
  refine h.notified {n.event} n.action hk hsub ?_ ?_ (fun l hl hno => absurd hl hno) ?_
  · intro f hf
    -- the flag of the event is what its notification says, and the other flags stay
    by_cases hfe : f = n.event
    · exact .inr (hfe ▸ ht.2)
    · exact h.inside _ fl interest hk f ((mem_flagsAfter_of_ne hfe).1 hf)
  · intro d m hm hno
    by_cases hdc : d = c
    · subst hdc
      rw [update_self] at hno
      rw [hb] at hm
      rcases List.mem_cons.1 hm with rfl | hm
      · rfl
      · exact absurd hm hno
    · rw [update_of_ne hdc] at hno
      exact absurd hm hno
  · intro d hd hopen f hf hne hno
    obtain rfl : d = c := Option.some.inj (hd.symm.trans ht.1)
    rw [update_self] at hno
    by_cases hfe : f = n.event
    · subst hfe
      have ha := (h.busy d n hn).2
      rw [mem_flagsAfter_self, ha]
      exact ⟨id, .inl⟩
    · rw [mem_flagsAfter_of_ne hfe]
      refine h.level _ fl interest d ⟨hk, hd⟩ hopen f hf hne fun m hm hmf => ?_
      rw [hb] at hm
      rcases List.mem_cons.1 hm with rfl | hm
      · exact hfe hmf.2.symm
      · exact hno m hm hmf

/-- A notification made when no mutex is held, for an id that is watched. -/
theorem Inv.apply (h : Inv s) {l : Late κ K} {fl interest : Mask}
    (hk : s.mon.notified l.notifier.key = some (fl, interest)) (ht : Timely (α := α) (.apply l) s) :
    Inv { s with mon := (notify s.mon l.notifier.key l.events .apply).1, late := s.late.erase l } := by
  obtain ⟨hlat, hev⟩ := ht fl interest hk
  refine h.notified l.events .apply hk (fun _ _ hn => hn) ?_ (fun c n hn hno => absurd hn hno) ?_ ?_
  · intro f hf
    rcases Finset.mem_union.1 hf with hf | hf
    · exact h.inside _ fl interest hk f hf
    · by_cases hfc : f = .closed
      · exact .inl hfc
      · exact .inr (hev f hf hfc).1
  · intro l' hl' hno
    by_cases hll : l' = l
    · rw [hll]
    · exact absurd ((List.mem_erase_of_ne hll).2 hl') hno
  · intro c hc hopen f hf hne hno
    obtain rfl : c = l.notifier.home := Option.some.inj (hc.symm.trans hlat)
    obtain ⟨h1, h2⟩ := h.level _ fl interest _ ⟨hk, hlat⟩ hopen f hf hne hno
    constructor
    · intro hmem
      rcases Finset.mem_union.1 hmem with hmem | hmem
      · exact h1 hmem
      · rcases (hev f hmem hne).2 hopen with hmask | ⟨n, hn, hnf⟩
        · exact hmask
        · exact absurd hnf (hno n hn)
    · intro hmem
      rcases h2 hmem with hfl | ⟨l', hl', hlk, hlf⟩
      · exact .inl (Finset.mem_union_left _ hfl)
      · by_cases hll : l' = l
        · exact .inl (Finset.mem_union_right _ (hll ▸ hlf))
        · exact .inr ⟨l', (List.mem_erase_of_ne hll).2 hl', hlk, hlf⟩

/-- A notification that comes when the id is not watched any more: the notifier is dropped. -/
theorem Inv.dropped (h : Inv s) {c : κ} {n : Notification (Notifier κ K)}
    {rest : List (Notification (Notifier κ K))} (hb : s.busy c = n :: rest)
    (hk : s.mon.notified n.notifier.key = none) :
    Inv { s with busy := update s.busy c rest, chan := update s.chan c (drop (s.chan c) n.event n.notifier) } := by
  set chan := update s.chan c (drop (s.chan c) n.event n.notifier) with hchandef
  -- only the lists of monitors of one channel change
  have hsame : ∀ d, (chan d).closed = (s.chan d).closed ∧ (chan d).stateMask = (s.chan d).stateMask ∧
      currentState (chan d) = currentState (s.chan d) := by
    intro d
    by_cases hdc : d = c
    · rw [hdc, hchandef, update_self]
      unfold drop
      cases n.event <;> exact ⟨rfl, rfl, rfl⟩
    · rw [hchandef, update_of_ne hdc]
      exact ⟨rfl, rfl, rfl⟩
  have hmon : ∀ d f, ∀ v ∈ (s.chan d).monitors f, v ≠ n.notifier → v ∈ (chan d).monitors f := by
    intro d f v hv hne
    by_cases hdc : d = c
    · subst hdc
      rw [hchandef, update_self]
      unfold drop
      cases n.event <;> cases f <;> first
        | exact hv
        | exact List.mem_filter.2 ⟨hv, by simpa using hne⟩
    · rw [hchandef, update_of_ne hdc]
      exact hv
  have hsub := mem_of_mem_rest hb
  -- the notifier that is dropped is of no key that is watched
  have hkey : ∀ k fl interest d, Watching s k fl interest d → k ≠ n.notifier.key := by
    rintro k fl interest d hw rfl
    cases hk.symm.trans hw.1
  refine ⟨?_, ?_, h.watched, ?_, ?_, h.inside, h.high, h.edged, h.shown⟩
  · intro d hd
    obtain ⟨h1, h2, h3⟩ := hsame d
    show (chan d).stateMask = currentState (chan d)
    rw [h2, h3]
    exact h.mask d (h1 ▸ hd)
  · intro d m hm
    obtain ⟨hne, ha⟩ := h.busy d m (hsub d m hm)
    refine ⟨hne, ha.trans ?_⟩
    show _ ↔ m.event ∈ (chan d).stateMask
    rw [(hsame d).2.1]
  · intro k fl interest d hw hd f hf hne
    obtain ⟨v, hv, hvk⟩ := h.kept k fl interest d hw ((hsame d).1 ▸ hd) f hf hne
    refine ⟨v, hmon d f v hv ?_, hvk⟩
    rintro rfl
    exact hkey k fl interest d hw hvk.symm
  · intro k fl interest d hw hd f hf hne hno
    show (f ∈ fl → f ∈ (chan d).stateMask) ∧ (f ∈ (chan d).stateMask → _)
    rw [(hsame d).2.1]
    refine h.level k fl interest d hw ((hsame d).1 ▸ hd) f hf hne fun m hm hmf => ?_
    by_cases hdc : d = c
    · subst hdc
      rw [hb] at hm
      rcases List.mem_cons.1 hm with rfl | hm
      · exact hkey k fl interest d hw hmf.1.symm
      · exact hno m (by rw [show (World.mk _ _ _ _ _ _).busy d = update s.busy d rest d from rfl, update_self]; exact hm) hmf
    · exact hno m (by rw [show (World.mk _ _ _ _ _ _).busy d = update s.busy c rest d from rfl, update_of_ne hdc]; exact hm) hmf

/-- **One event keeps the invariant.** -/
theorem Inv.step (h : Inv s) {e : Event κ K α} (ht : Timely e s) (he : World.step e s = some s') : Inv s' := by
  cases e with
  | tryPush c x =>
    simp only [World.step] at he
    split_ifs at he with hb
    split at he
    · rename_i chan n r hp
      obtain rfl := Option.some.inj he
      rcases tryPush_cases hp with ⟨rfl, rfl⟩ | ⟨msgs, hr, -⟩
      · exact h.begin hb (Moves.stay _)
      · have hm := moves_refresh (s.chan c) msgs
        change refreshChannelState all { s.chan c with msgs := msgs } = (chan, n) at hr
        rw [hr] at hm
        exact h.begin hb hm
    · cases he
  | tryGet c =>
    simp only [World.step] at he
    split_ifs at he with hb
    obtain rfl := Option.some.inj he
    rcases tryGet_cases all (s.chan c) with hg | ⟨msgs, r, hg, -⟩
    · rw [hg]
      exact h.begin hb (Moves.stay _)
    · rw [hg]
      exact h.begin hb (moves_refresh (s.chan c) msgs)
  | getAll c =>
    simp only [World.step] at he
    split_ifs at he with hb
    obtain rfl := Option.some.inj he
    exact h.begin hb (moves_refresh (s.chan c) [])
  | clear c =>
    simp only [World.step] at he
    split_ifs at he with hb
    obtain rfl := Option.some.inj he
    exact h.begin hb (moves_refresh (s.chan c) [])
  | close c =>
    simp only [World.step] at he
    split_ifs at he with hb
    obtain rfl := Option.some.inj he
    exact h.close c fun l hl => List.mem_append_left _ hl
  | watch c mask id =>
    simp only [World.step] at he
    split_ifs at he with hb hp
    · obtain rfl := Option.some.inj he
      exact h.watch c mask id (fun l hl => List.mem_append_left _ hl)
        fun _ => List.mem_append_right _ (List.mem_singleton_self _)
    · obtain rfl := Option.some.inj he
      exact h.watch c mask id (fun l hl => hl) fun hne => absurd hne hp
  | unwatch id =>
    obtain rfl := Option.some.inj he
    exact h.unwatch id
  | deliver c =>
    simp only [World.step] at he
    cases hb : s.busy c with
    | nil =>
      rw [hb] at he
      cases he
    | cons n rest =>
      rw [hb] at he
      obtain rfl := Option.some.inj he
      cases hk : s.mon.notified n.notifier.key with
      | none =>
        rw [h.notify_none {n.event} n.action hk]
        exact h.dropped hb hk
      | some p =>
        rw [(notify_spec {n.event} n.action hk).1]
        exact h.deliver hb hk (ht n rest hb p.1 p.2 hk)
  | apply l =>
    simp only [World.step] at he
    split_ifs at he with hl
    obtain rfl := Option.some.inj he
    cases hk : s.mon.notified l.notifier.key with
    | none =>
      -- the id is watched no more, so what was pending for it need not be shown
      rw [h.notify_none l.events .apply hk]
      refine ⟨h.mask, h.busy, h.watched, h.kept, ?_, h.inside, h.high, h.edged, h.shown⟩
      intro k fl interest c hw hc f hf hne hno
      obtain ⟨h1, h2⟩ := h.level k fl interest c hw hc f hf hne hno
      refine ⟨h1, fun hmem => ?_⟩
      rcases h2 hmem with hfl | ⟨l', hl', hlk, hlf⟩
      · exact .inl hfl
      · refine .inr ⟨l', (List.mem_erase_of_ne ?_).2 hl', hlk, hlf⟩
        rintro rfl
        rw [hlk] at hk
        cases hk.symm.trans hw.1
    | some p => exact h.apply hk ht

omit [DecidableEq κ] in
/-- What `getLatest` returns: the ids with any flags stored. -/
theorem Inv.getLatest (h : Inv s) : ∃ m report, getLatest s.mon = .ok (m, report) ∧
    ∀ k events, (k, events) ∈ report ↔ events ≠ ∅ ∧ ∃ interest, s.mon.notified k = some (events, interest) := by
  unfold Evchan.getLatest
  rw [if_neg (by rintro ⟨k, hk, hno⟩; exact h.high k hk hno)]
  refine ⟨_, _, rfl, fun k events => ?_⟩
  rw [Finset.mem_filter, Finset.mem_image]
  constructor
  · rintro ⟨⟨k', hk', he⟩, hne⟩
    obtain ⟨rfl, rfl⟩ := Prod.mk.inj he
    refine ⟨hne, ?_⟩
    cases hn : s.mon.notified k' with
    | none => exact absurd hn (h.high k' hk')
    | some p => exact ⟨p.2, rfl⟩
  · rintro ⟨hne, interest, hk⟩
    exact ⟨⟨k, h.shown k events interest hk hne, by rw [hk]; rfl⟩, hne⟩

end Watching

/-! ## Every interleaving -/

/-- The event is a notification from a channel that is not watched under its id any more. -/
def Stale : Event κ K α → World κ K α → Prop
  | .deliver c, s => ∃ n rest, s.busy c = n :: rest ∧ s.latest n.notifier.key ≠ some c
  | .apply l, s => s.latest l.notifier.key ≠ some l.notifier.home
  | _, _ => False

/-- What the monitor reports, and what it does not. -/
structure Reports (s : World κ K α) (report : Finset (K × Mask)) : Prop where
  /-- only flags of the mask the id is watched with -/
  inside : ∀ k events, (k, events) ∈ report → ∃ fl interest c, Watching s k fl interest c ∧
    ∀ f ∈ events, f = .closed ∨ f ∈ interest
  /-- when no call is in progress, those that the channel watched last under the id has -/
  levels : s.Quiet → ∀ k, (∀ c, s.latest k = some c → (s.chan c).closed = false) → ∀ f, f ≠ .closed →
    ((∃ events, (k, events) ∈ report ∧ f ∈ events) ↔
      ∃ fl interest c, Watching s k fl interest c ∧ f ∈ interest ∧ f ∈ currentState (s.chan c))

/-- **What a monitor reports**, in every state of every interleaving whose notifications meet
`Timely`; and a notification from a channel that was unwatched or replaced changes nothing. -/
theorem reports_of_timely {new : κ → EventChannel (Notifier κ K) α} {s : World κ K α}
    (hnew : ∀ c, ∃ capacity circular, eventChannel capacity circular = .ok (new c))
    (h : Reaches World.step Watching.Timely (World.start new) s) :
    (∃ m report, getLatest s.mon = .ok (m, report) ∧ Reports s report) ∧
      ∀ e s', Watching.Timely e s → World.step e s = some s' → Stale e s → s'.mon = s.mon := by
  have hstart : Watching.Inv (World.start new) := by
    refine ⟨fun c _ => ?_, by simp [World.start], fun k => ⟨fun _ => rfl, fun _ => rfl⟩, ?_, ?_, ?_,
      by simp [World.start], by simp [World.start], ?_⟩
    · obtain ⟨capacity, circular, hc⟩ := hnew c
      show (new c).stateMask = currentState (new c)
      unfold eventChannel at hc
      split_ifs at hc with h0
      rw [← Except.ok.inj hc]
      unfold currentState
      simp [Nat.pos_of_ne_zero h0]
    · rintro k fl interest c ⟨hk, -⟩
      cases hk
    · rintro k fl interest c ⟨hk, -⟩
      cases hk
    · intro k fl interest hk
      cases hk
    · intro k fl interest hk
      cases hk
  -- the invariant of timely runs gives both parts
  have hinv : Watching.Inv s := h.invariant (fun _ _ _ hi ht he => hi.step ht he) hstart
  have hwatching : ∀ k p, s.mon.notified k = some p → ∃ c, s.latest k = some c := by
    intro k p hk
    apply Option.ne_none_iff_exists'.1
    intro hno
    cases hk.symm.trans ((hinv.watched k).2 hno)
  refine ⟨?_, ?_⟩
  · obtain ⟨m, report, hr, hmem⟩ := hinv.getLatest
    refine ⟨m, report, hr, ?_, ?_⟩
    · intro k events hk
      obtain ⟨-, interest, hk⟩ := (hmem k events).1 hk
      obtain ⟨c, hc⟩ := hwatching k _ hk
      exact ⟨events, interest, c, ⟨hk, hc⟩, hinv.inside k events interest hk⟩
    · rintro ⟨hbusy, hlate⟩ k hopen f hne
      constructor
      · rintro ⟨events, hk, hf⟩
        obtain ⟨-, interest, hk⟩ := (hmem k events).1 hk
        obtain ⟨c, hc⟩ := hwatching k _ hk
        have hint : f ∈ interest := (hinv.inside k events interest hk f hf).resolve_left hne
        have hlev := hinv.level k events interest c ⟨hk, hc⟩ (hopen c hc) f hint hne (by rw [hbusy c]; simp)
        exact ⟨events, interest, c, ⟨hk, hc⟩, hint, hinv.mask c (hopen c hc) ▸ hlev.1 hf⟩
      · rintro ⟨fl, interest, c, ⟨hk, hc⟩, hint, hf⟩
        -- nothing is under way, so the recorded level is that of the channel
        have hlev := hinv.level k fl interest c ⟨hk, hc⟩ (hopen c hc) f hint hne (by rw [hbusy c]; simp)
        rcases hlev.2 ((hinv.mask c (hopen c hc)).symm ▸ hf) with hfl | ⟨l, hl, -⟩
        · exact ⟨fl, (hmem k fl).2 ⟨Finset.ne_empty_of_mem hfl, interest, hk⟩, hfl⟩
        · rw [hlate] at hl
          cases hl
  · intro e s' ht he hstale
    cases e with
    | deliver c =>
      obtain ⟨n, rest, hb, hne⟩ := hstale
      simp only [World.step, hb] at he
      obtain rfl := Option.some.inj he
      cases hk : s.mon.notified n.notifier.key with
      | none => exact congrArg Prod.fst (hinv.notify_none {n.event} n.action hk)
      | some p => exact absurd (ht n rest hb p.1 p.2 hk).1 hne
    | apply l =>
      simp only [World.step] at he
      split_ifs at he with hl
      obtain rfl := Option.some.inj he
      cases hk : s.mon.notified l.notifier.key with
      | none => exact congrArg Prod.fst (hinv.notify_none l.events .apply hk)
      | some p => exact absurd (ht p.1 p.2 hk).1 hstale
    | tryPush c x => exact hstale.elim
    | tryGet c => exact hstale.elim
    | getAll c => exact hstale.elim
    | clear c => exact hstale.elim
    | close c => exact hstale.elim
    | watch c mask id => exact hstale.elim
    | unwatch id => exact hstale.elim

/-- New channels with room for two events. -/
def twoSlots (_ : Unit) : EventChannel (Notifier Unit ℕ) ℕ where
  circular := false
  capacity := 2
  closed := false
  msgs := []
  sendMonitors := []
  recvMonitors := []
  stateMask := {.writable}

theorem reports_of_timely_one : ∃ s : World Unit ℕ ℕ, Reported s 0 .readable ∧ ∃ m report,
    getLatest s.mon = .ok (m, report) ∧ Reports s report := by
  have hrun : Reaches World.step Watching.Timely (World.start twoSlots) _ :=
    ((Reaches.start.next (e := .watch () {.readable} 0) trivial rfl).next (e := .tryPush () 7) trivial rfl).next
      (e := .deliver ()) (by
        intro n rest hb fl interest hk
        obtain ⟨rfl, rfl⟩ := List.cons.inj hb
        obtain ⟨rfl, rfl⟩ := Prod.mk.inj (Option.some.inj hk)
        exact ⟨rfl, by decide⟩) rfl
  exact ⟨_, by decide +kernel, (reports_of_timely (fun _ => ⟨2, false, rfl⟩) hrun).1⟩

/-- `watch` applies all flags that the channel has, and applies them when the channel may have changed. -/
theorem watch_applies_unmasked :
    (∃ s : World Unit ℕ ℕ, Reaches World.step Free (World.start twoSlots) s ∧ s.Quiet ∧ Reported s 0 .writable ∧
      (s.mon.notified 0).map Prod.snd = some {.readable}) ∧
      ∃ s : World Unit ℕ ℕ, Reaches World.step Free (World.start twoSlots) s ∧ s.Quiet ∧ Reported s 0 .readable ∧
        s.latest 0 = some () ∧ .readable ∉ currentState (s.chan ()) := by
  constructor
  · exact exists_of_events [.tryPush () 7, .watch () {.readable} 0,
      .apply ⟨⟨0, (), 0⟩, {.writable, .readable}⟩] (by decide +kernel)
  · exact exists_of_events [.tryPush () 7, .watch () {.readable} 0, .tryGet (),
      .deliver (), .apply ⟨⟨0, (), 0⟩, {.writable, .readable}⟩] (by decide +kernel)

end Libtarp.Evchan
