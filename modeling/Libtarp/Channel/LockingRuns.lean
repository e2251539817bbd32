import Libtarp.Channel.Locking
import Libtarp.Channel.MonitorRuns

/-!
# Deadlocks of channels, an aggregator and a monitor

`try_get` of the aggregator calls `try_get` of a channel with the aggregator's mutex held, and the
channel tells the aggregator that it has no events left (`self_deadlock`). `watch` and `channel` too take
a channel's mutex with one held that the channel's notifiers take.

* `Inv`: what a thread holds is what its script releases, and a notifier is called with mutexes
  held that come before its own.
* `run_script`: what a section makes of the script.
* `no_deadlock`: none in a run where such a call never meets a thread that calls notifiers.
-/

namespace Libtarp.Locking

open Function Lib Evchan

variable {τ κ K I α : Type}

/-! ## Scripts in order -/

/-- It is a call of a notifier. -/
def Section.notifies : Section κ K I α → Bool
  | monitorNotify .. | aggregatorNotify .. => true
  | _ => false

/-- Only a notifier is called with other mutexes held, and these come before its own. -/
structure Section.Fits (sec : Section κ K I α) (held : List (Mutex κ K)) : Prop where
  below : ∀ m ∈ held, m.rank < sec.mutex.rank
  alone : sec.notifies = false → held = []

/-- A script in order, with mutexes held until after its end. -/
def Ordered (held : List (Mutex κ K)) : List (Op κ K I α) → Prop
  | [] => True
  | .acquire sec :: ops => sec.Fits (owed ops ++ held) ∧ Ordered held ops
  | .release _ :: ops => Ordered held ops

theorem owed_append (ops ops' : List (Op κ K I α)) : owed (ops ++ ops') = owed ops ++ owed ops' := by
  induction ops with
  | nil => rfl
  | cons op ops ih => cases op <;> simp [owed, ih]

theorem ordered_append {held : List (Mutex κ K)} {ops ops' : List (Op κ K I α)} :
    Ordered held (ops ++ ops') ↔ Ordered (owed ops' ++ held) ops ∧ Ordered held ops' := by
  induction ops with
  | nil => simp [Ordered]
  | cons op ops ih =>
    cases op with
    | acquire sec => simp only [List.cons_append, Ordered, owed_append, ih, List.append_assoc, and_assoc]
    | release m => simpa only [List.cons_append, Ordered] using ih

/-- A notifier is called before a mutex is released that the script has. -/
theorem Notifying.mem_owed {m : Mutex κ K} {ops : List (Op κ K I α)} (h : Notifying m ops) : m ∈ owed ops := by
  induction ops with
  | nil => exact h.elim
  | cons op ops ih =>
    cases op with
    | acquire sec => exact List.mem_append_right _ (h.elim id ih)
    | release m' => exact List.mem_cons_of_mem _ (ih h)

/-- Of a mutex that the end of a script does not release. -/
theorem Notifying.left {m : Mutex κ K} {ops ops' : List (Op κ K I α)} (h : Notifying m (ops ++ ops'))
    (hm : m ∉ owed ops') : Notifying m ops := by
  induction ops with
  | nil => exact absurd (Notifying.mem_owed h) hm
  | cons op ops ih =>
    rw [List.cons_append] at h
    cases op with
    | acquire sec =>
      rcases h with h | h
      · rw [owed_append] at h
        exact .inl ((List.mem_append.1 h).resolve_right hm)
      · exact .inr (ih h)
    | release m' => exact ih h

/-! ## Calls of notifiers -/

/-- Calls of notifiers, with mutexes held. -/
def Calls (held : List (Mutex κ K)) (ops : List (Op κ K I α)) : Prop :=
  ∀ op ∈ ops, ∃ sec : Section κ K I α, op = .acquire sec ∧ sec.notifies = true ∧ sec.Fits held

theorem Section.owes_of_notifies {sec : Section κ K I α} (h : sec.notifies = true) : sec.owes = [] := by
  cases sec <;> first
    | rfl
    | exact absurd h Bool.false_ne_true

theorem Calls.owed_eq {held : List (Mutex κ K)} {ops : List (Op κ K I α)} (h : Calls held ops) : owed ops = [] := by
  induction ops with
  | nil => rfl
  | cons op ops ih =>
    obtain ⟨sec, rfl, hsec, _⟩ := h op (List.mem_cons_self ..)
    rw [owed, Section.owes_of_notifies hsec, ih fun op hop => h op (List.mem_cons_of_mem _ hop)]
    rfl

theorem Calls.ordered {held : List (Mutex κ K)} {ops : List (Op κ K I α)} (h : Calls held ops) : Ordered held ops := by
  induction ops with
  | nil => trivial
  | cons op ops ih =>
    have hrest : Calls held ops := fun op hop => h op (List.mem_cons_of_mem _ hop)
    obtain ⟨sec, rfl, _, hfit⟩ := h op (List.mem_cons_self ..)
    refine ⟨?_, ih hrest⟩
    rwa [hrest.owed_eq]

theorem Calls.nil (held : List (Mutex κ K)) : Calls held ([] : List (Op κ K I α)) := fun _ h => absurd h List.not_mem_nil

theorem Calls.flatMap {β : Type} {held : List (Mutex κ K)} {f : β → List (Op κ K I α)} {l : List β}
    (h : ∀ b ∈ l, Calls held (f b)) : Calls held (l.flatMap f) := by
  intro op hop
  obtain ⟨b, hb, hop'⟩ := List.mem_flatMap.1 hop
  exact h b hb op hop'

theorem Listener.calls {held : List (Mutex κ K)} (l : Listener I) (events : Mask) (action : Action)
    (origin : Option (Origin κ K)) (h : ∀ m ∈ held, m.rank = 0) :
    Calls held (l.call events action origin : List (Op κ K I α)) := by
  intro op hop
  cases l with
  | monitor id serial =>
    obtain rfl := List.mem_singleton.1 hop
    refine ⟨_, rfl, rfl, fun m hm => ?_, nofun⟩
    rw [h m hm]
    exact Nat.zero_lt_succ _
  | aggregator key =>
    obtain rfl := List.mem_singleton.1 hop
    refine ⟨_, rfl, rfl, fun m hm => ?_, nofun⟩
    rw [h m hm]
    exact Nat.zero_lt_succ _
  | other => exact absurd hop List.not_mem_nil

/-- The aggregator has no notifier of an aggregator. -/
theorem Listener.calls_above {held : List (Mutex κ K)} {l : Listener I} (hl : ∀ key, l ≠ .aggregator key)
    (events : Mask) (action : Action) (origin : Option (Origin κ K)) (h : ∀ m ∈ held, m.rank ≤ 1) :
    Calls held (l.call events action origin : List (Op κ K I α)) := by
  intro op hop
  cases l with
  | monitor id serial =>
    obtain rfl := List.mem_singleton.1 hop
    exact ⟨_, rfl, rfl, fun m hm => Nat.lt_succ_of_le (h m hm), nofun⟩
  | aggregator key => exact absurd rfl (hl key)
  | other => exact absurd hop List.not_mem_nil

theorem notifyAll_calls {held : List (Mutex κ K)} (c : ChanName κ K) (n : List (Notification (Listener I)))
    (h : ∀ m ∈ held, m.rank = 0) : Calls held (notifyAll c n : List (Op κ K I α)) :=
  Calls.flatMap fun _ _ => Listener.calls _ _ _ _ h

theorem notifyClosed_calls (n : List (Notification (Listener I))) :
    Calls [] (notifyClosed n : List (Op κ K I α)) :=
  Calls.flatMap fun _ _ => Listener.calls _ _ _ _ nofun

theorem pendingCall_calls (pending mask : Mask) (l : Listener I) :
    Calls [] (pendingCall pending mask l : List (Op κ K I α)) := by
  unfold pendingCall
  split_ifs
  · exact Listener.calls _ _ _ _ nofun
  · exact Calls.nil _

/-! ## Channels of the aggregator -/

/-- A channel with ring-buffer semantics, and the mask it admits. -/
structure Ring {ι : Type} (c : EventChannel ι α) : Prop where
  circular : c.circular = true
  mask : c.closed = false → c.stateMask = currentState c

theorem Ring.refresh {ι : Type} {c : EventChannel ι α} (h : Ring c) (msgs : List α) :
    Ring (refreshChannelState all { c with msgs := msgs }).1 := by
  have hqueue := refreshChannelState_queue all { c with msgs := msgs }
  have hm := moves_refresh c msgs
  refine ⟨(congrArg BoundedQueue.circular hqueue).trans h.circular, fun hopen => ?_⟩
  have hc : c.closed = false := hm.closed ▸ hopen
  exact hm.mask hc (h.mask hc)

theorem Ring.tryPush {ι : Type} {c c' : EventChannel ι α} {n : List (Notification ι)} {r : Answer α} {x : α}
    (h : Ring c) (he : Evchan.tryPush all c x = .ok (c', n, r)) : Ring c' := by
  rcases tryPush_cases he with ⟨rfl, _⟩ | ⟨msgs, hr, -⟩
  · exact h
  · have hring := h.refresh msgs
    rwa [hr] at hring

theorem Ring.tryGet {ι : Type} {c : EventChannel ι α} (h : Ring c) : Ring (Evchan.tryGet all c).1 := by
  rcases tryGet_cases all c with hg | ⟨msgs, r, hg, -⟩
  · rwa [hg]
  · rw [hg]
    exact h.refresh msgs

theorem Ring.close {ι : Type} {c : EventChannel ι α} (h : Ring c) : Ring (Evchan.close c).1 :=
  ⟨h.circular, fun hopen => absurd hopen (Bool.false_ne_true ∘ Eq.symm)⟩

theorem Ring.addMonitor {ι : Type} {c : EventChannel ι α} (h : Ring c) (i : ι) (states : Mask) :
    Ring (Evchan.addMonitor c i states).1 := ⟨h.circular, h.mask⟩

theorem Ring.drop {ι : Type} [DecidableEq ι] {c : EventChannel ι α} (h : Ring c) (event : ChanState) (i : ι) :
    Ring (drop c event i) := by
  cases event <;> exact ⟨h.circular, h.mask⟩

theorem memberChannel_ring (chancap : ℕ) : Ring (memberChannel chancap : EventChannel (Listener I) α) :=
  ⟨rfl, fun _ => rfl⟩

/-- Where events are left, or none was there, no notifier is called. -/
theorem Ring.quiet {ι : Type} {c : EventChannel ι α} (h : Ring c) (hlen : c.msgs.length ≠ 1) :
    (Evchan.tryGet all c).2.1 = [] := by
  unfold Evchan.tryGet
  cases hm : c.msgs with
  | nil => rfl
  | cons x msgs =>
    by_cases hcl : c.closed = true
    · simp only [if_pos hcl]
    · simp only [if_neg hcl]
      have hcur : currentState { c with msgs := msgs } = c.stateMask := by
        rw [h.mask (Bool.not_eq_true _ ▸ hcl)]
        have hne : msgs ≠ [] := by
          rintro rfl
          exact hlen (by rw [hm]; rfl)
        cases msgs with
        | nil => exact absurd rfl hne
        | cons y msgs => simp [currentState, h.circular, hm]
      unfold refreshChannelState
      exact congrArg Prod.snd (if_pos hcur)

/-! ## What a section makes of the script -/

/-- What `try_get` of the aggregator calls is a channel of it. -/
def Op.Known (channels : List K) : Op κ K I α → Prop
  | acquire (.memberTryGet k _) => k ∈ channels
  | _ => True

theorem Calls.known {held : List (Mutex κ K)} {ops : List (Op κ K I α)} (h : Calls held ops) (channels : List K) :
    ∀ op ∈ ops, op.Known channels := by
  intro op hop
  obtain ⟨sec, rfl, hn, _⟩ := h op hop
  cases sec with
  | memberTryGet k left => exact absurd hn Bool.false_ne_true
  | _ => trivial

/-- What a section puts on the script: it releases what the thread holds then, of which `owes` was held
before, and no notifier is called before that is released. -/
structure Script (channels : List K) (held : List (Mutex κ K)) (m : Mutex κ K) (owes : List (Mutex κ K))
    (new : List (Op κ K I α)) : Prop where
  owed : owed new = m :: owes
  ordered : Ordered held new
  alone : ∀ m' ∈ owes, ¬Notifying m' new
  known : ∀ op ∈ new, op.Known channels

variable {channels : List K} {held owes : List (Mutex κ K)} {m : Mutex κ K}

/-- Notifiers are called, the mutex is released, and `rest` is left. -/
theorem Script.release {calls rest : List (Op κ K I α)} (hcalls : Calls (m :: owes ++ held) calls)
    (hnil : owes ≠ [] → calls = []) (how : Locking.owed rest = owes) (hrest : Ordered held rest)
    (halone : ∀ m' ∈ owes, ¬Notifying m' rest) (hknown : ∀ op ∈ rest, op.Known channels) :
    Script channels held m owes (calls ++ .release m :: rest) where
  owed := by
    rw [owed_append, hcalls.owed_eq, Locking.owed, how]
    rfl
  ordered := by
    refine ordered_append.2 ⟨?_, hrest⟩
    rw [Locking.owed, how]
    exact hcalls.ordered
  alone m' hm' hn := by
    rw [hnil (List.ne_nil_of_mem hm')] at hn
    exact halone m' hm' hn
  known := List.forall_mem_append.2 ⟨hcalls.known _, List.forall_mem_cons.2 ⟨trivial, hknown⟩⟩

/-- The mutex is released after notifiers are called. -/
theorem Script.after {calls : List (Op κ K I α)} (hcalls : Calls (m :: held) calls) :
    Script channels held m [] (calls ++ [.release m]) :=
  .release hcalls (absurd rfl) rfl trivial nofun nofun

theorem Script.only : Script channels held m [] ([.release m] : List (Op κ K I α)) := .after (Calls.nil _)

/-- Notifiers are called after all is released. -/
theorem Script.before {calls : List (Op κ K I α)} (hcalls : Calls [] calls) :
    Script channels [] m [] (.release m :: calls) :=
  .release (Calls.nil _) (absurd rfl) hcalls.owed_eq hcalls.ordered nofun (hcalls.known _)

theorem Script.before_two {m' : Mutex κ K} {calls : List (Op κ K I α)} (hcalls : Calls [] calls) :
    Script channels [] m [m'] (.release m :: .release m' :: calls) := by
  have how : Locking.owed (.release m' :: calls) = [m'] := by rw [Locking.owed, hcalls.owed_eq]
  refine .release (Calls.nil _) (fun _ => rfl) how hcalls.ordered (fun m'' _ hn => ?_)
    (List.forall_mem_cons.2 ⟨trivial, hcalls.known _⟩)
  have hmem : m'' ∈ Locking.owed calls := Notifying.mem_owed (show Notifying m'' calls from hn)
  rw [hcalls.owed_eq] at hmem
  exact List.not_mem_nil hmem

/-- Another section comes next, with no mutex held. -/
theorem Script.then {calls : List (Op κ K I α)} {sec : Section κ K I α} (hcalls : Calls (m :: owes) calls)
    (hnil : owes ≠ [] → calls = []) (how : sec.owes = owes) (hknown : (Op.acquire sec).Known channels) :
    Script channels [] m owes (calls ++ [.release m, .acquire sec]) :=
  .release (by rwa [List.append_nil]) hnil (by simp [Locking.owed, how]) ⟨⟨nofun, fun _ => rfl⟩, trivial⟩
    (fun _ _ hn => hn.elim (absurd · List.not_mem_nil) id) (List.forall_mem_singleton.2 hknown)

/-- Another section comes next, while the mutex is held. -/
theorem Script.nested {sec : Section κ K I α} (how : sec.owes = [m]) (hknown : (Op.acquire sec).Known channels) :
    Script channels [] m [] [.acquire sec] where
  owed := by simp [Locking.owed, how]
  ordered := ⟨⟨nofun, fun _ => rfl⟩, trivial⟩
  alone := nofun
  known := List.forall_mem_singleton.2 hknown

/-- The aggregator has no notifier of an aggregator, and its channels are rings. -/
structure Sane (sh : Shared κ K I α) : Prop where
  heard : ∀ l ∈ sh.agg.notifiers, ∀ key, l ≠ .aggregator key
  ring : ∀ k ∈ sh.agg.channels, Ring (sh.chan (.member k))

/-- The monitor changes, and of the aggregator what has to do with neither. -/
theorem Sane.of_eq {sh sh' : Shared κ K I α} (h : Sane sh) (hn : sh'.agg.notifiers = sh.agg.notifiers)
    (hc : sh'.agg.channels = sh.agg.channels) (hchan : sh'.chan = sh.chan) : Sane sh' :=
  ⟨hn ▸ h.heard, by rw [hc, hchan]; exact h.ring⟩

theorem Sane.subscribe {sh : Shared κ K I α} (h : Sane sh) {l : Listener I} (hl : ∀ key, l ≠ .aggregator key) :
    Sane { sh with agg := { sh.agg with notifiers := sh.agg.notifiers ++ [l] } } :=
  ⟨List.forall_mem_append.2 ⟨h.heard, List.forall_mem_singleton.2 hl⟩, h.ring⟩

variable [DecidableEq κ] [DecidableEq K] [DecidableEq I]

theorem run_script {sec : Section κ K I α} {sh : Shared κ K I α} (h : Sane sh) (hfit : sec.Fits held)
    (hknown : (Op.acquire sec).Known sh.agg.channels) (hspares : sec.Spares sh) :
    Script sh.agg.channels held sec.mutex sec.owes (sec.run sh).2 := by
  have hzero : ∀ c : ChanName κ K, ∀ m ∈ [Mutex.channel c], Mutex.rank m = 0 := by
    intro c m hm
    rw [List.mem_singleton.1 hm]
    rfl
  -- a section that notifies may hold a mutex already, any other starts without one
  cases hn : sec.notifies with
  | true =>
    cases sec <;> first
      | exact absurd hn Bool.false_ne_true
      | skip
    case monitorNotify => exact .only
    case aggregatorNotify key events action origin =>
      rcases hp : sh.agg.notify key events action with ⟨agg, edge, stays⟩
      simp only [Section.run, hp]
      cases edge with
      | none => exact .only
      | some edge =>
        refine .after ?_
        refine Calls.flatMap fun l hl => Listener.calls_above (h.heard l hl) _ _ _ ?_
        intro m hm
        rcases List.mem_cons.1 hm with rfl | hm
        · exact le_rfl
        · exact Nat.le_of_lt (hfit.below m hm)
  | false =>
    obtain rfl := hfit.alone hn
    cases sec with
    | tryPush c x =>
      simp only [Section.run]
      split
      · exact .after (notifyAll_calls c _ (hzero c))
      · exact .only
    | tryGet c => exact .after (notifyAll_calls c _ (hzero c))
    | getAll c => exact .after (notifyAll_calls c _ (hzero c))
    | close c => exact .before (notifyClosed_calls _)
    | watch src mask id =>
      cases src with
      | channel c => exact .nested rfl trivial
      | aggregator =>
        simp only [Section.run]
        split
        · exact .nested rfl trivial
        · exact .only
    | addWatch src mask id serial =>
      cases src with
      | channel c => exact .before_two (pendingCall_calls _ _ _)
      | aggregator =>
        simp only [Section.run]
        split
        · exact .before_two (pendingCall_calls _ _ _)
        · exact .before_two (pendingCall_calls _ _ _)
    | unwatch id => exact .only
    | wait =>
      have hwaited : Script sh.agg.channels [] Mutex.monitor []
          ([.release .monitor, .acquire .waited] : List (Op κ K I α)) := .then (Calls.nil _) (absurd rfl) rfl trivial
      simp only [Section.run]
      split
      · exact hwaited
      · split
        · exact .only
        · split
          · exact hwaited
          · exact .only
    | waited =>
      simp only [Section.run]
      split
      · exact .only
      · exact .only
    | monitorNotify => exact absurd hn.symm Bool.false_ne_true
    | channel k chancap =>
      simp only [Section.run]
      split
      · exact .only
      · exact .nested rfl trivial
    | addMember k key => exact .before_two (pendingCall_calls _ _ _)
    | addMonitor =>
      simp only [Section.run]
      split
      · exact .only
      · exact .only
    | aggregatorNotify => exact absurd hn.symm Bool.false_ne_true
    | aggregatorTryGet =>
      simp only [Section.run]
      split
      · exact .only
      · next _ k hk => exact .nested rfl (List.mem_of_getElem? hk)
    | memberTryGet k left =>
      -- taking from a ring that stays readable tells no one
      have hquiet : notifyAll (.member k) (Evchan.tryGet all (sh.chan (.member k))).2.1 = ([] : List (Op κ K I α)) := by
        rw [(h.ring k hknown).quiet hspares]
        rfl
      simp only [Section.run, hquiet]
      split
      · next _ _ _ k hk => exact .then (Calls.nil _) (fun _ => rfl) rfl (List.mem_of_getElem? hk)
      · exact .before_two (Calls.nil _)
    | aggregatorGetAll =>
      simp only [Section.run]
      split
      · exact .only
      · exact .then (Calls.nil _) (absurd rfl) rfl trivial
    | memberGetAll k rest idx sizes =>
      have hcalls := notifyAll_calls (α := α) (.member k) (Evchan.getAll all (sh.chan (.member k))).2.1 (hzero (.member k))
      simp only [Section.run]
      split
      · exact .then hcalls (absurd rfl) rfl trivial
      · exact .then hcalls (absurd rfl) rfl trivial
    | setIdx idx => exact .only

/-! ## What a section makes of the channels -/

section

variable {sh : Shared κ K I α}

omit [DecidableEq I] in
theorem Sane.setChan (h : Sane sh) {c : ChanName κ K} {chan : EventChannel (Listener I) α}
    (hr : Ring (sh.chan c) → Ring chan) : Sane (sh.setChan c chan) := by
  refine ⟨h.heard, fun k hk => ?_⟩
  have hk' := h.ring k hk
  unfold Shared.setChan
  dsimp only
  by_cases hc : .member k = c
  · subst hc
    rw [update_self]
    exact hr hk'
  · rwa [update_of_ne hc]

theorem Sane.answer (h : Sane sh) (l : Listener I) (origin : Option (Origin κ K)) (stays : Bool) :
    Sane (sh.answer l origin stays) ∧ (sh.answer l origin stays).agg.channels = sh.agg.channels := by
  unfold Shared.answer
  split_ifs
  · exact ⟨h, rfl⟩
  · cases origin with
    | none => exact ⟨h, rfl⟩
    | some o =>
      cases o with
      | channel c event => exact ⟨h.setChan fun hr => hr.drop event l, rfl⟩
      | aggregator => exact ⟨⟨fun l' hl' => h.heard l' (List.mem_of_mem_filter hl'), h.ring⟩, rfl⟩

omit [DecidableEq K] [DecidableEq I] in
theorem aggregator_notify_same (agg : Aggregator K I) (key : ℕ) (events : Mask) (action : Action) :
    (agg.notify key events action).1.notifiers = agg.notifiers ∧
      (agg.notify key events action).1.channels = agg.channels := by
  unfold Aggregator.notify
  split
  · exact ⟨rfl, rfl⟩
  · split
    · cases action <;> exact ⟨rfl, rfl⟩
    · exact ⟨rfl, rfl⟩

omit [DecidableEq I] in
/-- A new channel of the aggregator. -/
theorem Sane.channel (h : Sane sh) (k : K) (chancap key : ℕ) (subscriptions : Finset ℕ) :
    Sane (Shared.setChan { sh with agg := { sh.agg with
      lastKey := key
      channels := sh.agg.channels ++ [k]
      subscriptions := subscriptions } } (.member k) (memberChannel chancap)) := by
  refine ⟨h.heard, fun k' hk' => ?_⟩
  unfold Shared.setChan
  dsimp only
  by_cases hkk : k' = k
  · subst hkk
    rw [update_self]
    exact memberChannel_ring chancap
  · rw [update_of_ne (by rintro ⟨⟩; exact hkk rfl)]
    refine h.ring k' ((List.mem_append.1 hk').resolve_right ?_)
    exact fun hs => hkk (List.mem_singleton.1 hs)

/-- A section keeps the state sane, and the channels of the aggregator. -/
theorem run_sane (h : Sane sh) (sec : Section κ K I α) :
    Sane (sec.run sh).1 ∧ ∀ k ∈ sh.agg.channels, k ∈ (sec.run sh).1.agg.channels := by
  cases sec with
  | tryPush c x =>
    simp only [Section.run]
    split
    · next he => exact ⟨h.setChan fun hr => hr.tryPush he, fun _ hk => hk⟩
    · exact ⟨h, fun _ hk => hk⟩
  | tryGet c => exact ⟨h.setChan Ring.tryGet, fun _ hk => hk⟩
  | getAll c => exact ⟨h.setChan fun hr => hr.refresh [], fun _ hk => hk⟩
  | close c => exact ⟨h.setChan Ring.close, fun _ hk => hk⟩
  | watch src mask id =>
    cases src with
    | channel c => exact ⟨h.of_eq rfl rfl rfl, fun _ hk => hk⟩
    | aggregator =>
      simp only [Section.run]
      split <;> exact ⟨h.of_eq rfl rfl rfl, fun _ hk => hk⟩
  | addWatch src mask id serial =>
    cases src with
    | channel c => exact ⟨h.setChan fun hr => hr.addMonitor _ _, fun _ hk => hk⟩
    | aggregator =>
      simp only [Section.run]
      split
      · exact ⟨h, fun _ hk => hk⟩
      · exact ⟨h.subscribe nofun, fun _ hk => hk⟩
  | unwatch id => exact ⟨h.of_eq rfl rfl rfl, fun _ hk => hk⟩
  | wait =>
    simp only [Section.run]
    split
    · exact ⟨h, fun _ hk => hk⟩
    · split
      · exact ⟨h, fun _ hk => hk⟩
      · exact ⟨h.of_eq rfl rfl rfl, fun _ hk => hk⟩
  | waited =>
    simp only [Section.run]
    split
    · exact ⟨h, fun _ hk => hk⟩
    · exact ⟨h.of_eq rfl rfl rfl, fun _ hk => hk⟩
  -- what is notified answers whether it stays, and only then is the list of the source touched
  | monitorNotify id serial events action origin =>
    rcases hp : Evchan.notify sh.mon id events action with ⟨mon, stays⟩
    have hmon : Sane { sh with mon := mon } := h.of_eq rfl rfl rfl
    have hs := hmon.answer (.monitor id serial) origin stays
    simp only [Section.run, hp]
    exact ⟨hs.1, fun k hk => hs.2 ▸ hk⟩
  | channel k chancap =>
    simp only [Section.run]
    split
    · exact ⟨h, fun _ hk => hk⟩
    · exact ⟨h.channel k chancap _ _, fun _ hk => List.mem_append_left _ hk⟩
  | addMember k key => exact ⟨h.setChan fun hr => hr.addMonitor _ _, fun _ hk => hk⟩
  | addMonitor =>
    simp only [Section.run]
    split
    · exact ⟨h, fun _ hk => hk⟩
    · exact ⟨h.subscribe nofun, fun _ hk => hk⟩
  | aggregatorNotify key events action origin =>
    have hsame := aggregator_notify_same sh.agg key events action
    rcases hp : sh.agg.notify key events action with ⟨agg, edge, stays⟩
    rw [hp] at hsame
    have hagg : Sane { sh with agg := agg } := h.of_eq hsame.1 hsame.2 rfl
    have hs := hagg.answer (.aggregator key) origin stays
    simp only [Section.run, hp]
    exact ⟨hs.1, fun k hk => by rw [hs.2]; exact hsame.2 ▸ hk⟩
  | aggregatorTryGet =>
    simp only [Section.run]
    split
    · exact ⟨h, fun _ hk => hk⟩
    · exact ⟨h.of_eq rfl rfl rfl, fun _ hk => hk⟩
  -- the index is moved on before the member is asked
  | memberTryGet k left =>
    have hidx : Sane { sh with agg := { sh.agg with idx := (sh.agg.idx + 1) % sh.agg.channels.length } } :=
      h.of_eq rfl rfl rfl
    exact ⟨hidx.setChan Ring.tryGet, fun _ hk => hk⟩
  | aggregatorGetAll =>
    simp only [Section.run]
    split <;> exact ⟨h, fun _ hk => hk⟩
  | memberGetAll k rest idx sizes => exact ⟨h.setChan fun hr => hr.refresh [], fun _ hk => hk⟩
  | setIdx idx => exact ⟨h.of_eq rfl rfl rfl, fun _ hk => hk⟩

end

/-! ## Mutexes sought against the order -/

omit [DecidableEq κ] [DecidableEq K] [DecidableEq I] in
theorem Section.rank_owes {sec : Section κ K I α} {m : Mutex κ K} (h : m ∈ sec.owes) : sec.mutex.rank < m.rank := by
  cases sec with
  | addWatch src mask id serial =>
    rw [List.mem_singleton.1 h]
    cases src with
    | channel c => exact Nat.zero_lt_succ _
    | aggregator => exact Nat.lt_succ_self _
  | addMember k key =>
    rw [List.mem_singleton.1 h]
    exact Nat.zero_lt_succ _
  | memberTryGet k left =>
    rw [List.mem_singleton.1 h]
    exact Nat.zero_lt_succ _
  | _ => exact absurd h List.not_mem_nil

omit [DecidableEq κ] [DecidableEq K] [DecidableEq I] in
theorem asked_of_sought {m : Mutex κ K} {ops : List (Op κ K I α)} (h : sought ops = some m) :
    ∃ sec rest, ops = .acquire sec :: rest ∧ sec.mutex = m ∧ sec.owes ≠ [] := by
  unfold sought at h
  split at h
  · next sec rest =>
    split_ifs at h with how
    exact ⟨sec, rest, rfl, Option.some.inj h, how⟩
  · cases h

omit [DecidableEq κ] [DecidableEq K] [DecidableEq I] in
/-- While a mutex is sought no notifier is to be called, and all that is held comes after it. -/
theorem Ordered.sought {held : List (Mutex κ K)} {m : Mutex κ K} {ops : List (Op κ K I α)} (h : Ordered held ops)
    (hs : sought ops = some m) :
    held = [] ∧ (∀ m' ∈ owed ops, m.rank < m'.rank) ∧ ∀ m', ¬Notifying m' ops := by
  obtain ⟨sec, rest, rfl, rfl, how⟩ := asked_of_sought hs
  have halone : owed rest ++ held = [] := by
    refine h.1.alone ?_
    cases hn : sec.notifies with
    | true => exact absurd (Section.owes_of_notifies hn) how
    | false => rfl
  obtain ⟨hrest, rfl⟩ := List.append_eq_nil_iff.1 halone
  refine ⟨rfl, fun m' hm' => ?_, fun m' hn => ?_⟩
  · rw [owed, hrest, List.append_nil] at hm'
    exact Section.rank_owes hm'
  · have hm' : m' ∈ owed rest := hn.elim id Notifying.mem_owed
    rw [hrest] at hm'
    exact List.not_mem_nil hm'

/-! ## Runs -/

variable [DecidableEq τ]

/-- What a thread holds is what its script releases, its script is in order, and no mutex is sought whose
holder is to call a notifier. -/
structure Inv (s : World τ κ K I α) : Prop where
  holds : ∀ t m, s.Holds t m ↔ m ∈ owed (s.script t)
  nodup : ∀ t, (owed (s.script t)).Nodup
  ordered : ∀ t, Ordered [] (s.script t)
  known : ∀ t, ∀ op ∈ s.script t, op.Known s.shared.agg.channels
  sane : Sane s.shared
  calm : ∀ m, s.Sought m → ¬s.Busy m

omit [DecidableEq κ] [DecidableEq K] [DecidableEq I] [DecidableEq τ] in
theorem Op.Known.mono {channels channels' : List K} {op : Op κ K I α} (h : op.Known channels)
    (hsub : ∀ k ∈ channels, k ∈ channels') : op.Known channels' := by
  unfold Op.Known at h ⊢
  split
  · exact hsub _ h
  · trivial

omit [DecidableEq κ] [DecidableEq K] [DecidableEq I] [DecidableEq τ] in
theorem inv_start (chan : ChanName κ K → EventChannel (Listener I) α) : Inv (World.start chan : World τ κ K I α) where
  holds _ _ := ⟨nofun, nofun⟩
  nodup _ := List.nodup_nil
  ordered _ := trivial
  known _ := nofun
  sane := ⟨nofun, nofun⟩
  calm _ h := by
    obtain ⟨t, ht⟩ := h
    cases ht

omit [DecidableEq κ] [DecidableEq K] [DecidableEq I] in
theorem Inv.call {s : World τ κ K I α} (h : Inv s) {t : τ} (ht : s.script t = []) (c : Call κ K I α) :
    Inv { s with script := update s.script t [.acquire c.first] } := by
  have hfirst : c.first.owes = [] ∧ (Op.acquire c.first).Known s.shared.agg.channels := by
    cases c <;> exact ⟨rfl, trivial⟩
  have howed : owed [Op.acquire c.first] = owed (s.script t) := by
    rw [ht]
    simp [owed, hfirst.1]
  refine ⟨(forall_update_iff _ fun t' ops => ∀ m, s.Holds t' m ↔ m ∈ owed ops).2 ⟨?_, fun t' _ => h.holds t'⟩,
    (forall_update_iff _ fun _ ops => (owed ops).Nodup).2 ⟨?_, fun t' _ => h.nodup t'⟩,
    (forall_update_iff _ fun _ ops => Ordered [] ops).2 ⟨⟨⟨nofun, fun _ => rfl⟩, trivial⟩, fun t' _ => h.ordered t'⟩,
    (forall_update_iff s.script fun _ ops => ∀ op ∈ ops, Op.Known s.shared.agg.channels op).2
      ⟨List.forall_mem_singleton.2 hfirst.2, fun t' _ => h.known t'⟩, h.sane, ?_⟩
  · rw [howed]
    exact h.holds t
  · rw [howed]
    exact h.nodup t
  · rintro m ⟨t', ht'⟩ ⟨u, hu, hn⟩
    dsimp only at ht' hn
    by_cases htt : t' = t
    · rw [htt, update_self, sought, if_pos hfirst.1] at ht'
      cases ht'
    rw [update_of_ne htt] at ht'
    by_cases hut : u = t
    · rw [hut, update_self] at hn
      exact hn.elim List.not_mem_nil id
    · rw [update_of_ne hut] at hn
      exact h.calm m ⟨t', ht'⟩ ⟨u, hu, hn⟩

omit [DecidableEq I] in
theorem Inv.release {s : World τ κ K I α} (h : Inv s) {t : τ} {m : Mutex κ K} {ops : List (Op κ K I α)}
    (ht : s.script t = .release m :: ops) (hseek : ∀ m' ∈ sought ops, ¬s.Busy m') :
    Inv { s with holder := update s.holder m none, script := update s.script t ops } := by
  have hnodup := h.nodup t
  rw [ht] at hnodup
  have hm : m ∉ owed ops := (List.nodup_cons.1 hnodup).1
  have hmt : s.Holds t m := (h.holds t m).2 (by rw [ht]; exact List.mem_cons_self ..)
  have hord := h.ordered t
  rw [ht] at hord
  have hknown := h.known t
  rw [ht] at hknown
  refine ⟨(forall_update_iff _ fun t' ops => ∀ m', update s.holder m none m' = some t' ↔ m' ∈ owed ops).2
      ⟨fun m' => ?_, fun t' htt m' => ?_⟩,
    (forall_update_iff _ fun _ ops => (owed ops).Nodup).2 ⟨(List.nodup_cons.1 hnodup).2, fun t' _ => h.nodup t'⟩,
    (forall_update_iff _ fun _ ops => Ordered [] ops).2 ⟨hord, fun t' _ => h.ordered t'⟩,
    (forall_update_iff s.script fun _ ops => ∀ op ∈ ops, Op.Known s.shared.agg.channels op).2
      ⟨fun op hop => hknown op (List.mem_cons_of_mem _ hop), fun t' _ => h.known t'⟩, h.sane, ?_⟩
  · -- the thread that releases: it owes the mutex no more
    by_cases hmm : m' = m
    · rw [hmm, update_self]
      exact ⟨nofun, fun hown => absurd hown hm⟩
    · rw [update_of_ne hmm]
      refine (h.holds t m').trans ?_
      rw [ht]
      exact ⟨fun hown => (List.mem_cons.1 hown).resolve_left hmm, List.mem_cons_of_mem _⟩
  · by_cases hmm : m' = m
    · rw [hmm, update_self]
      refine ⟨nofun, fun hown => ?_⟩
      exact absurd (Option.some.inj (((h.holds t' m).2 hown).symm.trans hmt)) htt
    · rw [update_of_ne hmm]
      exact h.holds t' m'
  · rintro m' ⟨t', ht'⟩ ⟨u, hu, hn⟩
    unfold World.Holds at hu
    dsimp only at ht' hu hn
    have hmm : m' ≠ m := by
      rintro rfl
      rw [update_self] at hu
      cases hu
    rw [update_of_ne hmm] at hu
    have hbusy : s.Busy m' := by
      refine ⟨u, hu, ?_⟩
      by_cases hut : u = t
      · rw [hut, update_self] at hn
        rwa [hut, ht]
      · rwa [update_of_ne hut] at hn
    by_cases htt : t' = t
    · rw [htt, update_self] at ht'
      exact hseek m' ht' hbusy
    · rw [update_of_ne htt] at ht'
      exact h.calm m' ⟨t', ht'⟩ hbusy

theorem Inv.acquire {s : World τ κ K I α} (h : Inv s) {t : τ} {sec : Section κ K I α} {ops : List (Op κ K I α)}
    (ht : s.script t = .acquire sec :: ops) (hfree : s.holder sec.mutex = none)
    (hcalm : s.Sought sec.mutex → ¬Notifying sec.mutex (sec.run s.shared).2)
    (hseek : ∀ m ∈ sought (sec.run s.shared).2, ¬s.Busy m) (hspares : sec.Spares s.shared) :
    Inv { shared := (sec.run s.shared).1
          holder := update s.holder sec.mutex (some t)
          script := update s.script t ((sec.run s.shared).2 ++ ops) } := by
  have hord := h.ordered t
  rw [ht] at hord
  have hknown := h.known t
  rw [ht] at hknown
  have hnew := run_script h.sane hord.1 (hknown _ (List.mem_cons_self ..)) hspares
  obtain ⟨hsane, hgrows⟩ := run_sane h.sane sec
  set new := (sec.run s.shared).2
  have howed : owed (new ++ ops) = sec.mutex :: owed (s.script t) := by
    rw [owed_append, hnew.owed, ht]
    rfl
  have hnot : ∀ t', sec.mutex ∉ owed (s.script t') := by
    intro t' hown
    have hheld := (h.holds t' sec.mutex).2 hown
    unfold World.Holds at hheld
    rw [hfree] at hheld
    cases hheld
  -- what `t` held before it still has when `ops` come
  have hleft : sec.mutex ∉ owed ops := by
    intro hown
    exact hnot t (by rw [ht]; exact List.mem_append_right _ hown)
  have hsought : sought (new ++ ops) = sought new := by
    cases hn : new with
    | nil =>
      have hnil := hnew.owed
      rw [hn] at hnil
      cases hnil
    | cons op rest => cases op <;> rfl
  refine ⟨(forall_update_iff _ fun t' ops => ∀ m, update s.holder sec.mutex (some t) m = some t' ↔ m ∈ owed ops).2
      ⟨fun m => ?_, fun t' htt m => ?_⟩,
    (forall_update_iff _ fun _ ops => (owed ops).Nodup).2 ⟨?_, fun t' _ => h.nodup t'⟩,
    (forall_update_iff _ fun _ ops => Ordered [] ops).2
      ⟨ordered_append.2 ⟨hnew.ordered, hord.2⟩, fun t' _ => h.ordered t'⟩,
    (forall_update_iff s.script fun _ ops => ∀ op ∈ ops, Op.Known (sec.run s.shared).1.agg.channels op).2
      ⟨List.forall_mem_append.2 ⟨fun op hop => (hnew.known op hop).mono hgrows, fun op hop => ?_⟩,
        fun t' _ op hop => (h.known t' op hop).mono hgrows⟩, hsane, ?_⟩
  · rw [howed]
    by_cases hms : m = sec.mutex
    · rw [hms, update_self]
      exact ⟨fun _ => List.mem_cons_self .., fun _ => rfl⟩
    · rw [update_of_ne hms]
      refine (h.holds t m).trans ?_
      exact ⟨List.mem_cons_of_mem _, fun hown => (List.mem_cons.1 hown).resolve_left hms⟩
  · by_cases hms : m = sec.mutex
    · rw [hms, update_self]
      exact ⟨fun he => absurd (Option.some.inj he).symm htt, fun hown => absurd hown (hnot t')⟩
    · rw [update_of_ne hms]
      exact h.holds t' m
  · rw [howed]
    exact List.nodup_cons.2 ⟨hnot t, h.nodup t⟩
  · exact (hknown op (List.mem_cons_of_mem _ hop)).mono hgrows
  · rintro m ⟨t', ht'⟩ ⟨u, hu, hn⟩
    unfold World.Holds at hu
    dsimp only at ht' hu hn
    by_cases htt : t' = t
    · -- the section seeks a mutex
      rw [htt, update_self, hsought] at ht'
      obtain ⟨hheld, hafter, hnone⟩ := hnew.ordered.sought ht'
      have hms : m ≠ sec.mutex := by
        rintro rfl
        exact lt_irrefl _ (hafter sec.mutex (by rw [hnew.owed]; exact List.mem_cons_self ..))
      rw [update_of_ne hms] at hu
      by_cases hut : u = t
      · rw [hut, update_self] at hn
        rw [List.append_nil] at hheld
        exact hnone m (hn.left (by rw [hheld]; exact List.not_mem_nil))
      · rw [update_of_ne hut] at hn
        exact hseek m ht' ⟨u, hu, hn⟩
    · rw [update_of_ne htt] at ht'
      by_cases hms : m = sec.mutex
      · -- another thread seeks the mutex that was taken
        subst hms
        rw [update_self] at hu
        obtain rfl := Option.some.inj hu
        rw [update_self] at hn
        exact hcalm ⟨t', ht'⟩ (hn.left hleft)
      · rw [update_of_ne hms] at hu
        have hquiet := h.calm m ⟨t', ht'⟩
        by_cases hut : u = t
        · subst hut
          rw [update_self] at hn
          have hops : m ∉ owed ops := fun hown => hquiet ⟨u, hu, by rw [ht]; exact .inl hown⟩
          have howes : m ∈ sec.owes := by
            have hown := (h.holds u m).1 hu
            rw [ht] at hown
            exact (List.mem_append.1 hown).resolve_right hops
          exact hnew.alone m howes (hn.left hops)
        · rw [update_of_ne hut] at hn
          exact hquiet ⟨u, hu, hn⟩

theorem Inv.step {e : Event τ κ K I α} {s s' : World τ κ K I α} (h : Inv s) (hc : World.Orderly e s)
    (hs : World.step e s = some s') : Inv s' := by
  cases e with
  | call t c =>
    simp only [World.step] at hs
    split_ifs at hs with hcall
    obtain rfl := Option.some.inj hs
    exact h.call hcall.1 c
  | go t =>
    unfold World.step at hs
    have hc : s.Allows (s.script t) := hc
    dsimp only at hs
    split at hs
    · cases hs
    · next sec ops ht =>
      split_ifs at hs with hfree
      obtain rfl := Option.some.inj hs
      rw [ht] at hc
      exact h.acquire ht hfree hc.1 hc.2.1 hc.2.2
    · next m ops ht =>
      obtain rfl := Option.some.inj hs
      rw [ht] at hc
      exact h.release ht hc

omit [DecidableEq κ] [DecidableEq K] [DecidableEq I] [DecidableEq τ] in
theorem asked_cases {m : Mutex κ K} {ops : List (Op κ K I α)} (h : asked ops = some m) :
    ∃ sec rest, ops = .acquire sec :: rest ∧ sec.mutex = m := by
  unfold asked at h
  split at h
  · next sec rest => exact ⟨sec, rest, rfl, Option.some.inj h⟩
  · cases h

omit [DecidableEq κ] [DecidableEq K] [DecidableEq I] [DecidableEq τ] in
/-- Threads wait for each other in the order of the mutexes, but for those that seek one. -/
theorem Inv.ranked {s : World τ κ K I α} (h : Inv s) :
    Ranked Mutex.rank s.Waits s.Holds fun t => (sought (s.script t)).isSome := by
  refine ⟨fun t m m' hm hm' => ?_, fun t m m' hup hm hm' => ?_, fun t u m m' hdown hm hu hm' => ?_⟩
  · exact Option.some.inj (hm.symm.trans hm')
  · obtain ⟨sec, ops, ht, rfl⟩ := asked_cases hm
    have hown := (h.holds t m').1 hm'
    have hord := h.ordered t
    rw [ht] at hown hord hup
    have hnone : sec.owes = [] := by
      by_contra hne
      exact hup (by rw [sought, if_neg hne]; rfl)
    rw [owed, hnone, List.nil_append] at hown
    exact hord.1.below m' (List.mem_append_left _ hown)
  · -- who holds the mutex that `t` seeks has no notifier to call, and seeks another one
    obtain ⟨m₀, hsought⟩ := Option.isSome_iff_exists.1 hdown
    obtain ⟨sec₀, _, ht₀, rfl, _⟩ := asked_of_sought hsought
    have hmm : sec₀.mutex = m := by
      unfold World.Waits at hm
      rw [ht₀] at hm
      exact Option.some.inj hm
    subst hmm
    have hquiet := h.calm _ ⟨t, hsought⟩
    obtain ⟨sec, ops, hu', rfl⟩ := asked_cases hm'
    have hops : sec₀.mutex ∉ owed ops := fun hown => hquiet ⟨u, hu, by rw [hu']; exact .inl hown⟩
    have howes : sec₀.mutex ∈ sec.owes := by
      have hown := (h.holds u _).1 hu
      rw [hu'] at hown
      exact (List.mem_append.1 hown).resolve_right hops
    refine ⟨?_, Section.rank_owes howes⟩
    rw [hu', sought, if_neg (List.ne_nil_of_mem howes)]
    rfl

/-- **No deadlock** in a run in which no call that takes a mutex before one that comes after it meets a
thread that calls notifiers. -/
theorem no_deadlock {chan : ChanName κ K → EventChannel (Listener I) α} {s : World τ κ K I α}
    (h : Reaches World.step World.Orderly (World.start chan) s) : ¬s.Deadlock := by
  have hinv : Inv s := h.invariant (fun _ _ _ hi hc hs => hi.step hc hs) (inv_start chan)
  rintro ⟨t, ht⟩
  exact hinv.ranked.acyclic t ht

instance (s : World τ κ K I α) (t : τ) (m : Mutex κ K) : Decidable (s.Waits t m) :=
  inferInstanceAs (Decidable (asked _ = _))

instance (s : World τ κ K I α) (t : τ) (m : Mutex κ K) : Decidable (s.Holds t m) :=
  inferInstanceAs (Decidable (_ = _))

instance decidableNotifying (m : Mutex κ K) : (ops : List (Op κ K I α)) → Decidable (Notifying m ops)
  | [] => isFalse id
  | .acquire _ :: ops =>
    have := decidableNotifying m ops
    inferInstanceAs (Decidable (m ∈ owed ops ∨ Notifying m ops))
  | .release _ :: ops => decidableNotifying m ops

instance [Fintype τ] (s : World τ κ K I α) (m : Mutex κ K) : Decidable (s.Sought m) :=
  inferInstanceAs (Decidable (∃ t, sought (s.script t) = some m))

instance [Fintype τ] (s : World τ κ K I α) (m : Mutex κ K) : Decidable (s.Busy m) :=
  inferInstanceAs (Decidable (∃ t, s.Holds t m ∧ Notifying m (s.script t)))

instance (sec : Section κ K I α) (sh : Shared κ K I α) : Decidable (sec.Spares sh) :=
  match sec with
  | .memberTryGet .. => inferInstanceAs (Decidable (_ ≠ 1))
  | .tryPush .. | .tryGet .. | .getAll .. | .close .. | .watch .. | .addWatch .. | .unwatch .. | .wait | .waited
  | .monitorNotify .. | .channel .. | .addMember .. | .addMonitor | .aggregatorNotify .. | .aggregatorTryGet
  | .aggregatorGetAll | .memberGetAll .. | .setIdx .. => isTrue trivial

instance [Fintype τ] (s : World τ κ K I α) (ops : List (Op κ K I α)) : Decidable (s.Allows ops) :=
  match ops with
  | [] => isTrue trivial
  | .acquire _ :: _ => inferInstanceAs (Decidable (_ ∧ (∀ m ∈ sought _, ¬s.Busy m) ∧ _))
  | .release _ :: _ => inferInstanceAs (Decidable (∀ m ∈ sought _, ¬s.Busy m))

instance [Fintype τ] (e : Event τ κ K I α) (s : World τ κ K I α) : Decidable (World.Orderly e s) :=
  match e with
  | .call .. => isTrue trivial
  | .go _ => inferInstanceAs (Decidable (s.Allows _))

/-- A channel is read through the aggregator, and a thread waits for the monitor while another watches. -/
theorem no_deadlock_two : ∃ s : World Bool Unit Unit Unit Unit,
    Reaches World.step World.Orderly (World.start fun _ => memberChannel 2) s ∧
      (s.Waits true .monitor ∧ s.Holds false .monitor) ∧ ¬s.Deadlock := by
  obtain ⟨s, hreach, hs⟩ : ∃ s : World Bool Unit Unit Unit Unit,
      Reaches World.step World.Orderly (World.start fun _ => memberChannel 2) s ∧
        (s.Waits true .monitor ∧ s.Holds false .monitor) :=
    exists_of_checked [.call true (.channel () 2), .go true, .go true, .go true, .go true,
      .call true (.tryPush (.member ()) ()), .go true, .go true, .go true, .go true,
      .call true (.tryPush (.member ()) ()), .go true, .go true,
      .call true .aggregatorTryGet, .go true, .go true, .go true, .go true,
      .call false (.watch (.channel (.free ())) {.readable} ()), .go false, .call true (.unwatch ())]
      (by decide +kernel)
  exact ⟨s, hreach, hs, no_deadlock hreach⟩

/-- **A thread waits for itself**: `try_get` takes the only event of a channel of the aggregator. -/
theorem self_deadlock : ¬∀ s : World Unit Unit Unit Unit Unit,
    Reaches World.step Free (World.start fun _ => memberChannel 1) s → ¬s.Deadlock := by
  intro hall
  obtain ⟨s, hreach, hw, hh⟩ : ∃ s : World Unit Unit Unit Unit Unit,
      Reaches World.step Free (World.start fun _ => memberChannel 1) s ∧
        (s.Waits () .aggregator ∧ s.Holds () .aggregator) :=
    exists_of_events [.call () (.channel () 1), .go (), .go (), .go (), .go (),
      .call () (.tryPush (.member ()) ()), .go (), .go (), .go (), .go (),
      .call () .aggregatorTryGet, .go (), .go ()] (by decide +kernel)
  exact hall s hreach ⟨(), .single ⟨_, hw, hh⟩⟩

end Libtarp.Locking
