import Libtarp.Channel.TrunkRuns

/-!
# `trunk::close` after it has unlocked (`evchan.hxx`)

`close` takes the waiters out of both queues with the mutex locked, and signals their condition variables
afterwards, one at a time. A condition variable is on the stack of the call that waits.

* `step_closed`: on a closed trunk no operation changes any more.
* `signals_in_time`: the calls signalled have not returned, in the runs where no call that is still to be
  signalled wakes up before.
-/

namespace Libtarp.Unbuffered

open Function Lib

variable {ι α : Type} [DecidableEq ι]

/-- The trunk, the waiters that each `close` still has to signal, and those that were signalled, with
whether their call had returned by then. -/
structure Closing (ι α : Type) where
  sys : System ι α
  pending : List (List ι)
  signalled : List (ι × Bool)

inductive ClosingEvent (ι α : Type) where
  | call (e : Event ι α)
  /-- the next signal of a `close` -/
  | notifyOne (k : ℕ)

/-- The call has returned. -/
def System.hasReturned (s : System ι α) (t : ι) : Bool :=
  match s.stage t with
  | .returned _ => true
  | _ => false

/-- The waiters that `close` collects: receivers first. -/
def collected : Event ι α → Trunk ι α → List (List ι)
  | .close, c => [c.recvWaitq ++ c.sendWaitq]
  | _, _ => []

def Closing.step : ClosingEvent ι α → Closing ι α → Option (Closing ι α)
  | .call e, s =>
    (Unbuffered.step e s.sys).map fun sys => { s with sys := sys, pending := s.pending ++ collected e s.sys.chan }
  | .notifyOne k, s =>
    match s.pending[k]? with
    | some (t :: rest) =>
      some { s with
        pending := s.pending.set k rest
        signalled := s.signalled ++ [(t, s.sys.hasReturned t)] }
    | _ => none

def Closing.start : Closing ι α := ⟨Unbuffered.start, [], []⟩

/-- No call wakes up that a `close` still has to signal. -/
def Undisturbed : ClosingEvent ι α → Closing ι α → Prop
  | .call (.wake t _), s => ∀ q ∈ s.pending, t ∉ q
  | _, _ => True

instance (e : ClosingEvent ι α) (s : Closing ι α) : Decidable (Undisturbed e s) :=
  match e with
  | .call (.wake _ _) => inferInstanceAs (Decidable (∀ q ∈ _, _))
  | .call (.tryPush ..) | .call (.tryGet _) | .call (.pushUntil ..) | .call (.getUntil ..) | .call .close
  | .notifyOne _ => .isTrue trivial

/-- Only a `close` goes on. -/
def CloseOnly : ClosingEvent ι α → Closing ι α → Prop
  | .notifyOne _, _ => True
  | .call _, _ => False

variable {s s' : System ι α} {t : ι} {e : Event ι α}

/-- The call waits. -/
def Waits (s : System ι α) (t : ι) : Prop := (∃ d, s.stage t = .sending d) ∨ ∃ d, s.stage t = .receiving d

omit [DecidableEq ι] in
theorem Waits.not_returned (h : Waits s t) : s.hasReturned t = false := by
  unfold System.hasReturned
  obtain ⟨d, hd⟩ | ⟨d, hd⟩ := h <;> rw [hd]

omit [DecidableEq ι] in
theorem Inv.waits (h : Inv s) (ht : t ∈ s.chan.recvWaitq ++ s.chan.sendWaitq) :
    Waits s t ∧ (s.chan.op t).done = false := by
  rcases List.mem_append.1 ht with ht | ht
  · exact ⟨.inr (h.receiver t ht).1, (h.receiver t ht).2⟩
  · exact ⟨.inl (h.sender t ht).1, (h.sender t ht).2⟩

/-- A step is `close`, or that of one call, which begins or wakes up. -/
theorem step_moves (he : step e s = some s') : (e = .close ∧ s' = s.become (close s.chan)) ∨
    ∃ u, (s.stage u = .idle ∨ ∃ expired, e = .wake u expired) ∧ ∀ t, t ≠ u → s'.stage t = s.stage t := by
  have hmove : ∀ (s₁ : System ι α) (u t : ι) (g : Stage ι α), t ≠ u → (s₁.move u g).stage t = s₁.stage t :=
    fun s₁ u t g hne => update_of_ne hne _ _
  cases e with
  | tryPush u x =>
    cases hu : s.stage u <;> simp only [step, hu, reduceCtorEq] at he
    obtain rfl := Option.some.inj he
    exact .inr ⟨u, .inl hu, fun t hne => hmove _ u t _ hne⟩
  | tryGet u =>
    cases hu : s.stage u <;> simp only [step, hu, reduceCtorEq] at he
    obtain rfl := Option.some.inj he
    exact .inr ⟨u, .inl hu, fun t hne => hmove _ u t _ hne⟩
  | pushUntil u x d =>
    cases hu : s.stage u <;> simp only [step, hu, reduceCtorEq] at he
    obtain rfl := Option.some.inj he
    exact .inr ⟨u, .inl hu, fun t hne => hmove _ u t _ hne⟩
  | getUntil u d =>
    cases hu : s.stage u <;> simp only [step, hu, reduceCtorEq] at he
    obtain rfl := Option.some.inj he
    exact .inr ⟨u, .inl hu, fun t hne => hmove _ u t _ hne⟩
  | wake u expired =>
    cases hu : s.stage u <;> simp only [step, hu, reduceCtorEq] at he
    all_goals
      obtain rfl := Option.some.inj he
      exact .inr ⟨u, .inr ⟨expired, rfl⟩, fun t hne => hmove _ u t _ hne⟩
  | close => exact .inl ⟨rfl, (Option.some.inj he).symm⟩

/-- **A waiting call** goes on to another stage only when it wakes up. -/
theorem Waits.step (h : Waits s t) (he : step e s = some s') : Waits s' t ∨ ∃ expired, e = .wake t expired := by
  obtain ⟨-, rfl⟩ | ⟨u, hu, hstage⟩ := step_moves he
  · exact .inl h
  · by_cases hut : t = u
    · subst hut
      refine .inr (hu.resolve_left fun hidle => ?_)
      obtain ⟨d, hd⟩ | ⟨d, hd⟩ := h <;> exact absurd (hd.symm.trans hidle) (by simp)
    · left
      unfold Waits
      rw [hstage t hut]
      exact h

/-- **On a closed trunk** no operation changes any more. -/
theorem step_closed (h : Inv s) (hclosed : s.chan.closed = true) (he : step e s = some s') :
    s'.chan.closed = true ∧ s'.chan.op = s.chan.op := by
  obtain ⟨hsend, hrecv⟩ := h.closed hclosed
  cases e with
  | tryPush u x =>
    cases hu : s.stage u <;> simp only [step, hu, reduceCtorEq] at he
    obtain rfl := Option.some.inj he
    simp [tryPush, hclosed, System.move, System.become]
  | tryGet u =>
    cases hu : s.stage u <;> simp only [step, hu, reduceCtorEq] at he
    obtain rfl := Option.some.inj he
    simp [tryGet, hclosed, System.move, System.become]
  | pushUntil u x d =>
    cases hu : s.stage u <;> simp only [step, hu, reduceCtorEq] at he
    obtain rfl := Option.some.inj he
    simp [doTryPushUntil, hclosed, System.move, System.become]
  | getUntil u d =>
    cases hu : s.stage u <;> simp only [step, hu, reduceCtorEq] at he
    obtain rfl := Option.some.inj he
    simp [doTryGetUntil, hclosed, System.move, System.become]
  | wake u expired =>
    cases hu : s.stage u <;> simp only [step, hu, reduceCtorEq] at he
    · obtain rfl := Option.some.inj he
      unfold wakeSender
      split_ifs <;> exact ⟨hclosed, rfl⟩
    · obtain rfl := Option.some.inj he
      unfold wakeReceiver
      split_ifs <;> exact ⟨hclosed, rfl⟩
  | close =>
    obtain rfl := Option.some.inj he
    exact ⟨rfl, rfl⟩

/-- A call that wakes up on a closed trunk returns, if it is not done. -/
theorem wake_returns {expired : Bool} (hclosed : s.chan.closed = true) (hnot : (s.chan.op t).done = false)
    (he : step (.wake t expired) s = some s') : s'.hasReturned t = true := by
  have hmove : ∀ (s₁ : System ι α) (a : Answer ι α), (s₁.move t (.returned a)).hasReturned t = true := by
    intro s₁ a
    unfold System.hasReturned System.move
    dsimp only
    rw [update_self]
  cases hu : s.stage t <;> simp only [step, hu, reduceCtorEq] at he
  · obtain rfl := Option.some.inj he
    unfold wakeSender
    rw [if_neg (by simp [hnot]), if_pos hclosed]
    exact hmove _ _
  · obtain rfl := Option.some.inj he
    unfold wakeReceiver
    rw [if_neg (by simp [hnot]), if_pos hclosed]
    exact hmove _ _

/-! ## Runs -/

variable {w w' : Closing ι α}

/-- The waiters that are still to be signalled: the trunk is closed, and where they have not returned they
wait and are not done. -/
structure Collected (w : Closing ι α) : Prop where
  trunk : Inv w.sys
  pending : ∀ q ∈ w.pending, ∀ t ∈ q, w.sys.chan.closed = true ∧ (w.sys.chan.op t).done = false

theorem Collected.step {e : ClosingEvent ι α} (h : Collected w) (he : Closing.step e w = some w') : Collected w' := by
  cases e with
  | call e =>
    obtain ⟨sys, hsys, rfl⟩ := Option.map_eq_some_iff.1 he
    refine ⟨(step_spec h.trunk hsys).1, ?_⟩
    intro q hq t ht
    rcases List.mem_append.1 hq with hold | hnew
    · obtain ⟨hclosed, hnot⟩ := h.pending q hold t ht
      obtain ⟨hclosed', hop⟩ := step_closed h.trunk hclosed hsys
      rw [hop]
      exact ⟨hclosed', hnot⟩
    · cases e with
      | close =>
        obtain rfl := Option.some.inj hsys
        obtain rfl := List.mem_singleton.1 hnew
        exact ⟨rfl, (h.trunk.waits ht).2⟩
      | _ => exact absurd hnew List.not_mem_nil
  | notifyOne k =>
    unfold Closing.step at he
    dsimp only at he
    split at he
    · next t rest hk =>
      obtain rfl := Option.some.inj he
      refine ⟨h.trunk, fun q hq => ?_⟩
      rcases List.mem_or_eq_of_mem_set hq with hq | rfl
      · exact h.pending q hq
      · exact fun u hu => h.pending _ (List.mem_of_getElem? hk) u (List.mem_cons_of_mem t hu)
    · cases he

/-- The invariant of the runs where no pending waiter wakes up. -/
structure InTime (w : Closing ι α) : Prop where
  trunk : Inv w.sys
  pending : ∀ q ∈ w.pending, ∀ t ∈ q, Waits w.sys t
  signalled : ∀ p ∈ w.signalled, p.2 = false

theorem InTime.step {e : ClosingEvent ι α} (h : InTime w) (hc : Undisturbed e w) (he : Closing.step e w = some w') :
    InTime w' := by
  cases e with
  | call e =>
    obtain ⟨sys, hsys, rfl⟩ := Option.map_eq_some_iff.1 he
    refine ⟨(step_spec h.trunk hsys).1, ?_, h.signalled⟩
    intro q hq t ht
    rcases List.mem_append.1 hq with hold | hnew
    · rcases (h.pending q hold t ht).step hsys with hw | ⟨expired, rfl⟩
      · exact hw
      · exact absurd ht (hc q hold)
    · cases e with
      | close =>
        obtain rfl := Option.some.inj hsys
        obtain rfl := List.mem_singleton.1 hnew
        exact (h.trunk.waits ht).1
      | _ => exact absurd hnew List.not_mem_nil
  | notifyOne k =>
    unfold Closing.step at he
    dsimp only at he
    split at he
    · next t rest hk =>
      obtain rfl := Option.some.inj he
      refine ⟨h.trunk, fun q hq => ?_, fun p hp => ?_⟩
      · rcases List.mem_or_eq_of_mem_set hq with hq | rfl
        · exact h.pending q hq
        · exact fun u hu => h.pending _ (List.mem_of_getElem? hk) u (List.mem_cons_of_mem t hu)
      · rcases List.mem_append.1 hp with hp | hp
        · exact h.signalled p hp
        · obtain rfl := List.mem_singleton.1 hp
          exact (h.pending _ (List.mem_of_getElem? hk) t (List.mem_cons_self ..)).not_returned
    · cases he

/-- `close` comes to every waiter that it has collected. -/
theorem comes_to_signal {k : ℕ} {before after : List ι} (hk : w.pending[k]? = some (before ++ t :: after)) :
    ∃ w', Reaches Closing.step CloseOnly w w' ∧ (t, w.sys.hasReturned t) ∈ w'.signalled := by
  have hlt : k < w.pending.length := (List.getElem?_eq_some_iff.1 hk).1
  induction before generalizing w with
  | nil =>
    have hstep : Closing.step (.notifyOne k) w = some { w with
        pending := w.pending.set k after
        signalled := w.signalled ++ [(t, w.sys.hasReturned t)] } := by
      unfold Closing.step
      simp only [hk, List.nil_append]
    exact ⟨_, reaches_of_step (show CloseOnly (.notifyOne k) w from trivial) hstep,
      List.mem_append_right _ (List.mem_singleton_self _)⟩
  | cons u before ih =>
    have hstep : Closing.step (.notifyOne k) w = some { w with
        pending := w.pending.set k (before ++ t :: after)
        signalled := w.signalled ++ [(u, w.sys.hasReturned u)] } := by
      unfold Closing.step
      simp only [hk, List.cons_append]
    obtain ⟨w', hreach, hmem⟩ := ih (w := { w with pending := _, signalled := _ }) (List.getElem?_set_self hlt)
      (by rwa [List.length_set])
    exact ⟨w', (reaches_of_step (show CloseOnly (.notifyOne k) w from trivial) hstep).trans hreach, hmem⟩

/-- **`close` signals no call that has returned** where none wakes up that it still has to signal. Once one has
woken up, `close` goes on to signal a call that has returned. -/
theorem signals_in_time :
    (∀ w : Closing ι α, Reaches Closing.step Undisturbed Closing.start w → ∀ p ∈ w.signalled, p.2 = false) ∧
      ∀ (e : ClosingEvent ι α) (w w' : Closing ι α), Reaches Closing.step Free Closing.start w → ¬Undisturbed e w →
        Closing.step e w = some w' →
          ∃ w'' t, Reaches Closing.step CloseOnly w' w'' ∧ (t, true) ∈ w''.signalled := by
  constructor
  · intro w hw
    have hstart : InTime (Closing.start : Closing ι α) := ⟨inv_start, nofun, nofun⟩
    exact (hw.invariant (fun _ _ _ hi hc hs => hi.step hc hs) hstart).signalled
  · intro e w w' hw hwoken he
    have hstart : Collected (Closing.start : Closing ι α) := ⟨inv_start, nofun⟩
    have hcol := hw.invariant (I := Collected) (fun _ _ _ hi _ hs => hi.step hs) hstart
    match e with
    | .call (.wake t expired) =>
      obtain ⟨q, hq, ht⟩ : ∃ q ∈ w.pending, t ∈ q := by
        unfold Undisturbed at hwoken
        push Not at hwoken
        exact hwoken
      obtain ⟨hclosed, hnot⟩ := hcol.pending q hq t ht
      obtain ⟨sys, hsys, rfl⟩ := Option.map_eq_some_iff.1 he
      obtain ⟨k, hk⟩ := List.getElem?_of_mem hq
      obtain ⟨before, after, rfl⟩ := List.append_of_mem ht
      have hk' : (w.pending ++ collected (.wake t expired) w.sys.chan)[k]? = some (before ++ t :: after) := by
        rw [show collected (.wake t expired) w.sys.chan = [] from rfl, List.append_nil]
        exact hk
      obtain ⟨w'', hreach, hmem⟩ := comes_to_signal (w := { w with sys := sys, pending := _ }) hk'
      rw [wake_returns hclosed hnot hsys] at hmem
      exact ⟨w'', t, hreach, hmem⟩
    | .call (.tryPush ..) | .call (.tryGet _) | .call (.pushUntil ..) | .call (.getUntil ..) | .call .close
    | .notifyOne _ => exact absurd trivial hwoken

/-- A receiver waits, and is signalled before it wakes up; another one wakes up too early. -/
theorem signals_in_time_two :
    (∃ w : Closing ℕ ℕ, Reaches Closing.step Undisturbed Closing.start w ∧ w.signalled = [(0, false)] ∧
      ∀ p ∈ w.signalled, p.2 = false) ∧
    ∃ w' w'' : Closing ℕ ℕ, ∃ t, w'.sys.hasReturned 0 = true ∧ Reaches Closing.step CloseOnly w' w'' ∧
      (t, true) ∈ w''.signalled := by
  constructor
  · obtain ⟨w, hreach, hsignalled⟩ : ∃ w : Closing ℕ ℕ, Reaches Closing.step Undisturbed Closing.start w ∧
        w.signalled = [(0, false)] :=
      exists_of_checked [.call (.getUntil 0 false), .call .close, .notifyOne 0, .call (.wake 0 false)]
        (by decide +kernel)
    exact ⟨w, hreach, hsignalled, signals_in_time.1 w hreach⟩
  · obtain ⟨w, hreach, hwoken, hstep⟩ : ∃ w : Closing ℕ ℕ, Reaches Closing.step Free Closing.start w ∧
        ¬Undisturbed (.call (.wake 0 false)) w ∧
        (Closing.step (.call (.wake 0 false)) w).any (fun w' => w'.sys.hasReturned 0) = true :=
      exists_of_events [.call (.getUntil 0 false), .call .close] (by decide +kernel)
    obtain ⟨w', hw', hreturned⟩ := (Option.any_eq_true ..).1 hstep
    obtain ⟨w'', t, hreach', hmem⟩ := signals_in_time.2 _ w w' hreach hwoken hw'
    exact ⟨w', w'', t, hreturned, hreach', hmem⟩

/-- **A call can have returned** when it is signalled: its deadline passes between the two parts of `close`. -/
theorem signals_too_late :
    ¬∀ w : Closing ℕ ℕ, Reaches Closing.step Free Closing.start w → ∀ p ∈ w.signalled, p.2 = false := by
  intro h
  obtain ⟨w, hreach, hsignalled⟩ : ∃ w : Closing ℕ ℕ, Reaches Closing.step Free Closing.start w ∧
      w.signalled = [(0, true)] :=
    exists_of_events [.call (.getUntil 0 true), .call .close, .call (.wake 0 true), .notifyOne 0] (by decide +kernel)
  have hfalse := h w hreach (0, true) (by rw [hsignalled]; exact List.mem_singleton_self _)
  exact Bool.noConfusion hfalse

end Libtarp.Unbuffered
