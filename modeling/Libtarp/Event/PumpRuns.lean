import Libtarp.Event.Pump

/-!
# Runs of the event pump: monitors and watches

An event that is queued holds its monitor. `Evp_unregister_fdmon` leaves the queue alone, and the loop writes to
the monitor after its callback.

* `World.Forgets`: what is not registered is neither called nor referred to.
* `Careful`: the condition under which it holds in every run (`forgets_of_careful`).
* `called_after_unregistering`: a run in which a callback is called after its monitor was unregistered.
-/

namespace Libtarp.Event

open Function Lib

variable {T F W D : Type} (c : Client F W)

/-- The pump refers to registered monitors and watches only, and calls the callbacks of no others. -/
structure World.Forgets [DecidableEq T] (s : World T F W D) : Prop where
  interest : ∀ f, s.pump.fdRegistered f = false → ∀ n, s.pump.interest n ≠ some f
  evq : ∀ f, s.pump.fdRegistered f = false → .client f ∉ s.pump.evq
  callback : ∀ f, s.pump.fdRegistered f = false → s.running ≠ some (.fd f)
  watch : ∀ w, s.pump.watchRegistered w = false → ∀ n, s.pump.watch n ≠ some w
  watchCallback : ∀ w, s.pump.watchRegistered w = false → s.running = none → s.dispatch.running ≠ some (.watch w)

/-- A monitor is not unregistered with an event queued or from its own callback, and the entries that are read
of a batch are of registered monitors, each of another one. -/
def Careful [DecidableEq F] (e : Action T F W D) (s : World T F W D) : Prop :=
  match e with
  | .request (.unregisterFdmon f) => s.pump.fdRegistered f = true → .client f ∉ s.pump.evq ∧ s.running ≠ some (.fd f)
  | .pump b _ => (∀ i < b.rc, s.pump.Watches c (b.buff (entryIdx i)).ptr) ∧
    ∀ i < b.rc, ∀ j < b.rc, (b.buff (entryIdx i)).ptr = (b.buff (entryIdx j)).ptr → i = j
  | _ => True

instance [DecidableEq T] [DecidableEq F] [DecidableEq W] (e : Action T F W D) (s : World T F W D) :
    Decidable (Careful c e s) :=
  match e with
  | .request (.unregisterFdmon _) => instDecidableForall
  | .pump _ _ => instDecidableAnd
  | .request (.setTimerInterval ..) | .request (.registerTimer ..) | .request (.unregisterTimer ..)
  | .request (.registerFdmon ..) | .request (.registerUevWatch ..) | .request (.unregisterUevWatch ..)
  | .pushUev .. | .dispatch | .ret => .isTrue trivial

/-! ## The invariant -/

/-- Everything that the pump refers to is registered. -/
structure World.Kept (s : World T F W D) : Prop where
  interest : ∀ n f, s.pump.interest n = some f → s.pump.fdRegistered f = true ∧ c.fd f = n
  evq : ∀ f, .client f ∈ s.pump.evq → s.pump.fdRegistered f = true
  callback : ∀ f, s.running = some (.fd f) → s.pump.fdRegistered f = true
  watch : ∀ n w, s.pump.watch n = some w → s.pump.watchRegistered w = true ∧ c.eventType w = n

variable {c}

theorem World.Kept.new (tspec : T → Timespec) : (World.new tspec : World T F W D).Kept c :=
  ⟨nofun, nofun, nofun, nofun⟩

/-- A step that leaves monitors and watches alone keeps what it does not call. -/
theorem World.Kept.of_eq {s s' : World T F W D} (h : s.Kept c) (hinterest : s'.pump.interest = s.pump.interest)
    (hfd : s'.pump.fdRegistered = s.pump.fdRegistered) (hevq : ∀ f, .client f ∈ s'.pump.evq → .client f ∈ s.pump.evq)
    (hrunning : ∀ f, s'.running = some (.fd f) → s.running = some (.fd f) ∨ .client f ∈ s.pump.evq)
    (hwatch : s'.pump.watch = s.pump.watch) (hregistered : s'.pump.watchRegistered = s.pump.watchRegistered) :
    s'.Kept c where
  interest := by rw [hinterest, hfd]; exact h.interest
  evq f hf := by rw [hfd]; exact h.evq f (hevq f hf)
  callback f hf := by
    rw [hfd]
    rcases hrunning f hf with hcalled | hqueued
    · exact h.callback f hcalled
    · exact h.evq f hqueued
  watch := by rw [hwatch, hregistered]; exact h.watch

theorem World.Kept.registerFdmon [DecidableEq F] {s : World T F W D} (h : s.Kept c) (fdev : F) (able : Bool) :
    World.Kept c { s with pump := (registerFdmon c s.pump fdev able).1 } := by
  unfold Event.registerFdmon
  split_ifs with hregistered hable
  · exact h
  · have hkeep : ∀ f, s.pump.fdRegistered f = true → update s.pump.fdRegistered fdev true f = true := by
      intro f hf
      rw [update_apply]
      split_ifs
      · rfl
      · exact hf
    refine ⟨fun n f hf => ?_, fun f hf => hkeep f (h.evq f hf), fun f hf => hkeep f (h.callback f hf), h.watch⟩
    dsimp only at hf ⊢
    rw [update_apply] at hf
    split_ifs at hf with hn
    · obtain rfl := Option.some.inj hf
      exact ⟨update_self .., hn.symm⟩
    · exact ⟨hkeep f (h.interest n f hf).1, (h.interest n f hf).2⟩
  · exact h

theorem World.Kept.unregisterFdmon [DecidableEq F] {s : World T F W D} (h : s.Kept c) {fdev : F}
    (hcareful : s.pump.fdRegistered fdev = true → .client fdev ∉ s.pump.evq ∧ s.running ≠ some (.fd fdev)) :
    World.Kept c { s with pump := unregisterFdmon c s.pump fdev } := by
  unfold Event.unregisterFdmon
  split_ifs with hregistered
  · obtain ⟨hqueue, hcalled⟩ := hcareful hregistered
    have hkeep : ∀ f, f ≠ fdev → s.pump.fdRegistered f = true → update s.pump.fdRegistered fdev false f = true := by
      intro f hne hf
      rwa [update_of_ne hne]
    refine ⟨fun n f hf => ?_, fun f hf => ?_, fun f hf => ?_, h.watch⟩
    · dsimp only at hf ⊢
      rw [update_apply] at hf
      split_ifs at hf with hn
      obtain ⟨hold, hfd⟩ := h.interest n f hf
      refine ⟨hkeep f ?_ hold, hfd⟩
      rintro rfl
      exact hn hfd.symm
    · refine hkeep f ?_ (h.evq f hf)
      rintro rfl
      exact hqueue hf
    · refine hkeep f ?_ (h.callback f hf)
      rintro rfl
      exact hcalled hf
  · exact h

theorem World.Kept.registerUevWatch [DecidableEq W] {s : World T F W D} (h : s.Kept c) (uev : W) :
    World.Kept c { s with pump := (registerUevWatch c s.pump uev).1 } := by
  unfold Event.registerUevWatch
  split_ifs with hregistered htype
  · exact h
  · exact h
  · refine ⟨h.interest, h.evq, h.callback, fun n w hw => ?_⟩
    dsimp only at hw ⊢
    rw [update_apply] at hw ⊢
    split_ifs at hw with hn
    · obtain rfl := Option.some.inj hw
      exact ⟨if_pos rfl, hn.symm⟩
    · obtain ⟨hold, hn'⟩ := h.watch n w hw
      refine ⟨?_, hn'⟩
      split_ifs
      · rfl
      · exact hold

theorem World.Kept.unregisterUevWatch [DecidableEq W] {s : World T F W D} (h : s.Kept c) (uev : W) :
    World.Kept c { s with pump := unregisterUevWatch c s.pump uev } := by
  unfold Event.unregisterUevWatch
  split_ifs with hregistered
  · refine ⟨h.interest, h.evq, h.callback, fun n w hw => ?_⟩
    dsimp only at hw ⊢
    rw [update_apply] at hw ⊢
    split_ifs at hw with hn
    obtain ⟨hold, hn'⟩ := h.watch n w hw
    refine ⟨?_, hn'⟩
    rw [if_neg]
    · exact hold
    · rintro rfl
      exact hn hn'.symm
  · exact h

variable [DecidableEq T]

theorem World.Kept.request [DecidableEq F] [DecidableEq W] {s s' : World T F W D} {r : Request T F W} (h : s.Kept c)
    (hcareful : Careful c (.request r) s) (hs : s.request c r = some s') : s'.Kept c := by
  unfold World.request at hs
  cases r with
  | setTimerInterval tev ts =>
    obtain rfl := Option.some.inj hs
    exact h.of_eq rfl rfl (fun _ hf => hf) (fun _ hf => .inl hf) rfl rfl
  | registerTimer tev now =>
    obtain ⟨-, hs⟩ := Option.ite_none_right_eq_some.1 hs
    obtain rfl := Option.some.inj hs
    unfold Event.registerTimer
    dsimp only
    split_ifs
    all_goals exact h.of_eq rfl rfl (fun _ hf => hf) (fun _ hf => .inl hf) rfl rfl
  | unregisterTimer tev =>
    obtain rfl := Option.some.inj hs
    unfold Event.unregisterTimer
    dsimp only
    split_ifs
    all_goals exact h.of_eq rfl rfl (fun _ hf => hf) (fun _ hf => .inl hf) rfl rfl
  | registerFdmon fdev able =>
    obtain rfl := Option.some.inj hs
    exact h.registerFdmon fdev able
  | unregisterFdmon fdev =>
    obtain rfl := Option.some.inj hs
    exact h.unregisterFdmon hcareful
  | registerUevWatch uev =>
    obtain rfl := Option.some.inj hs
    exact h.registerUevWatch uev
  | unregisterUevWatch uev =>
    obtain rfl := Option.some.inj hs
    exact h.unregisterUevWatch uev

theorem World.Kept.dispatch {s : World T F W D} (h : s.Kept c) : s.dispatch.Kept c := by
  unfold World.dispatch
  split
  case h_1 => exact h
  case h_2 now _ =>
    split
    · exact h.of_eq rfl rfl (fun _ hf => hf) (fun _ hf => .inl hf) rfl rfl
    · split_ifs
      · exact h.of_eq rfl rfl (fun _ hf => hf) nofun rfl rfl
      · exact h.of_eq rfl rfl (fun _ hf => hf) (fun _ hf => .inl hf) rfl rfl
  case h_3 =>
    split
    case h_1 => exact h.of_eq rfl rfl (fun _ hf => hf) (fun _ hf => .inl hf) rfl rfl
    case h_2 fdev evq heq =>
      have htail : ∀ f, .client f ∈ evq → .client f ∈ s.pump.evq := by
        intro f hf
        rw [heq]
        exact List.mem_cons_of_mem _ hf
      cases fdev with
      | sem => exact h.of_eq rfl rfl htail (fun _ hf => .inl hf) rfl rfl
      | timerfd => exact h.of_eq rfl rfl htail (fun _ hf => .inl hf) rfl rfl
      | client f =>
        refine h.of_eq rfl rfl htail (fun f' hf => .inr ?_) rfl rfl
        obtain rfl : f = f' := by
          injection hf with hf
          injection hf
        rw [heq]
        exact List.mem_cons_self
  case h_4 =>
    split
    case h_1 => exact h.of_eq rfl rfl (fun _ hf => hf) (fun _ hf => .inl hf) rfl rfl
    case h_2 =>
      dsimp only
      split
      · exact h.of_eq rfl rfl (fun _ hf => hf) (fun _ hf => .inl hf) rfl rfl
      · exact h.of_eq rfl rfl (fun _ hf => hf) nofun rfl rfl

/-- What `pump_os_events` appends are the entries that it reads. -/
theorem pumpOsEvents_evq {φ : Type} [DecidableEq φ] (b : Batch φ) (q : Queue φ) :
    (pumpOsEvents b q).evq = q.evq ++ (List.range b.rc).map (fun i => (b.buff (entryIdx i)).ptr) := by
  unfold pumpOsEvents
  rw [List.range_eq_range']
  exact (pumpLoop_spec b.buff b.rc 0 { q with reads := [] }).1

/-- A client acts: the request is one that could be made. -/
theorem request_of_step [DecidableEq F] [DecidableEq W] {r : Request T F W} {s s' : World T F W D}
    (hs : World.step c (.request r) s = some s') : s.request c r = some s' := by
  unfold World.step at hs
  dsimp only at hs
  split at hs
  · exact hs
  · exact hs
  · cases hs

theorem World.Kept.step [DecidableEq F] [DecidableEq W] {e : Action T F W D} {s s' : World T F W D} (h : s.Kept c)
    (hcareful : Careful c e s) (hs : World.step c e s = some s') : s'.Kept c := by
  unfold World.step at hs
  cases e with
  | request r => exact h.request hcareful (request_of_step hs)
  | pushUev eventType data =>
    obtain rfl := Option.some.inj hs
    unfold Event.pushUev
    split_ifs
    all_goals exact h.of_eq rfl rfl (fun _ hf => hf) (fun _ hf => .inl hf) rfl rfl
  | pump b now =>
    dsimp only at hs
    split at hs
    · split_ifs at hs
      obtain rfl := Option.some.inj hs
      refine ⟨h.interest, fun f hf => ?_, h.callback, h.watch⟩
      dsimp only at hf
      rw [pumpOsEvents_evq, List.mem_append, List.mem_map] at hf
      rcases hf with hold | ⟨i, hi, hread⟩
      · exact h.evq f hold
      · have hwatches := hcareful.1 i (List.mem_range.1 hi)
        rw [hread] at hwatches
        exact (h.interest _ f hwatches).1
    · cases hs
  | dispatch =>
    dsimp only at hs
    split_ifs at hs
    obtain rfl := Option.some.inj hs
    exact h.dispatch
  | ret =>
    dsimp only at hs
    split at hs
    · cases hs
    all_goals
      obtain rfl := Option.some.inj hs
      exact h.of_eq rfl rfl (fun _ hf => hf) nofun rfl rfl

theorem World.Kept.forgets {s : World T F W D} (h : s.Kept c) : s.Forgets where
  interest f hf n hn := by
    have := (h.interest n f hn).1
    rw [hf] at this
    cases this
  evq f hf hqueued := by
    have := h.evq f hqueued
    rw [hf] at this
    cases this
  callback f hf hcalled := by
    have := h.callback f hcalled
    rw [hf] at this
    cases this
  watch w hw n hn := by
    have := (h.watch n w hn).1
    rw [hw] at this
    cases this
  watchCallback w hw hnone hcalled := by
    -- the watch that is called stands in the table
    have hfound : ∃ n, s.pump.watch n = some w := by
      unfold World.dispatch at hcalled
      split at hcalled
      case h_1 => rw [hnone] at hcalled; cases hcalled
      case h_2 =>
        split at hcalled
        · rw [hnone] at hcalled; cases hcalled
        · split_ifs at hcalled
          · cases hcalled
          · rw [hnone] at hcalled; cases hcalled
      case h_3 =>
        split at hcalled
        case h_1 => rw [hnone] at hcalled; cases hcalled
        case h_2 fdev evq heq =>
          cases fdev with
          | sem => rw [hnone] at hcalled; cases hcalled
          | timerfd => rw [hnone] at hcalled; cases hcalled
          | client f => cases hcalled
      case h_4 =>
        split at hcalled
        case h_1 => rw [hnone] at hcalled; cases hcalled
        case h_2 =>
          dsimp only at hcalled
          split at hcalled
          · rw [hnone] at hcalled; cases hcalled
          · rename_i uev heq
            injection hcalled with hcalled
            injection hcalled with hcalled
            exact ⟨_, heq.trans (congrArg some hcalled)⟩
    obtain ⟨n, hn⟩ := hfound
    have := (h.watch n w hn).1
    rw [hw] at this
    cases this

/-- **What is unregistered is forgotten**: in every run of careful steps, the pump refers to registered monitors and
watches only. -/
theorem forgets_of_careful [DecidableEq F] [DecidableEq W] (c : Client F W) (tspec : T → Timespec) {s : World T F W D}
    (h : Reaches (World.step c) (Careful c) (World.new tspec) s) : s.Forgets :=
  (h.invariant (fun _ _ _ hk hc hs => hk.step hc hs) (World.Kept.new tspec)).forgets

/-! ## One monitor and one timer -/

/-- One monitor of the file descriptor 3, and one watch. -/
def oneClient : Client Unit Unit where
  fd _ := 3
  eventType _ := 0
  bound _ := by decide

/-- A batch with one event, of the monitor. -/
def oneEvent : Batch (FdEvent Unit) where
  buff _ := { events := EPOLLIN, ptr := .client () }
  rc := 1
  pos := by decide
  bound := by decide
  distinct i hi j hj _ := (Nat.lt_one_iff.1 hi).trans (Nat.lt_one_iff.1 hj).symm

def seconds (n : ℕ) : Timespec where
  sec := Int64.ofNat n
  nsec := 0
  nsec_lt := nsecsPerSec_pos

/-- The timer is registered without an interval; its callback runs when the event of the monitor is queued. -/
def timerFirst : List (Action Unit Unit Unit Unit) :=
  [.request (.registerFdmon () true), .request (.registerTimer () (seconds 0)), .pump oneEvent (seconds 1), .dispatch]

theorem forgets_of_careful_one : ∃ s, Reaches (World.step oneClient) (Careful oneClient)
    (World.new fun _ : Unit => seconds 0 : World Unit Unit Unit Unit) s ∧ s.Forgets := by
  obtain ⟨s, hreach, -⟩ : ∃ s, Reaches (World.step oneClient) (Careful oneClient)
      (World.new fun _ : Unit => seconds 0 : World Unit Unit Unit Unit) s ∧
        s.pump.fdRegistered () = false :=
    exists_of_checked (timerFirst ++ [.ret, .dispatch, .dispatch, .ret, .dispatch, .dispatch,
      .request (.unregisterFdmon ())]) (by decide +kernel)
  exact ⟨s, hreach, forgets_of_careful oneClient _ hreach⟩

/-- **A monitor is called after it was unregistered**: the callback of a timer unregisters it while its event is
queued, and its own callback runs after that. -/
theorem called_after_unregistering : ¬∀ s, Reaches (World.step oneClient) Free
    (World.new fun _ : Unit => seconds 0 : World Unit Unit Unit Unit) s → s.Forgets := by
  intro hall
  obtain ⟨s, hreach, hregistered, hcalled⟩ : ∃ s, Reaches (World.step oneClient) Free
      (World.new fun _ : Unit => seconds 0 : World Unit Unit Unit Unit) s ∧
        (s.pump.fdRegistered () = false ∧ s.running = some (.fd ())) :=
    exists_of_events (timerFirst ++ [.request (.unregisterFdmon ()), .ret, .dispatch, .dispatch]) (by decide +kernel)
  exact (hall s hreach).callback () hregistered hcalled

end Libtarp.Event
