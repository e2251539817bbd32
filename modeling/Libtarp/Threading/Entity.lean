import Libtarp.Threading.ThreadPool
import Mathlib.Algebra.Order.Ring.Int

/-!
# The hooks of a thread entity (`misc/threading.cxx`)

Other threads call `run`, `pause` and `stop` at any time; the thread of the entity goes round `loop` and calls the
hooks, which are logged. A wake-up of the wait in `loop` that finds the state `PAUSED` changes nothing.

* `Contract`: what `threading.hxx` says of the hooks.
* `contract_of_unpaused`: it is kept by the runs where `stop` does not come while the thread waits, and broken by a
  `stop` that does.
-/

namespace Libtarp.Threading

open Lib

/-- A time in the 64-bit nanoseconds of the clock. A sum that they do not have wraps round. -/
def timePoint (t : ℤ) : ℤ := t.bmod (2 ^ 64)

/-- The clock has the time. -/
def Fits (t : ℤ) : Prop := -2 ^ 63 ≤ t ∧ t < 2 ^ 63

instance (t : ℤ) : Decidable (Fits t) := inferInstanceAs (Decidable (_ ∧ _))

theorem timePoint_of_fits {t : ℤ} (h : Fits t) : timePoint t = t := by
  obtain ⟨hlow, hhigh⟩ := h
  exact Int.bmod_eq_of_le (by omega) (by omega)

/-- A hook that has been called; for `prepare_resume`, whether `run` had ended the pause. -/
inductive Hook
  /-- `initialize` -/
  | init
  | prepareResume (byRun : Bool)
  | doWork
  | cleanup
  deriving DecidableEq

/-- Where the thread of the entity is. -/
inductive LoopPc
  | unspawned
  /-- About to call `initialize`. -/
  | init
  /-- About to lock the mutex and look at the state. -/
  | top
  /-- About to call `do_work`. -/
  | doWork
  /-- In the wait for the end of a pause. -/
  | waiting
  /-- About to call `prepare_resume`. -/
  | prepareResume (byRun : Bool)
  /-- About to call `cleanup`. -/
  | cleanup
  | exited
  deriving DecidableEq

/-- `class ThreadEntity`, the hooks called so far, and how many threads were spawned. `resumed` tells whether `run`
has been called since the entity was last paused. -/
structure Entity where
  state : ThreadState
  pc : LoopPc
  hooks : List Hook
  spawned : ℕ
  resumed : Bool

inductive EntityEvent
  | run
  | pause
  | stop
  /-- The thread of the entity goes on. -/
  | loop
  deriving DecidableEq

namespace Entity

def new : Entity where
  state := .initialized
  pc := .unspawned
  hooks := []
  spawned := 0
  resumed := false

/-- `ThreadEntity::run`. -/
def run (s : Entity) : Entity :=
  let (state, spawn) := Threading.run s.state
  { s with
    state := state
    pc := if spawn then .init else s.pc
    spawned := if spawn then s.spawned + 1 else s.spawned
    resumed := if s.state = .paused then true else s.resumed }

/-- `ThreadEntity::pause`. -/
def pause (s : Entity) : Entity :=
  { s with state := Threading.pause s.state, resumed := if s.state = .running then false else s.resumed }

/-- `ThreadEntity::stop`, but for the join. -/
def stop (s : Entity) : Entity := { s with state := setState s.state .stopped }

/-- `ThreadEntity::loop`, from one change of the place to the next. -/
def loop (s : Entity) : Option Entity :=
  match s.pc with
  | .unspawned | .exited => none
  | .init => some { s with pc := .top, hooks := s.hooks ++ [.init] }
  | .top =>
    match s.state with
    | .running => some { s with pc := .doWork }
    | .paused => some { s with pc := .waiting }
    | .stopped => some { s with pc := .cleanup }
    | .initialized => none
  | .doWork => some { s with pc := .top, hooks := s.hooks ++ [.doWork] }
  | .waiting => if s.state ≠ .paused then some { s with pc := .prepareResume s.resumed } else none
  | .prepareResume byRun => some { s with pc := .top, hooks := s.hooks ++ [.prepareResume byRun] }
  | .cleanup => some { s with pc := .exited, hooks := s.hooks ++ [.cleanup] }

def step (e : EntityEvent) (s : Entity) : Option Entity :=
  match e with
  | .run => some s.run
  | .pause => some s.pause
  | .stop => some s.stop
  | .loop => s.loop

/-- The thread has begun: `initialize` has been called. -/
def Begun (s : Entity) : Prop := s.pc ≠ .unspawned ∧ s.pc ≠ .init

/-- What the hooks are for, in one state. -/
structure Hooks (s : Entity) : Prop where
  spawned : s.spawned ≤ 1
  /-- `initialize` comes first, and once. -/
  begun : s.Begun → ∃ hooks, s.hooks = .init :: hooks ∧ .init ∉ hooks
  notBegun : ¬s.Begun → s.hooks = []
  /-- `cleanup` comes last, and once, when the thread has been stopped. -/
  cleanup : s.pc = .exited → s.state = .stopped ∧ ∃ hooks, s.hooks = hooks ++ [.cleanup] ∧ .cleanup ∉ hooks
  notExited : s.pc ≠ .exited → .cleanup ∉ s.hooks

/-- Only the thread of the entity goes on. -/
def Alone (e : EntityEvent) (_ : Entity) : Prop := e = .loop

/-- The contract: the hooks are called as they should, `STOPPED` is not left, a thread that is stopped comes to its
end when it goes on, and `prepare_resume` is called when `run` has ended a pause. -/
structure Contract (s : Entity) : Prop where
  hooks : s.Hooks
  stopped : s.state = .stopped → ∀ e s', step e s = some s' → s'.state = .stopped
  ends : s.state = .stopped → s.spawned ≠ 0 → ∃ s', Reaches step Alone s s' ∧ s'.pc = .exited
  resume : ∀ byRun, .prepareResume byRun ∈ s.hooks → byRun = true

/-- `stop` does not come while the thread waits, paused. -/
def Unpaused (e : EntityEvent) (s : Entity) : Prop := e = .stop → ¬(s.pc = .waiting ∧ s.state = .paused)

instance (e : EntityEvent) (s : Entity) : Decidable (Unpaused e s) := inferInstanceAs (Decidable (_ → _))

/-! ## What a step does -/

variable {s s' : Entity} {e : EntityEvent}

theorem setState_stopped (state : ThreadState) : setState state .stopped = .stopped := by
  unfold setState
  split_ifs with h
  · exact h
  · rfl

theorem loop_state (hs : s.loop = some s') : s'.state = s.state := by
  unfold loop at hs
  cases hpc : s.pc <;> simp only [hpc, reduceCtorEq] at hs
  case top =>
    split at hs
    all_goals first | (obtain rfl := Option.some.inj hs; rfl) | cases hs
  case waiting =>
    split_ifs at hs
    obtain rfl := Option.some.inj hs
    rfl
  all_goals
    obtain rfl := Option.some.inj hs
    rfl

/-- Only a thread that runs comes to `do_work`. -/
theorem loop_doWork (hs : s.loop = some s') (hpc' : s'.pc = .doWork) : s.state = .running := by
  unfold loop at hs
  cases hpc : s.pc <;> simp only [hpc, reduceCtorEq] at hs
  case top =>
    split at hs
    · assumption
    all_goals first | (obtain rfl := Option.some.inj hs; cases hpc') | cases hs
  case waiting =>
    split_ifs at hs
    obtain rfl := Option.some.inj hs
    cases hpc'
  all_goals
    obtain rfl := Option.some.inj hs
    cases hpc'

theorem loop_of_doWork (hpc : s.pc = .doWork) : s.loop = some { s with pc := .top, hooks := s.hooks ++ [.doWork] } := by
  unfold loop
  rw [hpc]

theorem loop_unspawned (hpc : s.pc = .unspawned) : s.loop = none := by
  unfold loop
  rw [hpc]

/-- When it has gone on, `initialize` has been called. -/
theorem loop_begun (hs : s.loop = some s') : s'.Begun := by
  unfold Begun
  unfold loop at hs
  cases hpc : s.pc <;> simp only [hpc, reduceCtorEq] at hs
  case top =>
    split at hs
    all_goals first | (obtain rfl := Option.some.inj hs; exact ⟨nofun, nofun⟩) | cases hs
  case waiting =>
    split_ifs at hs
    obtain rfl := Option.some.inj hs
    exact ⟨nofun, nofun⟩
  all_goals
    obtain rfl := Option.some.inj hs
    exact ⟨nofun, nofun⟩

/-- **A stopped entity** stays stopped. -/
theorem stopped_step (h : s.state = .stopped) (hs : step e s = some s') : s'.state = .stopped := by
  cases e with
  | run =>
    obtain rfl := Option.some.inj hs
    unfold run Threading.run
    rw [h]
  | pause =>
    obtain rfl := Option.some.inj hs
    unfold pause Threading.pause
    rw [h]
    rfl
  | stop =>
    obtain rfl := Option.some.inj hs
    exact setState_stopped _
  | loop =>
    unfold step loop at hs
    cases hpc : s.pc <;> simp only [hpc, h, reduceCtorEq, ne_eq, not_false_eq_true, if_true] at hs
    all_goals
      obtain rfl := Option.some.inj hs
      first | exact h | rfl

/-- The calls of other threads call no hook, and move the thread only where they spawn it. -/
structure Calls (s s' : Entity) : Prop where
  hooks : s'.hooks = s.hooks
  state : (s'.state = .initialized → s.state = .initialized) ∧ (s.state = .stopped → s'.state = .stopped)
  pc : s'.pc = s.pc ∧ s'.spawned = s.spawned ∧ (s.state = .initialized → s'.state = .initialized ∨ s'.state = .stopped) ∨
    s.state = .initialized ∧ s'.state = .running ∧ s'.pc = .init ∧ s'.spawned = s.spawned + 1

theorem calls_run (s : Entity) : Calls s s.run := by
  unfold run Threading.run
  cases h : s.state with
  | initialized => exact ⟨rfl, ⟨fun _ => h, by simp [h]⟩, .inr ⟨h, rfl, rfl, rfl⟩⟩
  | stopped => exact ⟨rfl, ⟨nofun, fun _ => rfl⟩, .inl ⟨rfl, rfl, by simp [h]⟩⟩
  | _ => exact ⟨rfl, ⟨nofun, by simp [h]⟩, .inl ⟨rfl, rfl, by simp [h]⟩⟩

theorem calls_pause (s : Entity) : Calls s s.pause := by
  unfold pause Threading.pause
  cases h : s.state with
  | running => exact ⟨rfl, ⟨nofun, by simp [h]⟩, .inl ⟨rfl, rfl, by simp [h]⟩⟩
  | _ => exact ⟨rfl, ⟨by simp [h], by simp [h]⟩, .inl ⟨rfl, rfl, by simp [h]⟩⟩

theorem calls_stop (s : Entity) : Calls s s.stop := by
  have hstopped : s.stop.state = .stopped := setState_stopped _
  refine ⟨rfl, ⟨fun h => ?_, fun _ => hstopped⟩, .inl ⟨rfl, rfl, fun _ => .inr hstopped⟩⟩
  rw [hstopped] at h
  cases h

/-! ## Runs -/

/-- The invariant. The thread is spawned once, out of the first state. -/
structure Inv (s : Entity) : Prop where
  hooks : s.Hooks
  fresh : s.state = .initialized → s.pc = .unspawned ∧ s.spawned = 0
  unspawned : s.pc = .unspawned → (s.state = .initialized ∨ s.state = .stopped) ∧ s.spawned = 0
  stopping : s.pc = .cleanup → s.state = .stopped

theorem start_inv : new.Inv where
  hooks := ⟨Nat.zero_le 1, fun h => absurd rfl h.1, fun _ => rfl, nofun, fun _ => List.not_mem_nil⟩
  fresh := fun _ => ⟨rfl, rfl⟩
  unspawned := fun _ => ⟨.inl rfl, rfl⟩
  stopping := nofun

/-- **A call of another thread.** -/
theorem Inv.call (h : s.Inv) (hc : Calls s s') : s'.Inv := by
  obtain ⟨hhooks, ⟨hfresh, hstopped⟩, ⟨hpc, hspawned, hinit⟩ | ⟨hinit, hrunning, hpc, hspawned⟩⟩ := hc
  · refine ⟨⟨?_, ?_, ?_, ?_, ?_⟩, fun hf => ?_, fun hu => ?_, fun hcl => ?_⟩
    · rw [hspawned]
      exact h.hooks.spawned
    · unfold Begun
      rw [hpc, hhooks]
      exact h.hooks.begun
    · unfold Begun
      rw [hpc, hhooks]
      exact h.hooks.notBegun
    · rw [hpc, hhooks]
      exact fun he => ⟨hstopped (h.hooks.cleanup he).1, (h.hooks.cleanup he).2⟩
    · rw [hpc, hhooks]
      exact h.hooks.notExited
    · rw [hpc, hspawned]
      exact h.fresh (hfresh hf)
    · rw [hpc] at hu
      rw [hspawned]
      obtain ⟨hor, hzero⟩ := h.unspawned hu
      exact ⟨hor.elim hinit fun hst => .inr (hstopped hst), hzero⟩
    · rw [hpc] at hcl
      exact hstopped (h.stopping hcl)
  · -- the thread is spawned
    obtain ⟨hun, hzero⟩ := h.fresh hinit
    have hnil : s'.hooks = [] := hhooks.trans (h.hooks.notBegun fun hb => hb.1 hun)
    refine ⟨⟨?_, fun hb => absurd hpc hb.2, fun _ => hnil, ?_, ?_⟩, ?_, ?_, ?_⟩
    · omega
    · rw [hpc]
      nofun
    · rw [hnil]
      exact fun _ => List.not_mem_nil
    · rw [hrunning]
      nofun
    · rw [hpc]
      nofun
    · rw [hpc]
      nofun

/-- The thread goes on, after `initialize` and before `cleanup`. -/
theorem Inv.goes (h : s.Inv) (hb : s.Begun) (hne : s.pc ≠ .exited) (hb' : s'.Begun) (hne' : s'.pc ≠ .exited)
    (hstate : s'.state = s.state) (hspawned : s'.spawned = s.spawned) {new : List Hook}
    (hhooks : s'.hooks = s.hooks ++ new) (hnew : .init ∉ new ∧ .cleanup ∉ new)
    (hcl : s'.pc = .cleanup → s.state = .stopped) : s'.Inv := by
  refine ⟨⟨?_, fun _ => ?_, fun hno => absurd hb' hno, fun he => absurd he hne', fun _ => ?_⟩, fun hf => ?_,
    fun hu => absurd hu hb'.1, fun hc => ?_⟩
  · rw [hspawned]
    exact h.hooks.spawned
  · obtain ⟨hooks, heq, hnot⟩ := h.hooks.begun hb
    refine ⟨hooks ++ new, by rw [hhooks, heq, List.cons_append], ?_⟩
    rw [List.mem_append, not_or]
    exact ⟨hnot, hnew.1⟩
  · rw [hhooks, List.mem_append, not_or]
    exact ⟨h.hooks.notExited hne, hnew.2⟩
  · rw [hstate] at hf
    exact absurd (h.fresh hf).1 hb.1
  · rw [hstate]
    exact hcl hc

/-- **A step of the thread.** -/
theorem Inv.loop (h : s.Inv) (hs : s.loop = some s') : s'.Inv := by
  unfold Entity.loop at hs
  cases hpc : s.pc with
  | unspawned => simp [hpc] at hs
  | exited => simp [hpc] at hs
  | init =>
    simp only [hpc] at hs
    obtain rfl := Option.some.inj hs
    -- the first hook of all
    have hnil : s.hooks = [] := h.hooks.notBegun fun hb => hb.2 hpc
    refine ⟨⟨h.hooks.spawned, fun _ => ⟨[], ?_, List.not_mem_nil⟩, fun hno => absurd ⟨nofun, nofun⟩ hno, nofun,
      fun _ => ?_⟩, fun hf => ?_, nofun, nofun⟩
    · show s.hooks ++ [.init] = [.init]
      rw [hnil, List.nil_append]
    · show .cleanup ∉ s.hooks ++ [.init]
      rw [hnil]
      simp
    · exact absurd ((h.fresh hf).1.symm.trans hpc) nofun
  | top =>
    have hb : s.Begun := by simp [Begun, hpc]
    simp only [hpc] at hs
    split at hs
    · obtain rfl := Option.some.inj hs
      exact h.goes hb (by simp [hpc]) ⟨nofun, nofun⟩ nofun rfl rfl (List.append_nil _).symm (by simp) nofun
    · obtain rfl := Option.some.inj hs
      exact h.goes hb (by simp [hpc]) ⟨nofun, nofun⟩ nofun rfl rfl (List.append_nil _).symm (by simp) nofun
    · next hstopped =>
      obtain rfl := Option.some.inj hs
      exact h.goes hb (by simp [hpc]) ⟨nofun, nofun⟩ nofun rfl rfl (List.append_nil _).symm (by simp) fun _ => hstopped
    · cases hs
  | doWork =>
    simp only [hpc] at hs
    obtain rfl := Option.some.inj hs
    exact h.goes (by simp [Begun, hpc]) (by simp [hpc]) ⟨nofun, nofun⟩ nofun rfl rfl rfl (by simp) nofun
  | waiting =>
    simp only [hpc] at hs
    split_ifs at hs
    obtain rfl := Option.some.inj hs
    exact h.goes (by simp [Begun, hpc]) (by simp [hpc]) ⟨nofun, nofun⟩ nofun rfl rfl (List.append_nil _).symm (by simp) nofun
  | prepareResume byRun =>
    simp only [hpc] at hs
    obtain rfl := Option.some.inj hs
    exact h.goes (by simp [Begun, hpc]) (by simp [hpc]) ⟨nofun, nofun⟩ nofun rfl rfl rfl (by simp) nofun
  | cleanup =>
    simp only [hpc] at hs
    obtain rfl := Option.some.inj hs
    obtain ⟨hooks, heq, hnot⟩ := h.hooks.begun (by simp [Begun, hpc])
    have hstopped := h.stopping hpc
    refine ⟨⟨h.hooks.spawned, fun _ => ⟨hooks ++ [.cleanup], ?_, by simp [hnot]⟩, fun hno => absurd ⟨nofun, nofun⟩ hno,
      fun _ => ⟨hstopped, s.hooks, rfl, h.hooks.notExited (by simp [hpc])⟩, fun hne => absurd rfl hne⟩, fun hf => ?_,
      nofun, nofun⟩
    · show s.hooks ++ [.cleanup] = .init :: (hooks ++ [.cleanup])
      rw [heq, List.cons_append]
    · exact absurd (hf.symm.trans hstopped) nofun

theorem Inv.step (h : s.Inv) (hs : Entity.step e s = some s') : s'.Inv := by
  cases e with
  | run =>
    obtain rfl := Option.some.inj hs
    exact h.call (calls_run s)
  | pause =>
    obtain rfl := Option.some.inj hs
    exact h.call (calls_pause s)
  | stop =>
    obtain rfl := Option.some.inj hs
    exact h.call (calls_stop s)
  | loop => exact h.loop hs

theorem goesOn {s₀ : Entity} (h : Reaches Entity.step Alone s₀ s) (hs : Entity.step .loop s = some s') :
    Reaches Entity.step Alone s₀ s' := h.next (show Alone .loop s from rfl) hs

theorem ends_of_top (hstopped : s.state = .stopped) (hpc : s.pc = .top) :
    ∃ s', Reaches Entity.step Alone s s' ∧ s'.pc = .exited := by
  have htop : Entity.step .loop s = some { s with pc := .cleanup } := by
    unfold Entity.step Entity.loop
    simp only [hpc, hstopped]
  exact ⟨_, goesOn (goesOn .start htop) rfl, rfl⟩

/-- **A thread that is stopped** comes to its end. -/
theorem Inv.ends (h : s.Inv) (hstopped : s.state = .stopped) (hspawned : s.spawned ≠ 0) :
    ∃ s', Reaches Entity.step Alone s s' ∧ s'.pc = .exited := by
  have hgo : ∀ s₁ : Entity, Entity.step .loop s = some s₁ → s₁.state = .stopped → s₁.pc = .top →
      ∃ s', Reaches Entity.step Alone s s' ∧ s'.pc = .exited := by
    intro s₁ hs hst hpc
    obtain ⟨s', hreach, hend⟩ := ends_of_top hst hpc
    exact ⟨s', (goesOn .start hs).trans hreach, hend⟩
  -- every place of the loop leads to its top, where a stopped thread leaves
  cases hpc : s.pc with
  | unspawned => exact absurd (h.unspawned hpc).2 hspawned
  | exited => exact ⟨s, .start, hpc⟩
  | top => exact ends_of_top hstopped hpc
  | cleanup =>
    refine ⟨{ s with pc := .exited, hooks := s.hooks ++ [.cleanup] }, goesOn .start ?_, rfl⟩
    unfold Entity.step Entity.loop
    simp only [hpc]
  | init =>
    refine hgo { s with pc := .top, hooks := s.hooks ++ [.init] } ?_ hstopped rfl
    unfold Entity.step Entity.loop
    simp only [hpc]
  | doWork =>
    refine hgo { s with pc := .top, hooks := s.hooks ++ [.doWork] } ?_ hstopped rfl
    unfold Entity.step Entity.loop
    simp only [hpc]
  | prepareResume byRun =>
    refine hgo { s with pc := .top, hooks := s.hooks ++ [.prepareResume byRun] } ?_ hstopped rfl
    unfold Entity.step Entity.loop
    simp only [hpc]
  | waiting =>
    have hleave : Entity.step .loop s = some { s with pc := .prepareResume s.resumed } := by
      unfold Entity.step Entity.loop
      simp only [hpc, hstopped]
      rfl
    have hcall : Entity.step .loop { s with pc := .prepareResume s.resumed } =
        some { s with pc := .top, hooks := s.hooks ++ [.prepareResume s.resumed] } := rfl
    obtain ⟨s', hreach, hend⟩ := ends_of_top (s := { s with pc := .top, hooks := s.hooks ++ [.prepareResume s.resumed] })
      hstopped rfl
    exact ⟨s', (goesOn (goesOn .start hleave) hcall).trans hreach, hend⟩

/-- The pauses that end are ended by `run`. -/
structure Asked (s : Entity) : Prop where
  called : ∀ byRun, .prepareResume byRun ∈ s.hooks → byRun = true
  leaving : ∀ byRun, s.pc = .prepareResume byRun → byRun = true
  waiting : s.pc = .waiting → s.state = .paused ∨ s.resumed = true

theorem Asked.step (h : s.Asked) (hc : Unpaused e s) (hs : Entity.step e s = some s') : s'.Asked := by
  cases e with
  | run =>
    obtain rfl := Option.some.inj hs
    unfold Entity.run Threading.run
    cases hstate : s.state with
    | initialized => exact ⟨h.called, nofun, nofun⟩
    | paused => exact ⟨h.called, h.leaving, fun _ => .inr rfl⟩
    | running => exact ⟨h.called, h.leaving, fun hw => .inr ((h.waiting hw).resolve_left (by simp [hstate]))⟩
    | stopped => exact ⟨h.called, h.leaving, fun hw => .inr ((h.waiting hw).resolve_left (by simp [hstate]))⟩
  | pause =>
    obtain rfl := Option.some.inj hs
    refine ⟨h.called, h.leaving, fun hw => ?_⟩
    unfold Entity.pause Threading.pause
    cases hstate : s.state with
    | running => exact .inl rfl
    | paused => exact .inl rfl
    | initialized => exact .inr ((h.waiting hw).resolve_left (by simp [hstate]))
    | stopped => exact .inr ((h.waiting hw).resolve_left (by simp [hstate]))
  | stop =>
    obtain rfl := Option.some.inj hs
    exact ⟨h.called, h.leaving, fun hw => .inr ((h.waiting hw).resolve_left fun hp => hc rfl ⟨hw, hp⟩)⟩
  | loop =>
    unfold Entity.step Entity.loop at hs
    -- a hook other than `prepare_resume` is called, or none
    have hother : ∀ (pc : LoopPc) (new : List Hook), (∀ byRun, pc ≠ .prepareResume byRun) → pc ≠ .waiting →
        (∀ byRun, .prepareResume byRun ∈ new → byRun = true) → Asked { s with pc := pc, hooks := s.hooks ++ new } := by
      intro pc new hno hnw hnew
      refine ⟨fun byRun hmem => ?_, fun byRun hpc => absurd hpc (hno byRun), fun hpc => absurd hpc hnw⟩
      exact (List.mem_append.1 hmem).elim (h.called byRun) (hnew byRun)
    cases hpc : s.pc with
    | unspawned => simp [hpc] at hs
    | exited => simp [hpc] at hs
    | top =>
      simp only [hpc] at hs
      split at hs
      · obtain rfl := Option.some.inj hs
        exact ⟨h.called, nofun, nofun⟩
      · next hpaused =>
        obtain rfl := Option.some.inj hs
        exact ⟨h.called, nofun, fun _ => .inl hpaused⟩
      · obtain rfl := Option.some.inj hs
        exact ⟨h.called, nofun, nofun⟩
      · cases hs
    | waiting =>
      simp only [hpc] at hs
      split_ifs at hs with hno
      obtain rfl := Option.some.inj hs
      refine ⟨h.called, ?_, nofun⟩
      rintro byRun heq
      obtain rfl := LoopPc.prepareResume.inj heq
      exact (h.waiting hpc).resolve_left hno
    | init =>
      simp only [hpc] at hs
      obtain rfl := Option.some.inj hs
      exact hother .top [.init] nofun nofun (by simp)
    | doWork =>
      simp only [hpc] at hs
      obtain rfl := Option.some.inj hs
      exact hother .top [.doWork] nofun nofun (by simp)
    | prepareResume byRun =>
      simp only [hpc] at hs
      obtain rfl := Option.some.inj hs
      refine hother .top [.prepareResume byRun] nofun nofun fun b hb => ?_
      obtain rfl := Hook.prepareResume.inj (List.mem_singleton.1 hb)
      exact h.leaving b hpc
    | cleanup =>
      simp only [hpc] at hs
      obtain rfl := Option.some.inj hs
      exact hother .exited [.cleanup] nofun nofun (by simp)

/-- In a pause `run` has not been called. -/
theorem resumed_step (h : s.state = .paused → s.resumed = false) (hs : Entity.step e s = some s') :
    s'.state = .paused → s'.resumed = false := by
  cases e with
  | run =>
    obtain rfl := Option.some.inj hs
    unfold Entity.run Threading.run
    cases hstate : s.state <;> exact nofun
  | pause =>
    obtain rfl := Option.some.inj hs
    unfold Entity.pause Threading.pause
    cases hstate : s.state with
    | running => exact fun _ => rfl
    | paused => exact fun _ => h hstate
    | _ => exact nofun
  | stop =>
    obtain rfl := Option.some.inj hs
    intro hp
    exact absurd ((setState_stopped s.state).symm.trans hp) nofun
  | loop =>
    unfold Entity.step Entity.loop at hs
    cases hpc : s.pc <;> simp only [hpc, reduceCtorEq] at hs
    case top =>
      split at hs
      all_goals first | (obtain rfl := Option.some.inj hs; exact h) | cases hs
    case waiting =>
      split_ifs at hs
      obtain rfl := Option.some.inj hs
      exact h
    all_goals
      obtain rfl := Option.some.inj hs
      exact h

end Entity

open Entity

/-- **The contract of the hooks** is kept where `stop` does not come while the thread waits for the end of a pause.
Where it does, the thread goes on to call `prepare_resume`. -/
theorem contract_of_unpaused (s : Entity) :
    (Reaches Entity.step Unpaused Entity.new s → s.Contract) ∧
      ∀ (e : EntityEvent) (s' : Entity), Reaches Entity.step Free Entity.new s → ¬Unpaused e s →
        Entity.step e s = some s' → ∃ s'', Reaches Entity.step Alone s' s'' ∧ ¬s''.Contract := by
  constructor
  · intro hs
    have hinv : s.Inv := hs.invariant (fun _ _ _ hi _ hstep => hi.step hstep) start_inv
    have hasked : s.Asked := hs.invariant (fun _ _ _ hi hc hstep => hi.step hc hstep) ⟨nofun, nofun, nofun⟩
    exact ⟨hinv.hooks, fun h _ _ hstep => stopped_step h hstep, hinv.ends, hasked.called⟩
  · intro e s' hs hpaused hstep
    obtain ⟨rfl, hpc, hstate⟩ : e = .stop ∧ s.pc = .waiting ∧ s.state = .paused := by
      unfold Unpaused at hpaused
      push Not at hpaused
      exact hpaused
    have hresumed : s.resumed = false :=
      hs.invariant (I := fun s => s.state = .paused → s.resumed = false) (fun _ _ _ hi _ hstep => resumed_step hi hstep)
        nofun hstate
    obtain rfl := Option.some.inj hstep
    have hstopped : s.stop.state = .stopped := setState_stopped _
    have hleave : Entity.step .loop s.stop = some { s.stop with pc := .prepareResume s.resumed } := by
      unfold Entity.step Entity.loop
      rw [show s.stop.pc = .waiting from hpc]
      dsimp only
      rw [hstopped, if_pos nofun]
      rfl
    refine ⟨{ s.stop with pc := .top, hooks := s.hooks ++ [.prepareResume s.resumed] },
      goesOn (goesOn .start hleave) rfl, fun hcontract => ?_⟩
    have htrue := hcontract.resume s.resumed (List.mem_append_right _ (List.mem_singleton_self _))
    rw [hresumed] at htrue
    cases htrue

/-- The entity is run, paused, run again and stopped; and one that is stopped while it waits. -/
theorem contract_of_unpaused_two :
    (∃ s : Entity, s.hooks = [.init, .prepareResume true, .cleanup] ∧ s.Contract) ∧
      ∃ s' s'' : Entity, s'.state = .stopped ∧ Reaches Entity.step Alone s' s'' ∧ ¬s''.Contract := by
  constructor
  · obtain ⟨s, hreach, hhooks⟩ : ∃ s : Entity, Reaches Entity.step Unpaused Entity.new s ∧
        s.hooks = [.init, .prepareResume true, .cleanup] :=
      exists_of_checked [.run, .loop, .pause, .loop, .run, .stop, .loop, .loop, .loop, .loop] (by decide +kernel)
    exact ⟨s, hhooks, (contract_of_unpaused s).1 hreach⟩
  · obtain ⟨s, hreach, hpaused⟩ : ∃ s : Entity, Reaches Entity.step Free Entity.new s ∧ ¬Unpaused .stop s :=
      exists_of_events [.run, .loop, .pause, .loop] (by decide +kernel)
    obtain ⟨s'', hs'', hbad⟩ := (contract_of_unpaused s).2 .stop s.stop hreach hpaused rfl
    exact ⟨s.stop, s'', setState_stopped _, hs'', hbad⟩

/-- **`prepare_resume` without a `run`**: the entity is paused, its thread waits, and it is stopped. -/
theorem stop_resumes : ¬∀ s : Entity, Reaches Entity.step Free Entity.new s → s.Contract := by
  intro h
  obtain ⟨s, hreach, hhooks⟩ : ∃ s : Entity, Reaches Entity.step Free Entity.new s ∧
      s.hooks = [.init, .prepareResume false] :=
    exists_of_events [.run, .loop, .pause, .loop, .stop, .loop, .loop] (by decide +kernel)
  have htrue := (h s hreach).resume false (by rw [hhooks]; simp)
  cases htrue

end Libtarp.Threading
