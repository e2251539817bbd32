import Libtarp.Threading.Steps

/-!
# Runs of the thread pool

* `Inv`: on any interleaving no exception is thrown and no wake-up of the pool is lost.
* `Prompt`: nor is one of a worker, where every worker calls `pause` before its next task comes.
* `executes_of_onTime`: then a pool that has come to rest has executed every task.
-/

namespace Libtarp.Threading

open Function Lib

/-! ## Workers -/

theorem setWorker_workers {P : ℕ → Worker → Prop} {s : ThreadPool} {w : ℕ} {x : Worker} (hx : P w x)
    (h : ∀ v, v ≠ w → P v (s.workers v)) (v : ℕ) : P v ((s.setWorker w x).workers v) := by
  unfold ThreadPool.setWorker
  by_cases hv : v = w
  · subst hv
    simpa only [update_self] using hx
  · simpa only [update_of_ne hv] using h v hv

theorem run_ne (mState : ThreadState) : (Threading.run mState).1 ≠ .initialized ∧ (Threading.run mState).1 ≠ .paused := by
  cases mState <;> decide

theorem Worker.run_sound {x : Worker} (h : x.Sound) : x.run.Sound := by
  refine ⟨fun hstate => absurd hstate (run_ne x.state).1, ?_⟩
  unfold Worker.run Threading.run
  cases hstate : x.state with
  | initialized => exact fun hpc => by cases hpc
  | running | paused | stopped => exact h.2

theorem pause_initialized {mState : ThreadState} (h : Threading.pause mState = .initialized) : mState = .initialized := by
  cases mState with
  | initialized => rfl
  | running | paused | stopped => cases h

theorem setState_paused (mState : ThreadState) : setState mState .paused ≠ .initialized := by
  cases mState <;> decide

theorem Worker.Sound.spawned {x : Worker} (h : x.Sound) {pc : WorkerPc} (hpc : x.pc = pc) (hne : pc ≠ .unspawned) :
    x.state ≠ .initialized := fun hstate => hne (hpc.symm.trans (h.1 hstate))

theorem step_sound {s s' : ThreadPool} {e : Event} (h : ∀ w, (s.workers w).Sound) (hs : Steps s e s') (v : ℕ) :
    (s'.workers v).Sound := by
  have hset : ∀ w x, x.Sound → ((s.setWorker w x).workers v).Sound := fun w x hx =>
    setWorker_workers (P := fun _ x => x.Sound) hx (fun v _ => h v) v
  cases hs with
  | enqueueTask | signal | start | loop | grow | sized | grown | nothing | dequeue | setPaused | throws => exact h v
  | runNew i w | runWorker i w => exact hset w _ (Worker.run_sound (h w))
  | pauseNew i w => exact hset w _ ⟨fun hstate => (h w).1 (pause_initialized hstate), (h w).2⟩
  | setTask i w t hpc hfree => exact hset w _ ⟨(h w).1, fun hpc => absurd hpc hfree⟩
  | workerLoop w hpc | workerTake w t hpc | execute w t hpc | addFollower w hpc | workerSignal w hpc =>
    have hspawned := (h w).spawned hpc (by decide)
    exact hset w _ ⟨fun hstate => absurd hstate hspawned, fun hpc => by cases hpc⟩
  | workerNothing w hpc htask =>
    have hspawned := (h w).spawned hpc (by decide)
    exact hset w _ ⟨fun hstate => absurd hstate hspawned, fun _ => htask⟩
  | workerPaused w => exact hset w _ ⟨fun hstate => absurd hstate (setState_paused _), fun hpc => by cases hpc⟩
  | workerPause w hpc =>
    have hspawned := (h w).spawned hpc (by decide)
    exact hset w _ ⟨fun hstate => absurd (pause_initialized hstate) hspawned, fun hpc => by cases hpc⟩

/-! ## The pool -/

/-- The state that goes with where the thread of the pool is. -/
def PoolPc.Fits (pc : PoolPc) (state : ThreadState) : Prop :=
  match pc with
  | .unspawned => state = .initialized
  | .loop => state = .running ∨ state = .paused
  | _ => state = .running

/-- The pool has been resized. -/
def PoolPc.resized : PoolPc → Bool
  | .unspawned | .loop | .resize => false
  | _ => true

/-- The workers still to initialize. -/
def PoolPc.toInitialize : PoolPc → List ℕ
  | .run ws => ws
  | .pause w ws => w :: ws
  | _ => []

/-- What holds on any interleaving. A pool that is paused has nothing to do, unless some call of
`enqueue_task` or `add_follower` is about to call `signal`. -/
structure Inv (n : ℕ) (s : ThreadPool) : Prop where
  books : s.ledger.Inv
  workers : ∀ w, (s.workers w).Sound
  pool : s.pc.Fits s.state
  size : s.numWorkers = n ∧ s.threads ≤ n
  resized : s.state = .paused ∨ s.pc.resized → s.threads = n
  new : ∀ w ∈ s.pc.toInitialize, w ∈ s.idleThreads
  nothing : s.pc = .setPaused → s.idleThreads = [] ∨ s.taskq = []
  wake : s.state = .paused → s.idleThreads = [] ∨ s.taskq = [] ∨ 0 < s.callers ∨
    ∃ w < s.threads, (s.workers w).pc = .pause ∨ (s.workers w).pc = .signal
  thrown : s.thrown = false

theorem new_inv (n : ℕ) : Inv n (ThreadPool.new n) where
  books := Ledger.new_inv
  workers := fun _ => ⟨fun _ => rfl, fun hpc => by cases hpc⟩
  pool := rfl
  size := ⟨rfl, Nat.zero_le n⟩
  resized := by simp [ThreadPool.new, PoolPc.resized]
  new := by simp [ThreadPool.new, PoolPc.toInitialize]
  nothing := fun hpc => by cases hpc
  wake := fun hstate => by cases hstate
  thrown := rfl

theorem Inv.spawned {n : ℕ} {s : ThreadPool} (h : Inv n s) (hstate : s.state = .initialized) : s.pc = .unspawned := by
  have hpool := h.pool
  cases hpc : s.pc with
  | unspawned => rfl
  | _ =>
    rw [hpc, hstate] at hpool
    simp [PoolPc.Fits] at hpool

theorem run_fits {s : ThreadPool} (h : s.pc.Fits s.state) : s.run.pc.Fits s.run.state := by
  unfold ThreadPool.run Threading.run
  cases hstate : s.state with
  | initialized => exact .inl rfl
  | running =>
    rw [hstate] at h
    exact h
  | paused =>
    rw [hstate] at h
    cases hpc : s.pc with
    | loop => exact .inl rfl
    | _ =>
      rw [hpc] at h
      cases h
  | stopped =>
    rw [hstate] at h
    cases hpc : s.pc with
    | loop =>
      rw [hpc] at h
      rcases h with h | h <;> cases h
    | _ =>
      rw [hpc] at h
      cases h

/-- Away from the top of its loop the pool is running. -/
theorem Inv.running {n : ℕ} {s : ThreadPool} (h : Inv n s) {pc : PoolPc} (hpc : s.pc = pc)
    (hne : pc ≠ .unspawned ∧ pc ≠ .loop) : s.state = .running := by
  have hpool := h.pool
  rw [hpc] at hpool
  cases pc with
  | unspawned => exact absurd rfl hne.1
  | loop => exact absurd rfl hne.2
  | _ => exact hpool

theorem step_fits {n : ℕ} {s s' : ThreadPool} {e : Event} (h : Inv n s) (hs : Steps s e s') : s'.pc.Fits s'.state := by
  cases hs with
  | enqueueTask | throws => exact h.pool
  | signal => exact run_fits (s := { s with callers := s.callers - 1 }) h.pool
  | start => exact run_fits h.pool
  | workerSignal w => exact run_fits (s := s.setWorker w _) h.pool
  | workerLoop | workerNothing | workerTake | workerPaused | execute | addFollower | workerPause => exact h.pool
  | loop i hpc hstate => exact hstate
  | grow i hpc | sized i hpc | grown i hpc | runNew i w ws hpc | pauseNew i w ws hpc | nothing i hpc | dequeue i w t idle hpc
  | setTask i w t hpc => exact h.running hpc (by simp)
  | runWorker i w hpc => exact .inl (h.running hpc (by simp))
  | setPaused i hpc =>
    have hrun := h.running hpc (by decide)
    refine .inr ?_
    dsimp only
    rw [hrun]
    rfl

/-- Running the pool does not move its thread, once there is one. -/
theorem run_pc (s : ThreadPool) : s.run.pc = s.pc ∨ s.run.pc = .loop := by
  unfold ThreadPool.run Threading.run
  cases s.state with
  | initialized => exact .inr rfl
  | running | paused | stopped => exact .inl rfl

theorem step_size {n : ℕ} {s s' : ThreadPool} {e : Event} (h : Inv n s) (hs : Steps s e s') :
    (s'.numWorkers = n ∧ s'.threads ≤ n) ∧ (s'.state = .paused ∨ s'.pc.resized → s'.threads = n) := by
  have hrun : ∀ t : ThreadPool, t.pc = s.pc → t.threads = s.threads → (t.run.state = .paused ∨ t.run.pc.resized → t.run.threads = n) := by
    intro t hpc hthreads hor
    refine hthreads.trans (h.resized ?_)
    rcases hor with hstate | hresized
    · exact absurd hstate (run_ne t.state).2
    · rcases run_pc t with hrun | hrun
      · rw [hrun, hpc] at hresized
        exact .inr hresized
      · rw [hrun] at hresized
        cases hresized
  cases hs with
  | enqueueTask | throws => exact ⟨h.size, h.resized⟩
  | signal => exact ⟨h.size, hrun { s with callers := s.callers - 1 } rfl rfl⟩
  | start => exact ⟨h.size, hrun s rfl rfl⟩
  | workerSignal w => exact ⟨h.size, hrun (s.setWorker w _) rfl rfl⟩
  | workerLoop | workerNothing | workerTake | workerPaused | execute | addFollower | workerPause => exact ⟨h.size, h.resized⟩
  | loop i hpc hstate =>
    refine ⟨h.size, ?_⟩
    rintro (hpaused | hresized)
    · exact h.resized (.inl hpaused)
    · cases hresized
  | grow => exact ⟨⟨h.size.1, h.size.1.le⟩, fun _ => h.size.1⟩
  | sized i hpc hge => exact ⟨h.size, fun _ => Nat.le_antisymm h.size.2 (h.size.1 ▸ hge)⟩
  | grown i hpc | runNew i w ws hpc | pauseNew i w ws hpc | nothing i hpc | dequeue i w t idle hpc | setTask i w t hpc
  | setPaused i hpc | runWorker i w hpc => exact ⟨h.size, fun _ => h.resized (.inr (by rw [hpc]; rfl))⟩

theorem step_new {n : ℕ} {s s' : ThreadPool} {e : Event} (h : Inv n s) (hs : Steps s e s') :
    ∀ w ∈ s'.pc.toInitialize, w ∈ s'.idleThreads := by
  have hrun : ∀ t : ThreadPool, t.pc = s.pc → t.idleThreads = s.idleThreads → ∀ w ∈ t.run.pc.toInitialize, w ∈ t.run.idleThreads := by
    intro t hpc hidle w hw
    rcases run_pc t with hrun | hrun
    · rw [hrun, hpc] at hw
      exact hidle ▸ h.new w hw
    · rw [hrun] at hw
      cases hw
  cases hs with
  | enqueueTask | throws => exact h.new
  | signal => exact hrun { s with callers := s.callers - 1 } rfl rfl
  | start => exact hrun s rfl rfl
  | workerSignal w => exact hrun (s.setWorker w _) rfl rfl
  | workerLoop | workerNothing | workerTake | workerPaused | execute | workerPause => exact h.new
  | addFollower => exact fun v hv => List.mem_cons_of_mem _ (h.new v hv)
  | grow => exact fun v hv => List.mem_append_right _ hv
  | runNew i w ws hpc =>
    have hnew := h.new
    rw [hpc] at hnew
    exact hnew
  | pauseNew i w ws hpc =>
    have hnew := h.new
    rw [hpc] at hnew
    exact fun v hv => hnew v (List.mem_cons_of_mem _ hv)
  | loop | sized | grown | nothing | dequeue | setTask | setPaused | runWorker => exact fun v hv => by cases hv

theorem step_nothing {n : ℕ} {s s' : ThreadPool} {e : Event} (h : Inv n s) (hs : Steps s e s') :
    s'.pc = .setPaused → s'.idleThreads = [] ∨ s'.taskq = [] := by
  have hrun : ∀ t : ThreadPool, t.pc = s.pc → t.idleThreads = s.idleThreads → t.taskq = s.taskq →
      t.run.pc = .setPaused → t.run.idleThreads = [] ∨ t.run.taskq = [] := by
    intro t hpc hidle htaskq hset
    rcases run_pc t with hrun | hrun
    · rw [hrun, hpc] at hset
      exact (h.nothing hset).imp hidle.trans htaskq.trans
    · rw [hrun] at hset
      cases hset
  cases hs with
  | enqueueTask hfree | addFollower w hpc hfree => exact fun hset => absurd hset hfree
  | signal => exact hrun { s with callers := s.callers - 1 } rfl rfl rfl
  | start => exact hrun s rfl rfl rfl
  | workerSignal w => exact hrun (s.setWorker w _) rfl rfl rfl
  | workerLoop | workerNothing | workerTake | workerPaused | execute | workerPause | throws => exact h.nothing
  | nothing i hpc hnone => exact fun _ => hnone
  | loop | grow | sized | grown | runNew | pauseNew | dequeue | setTask | setPaused | runWorker => exact fun hset => by cases hset

/-- A worker is about to call `signal`. -/
def ThreadPool.Signals (s : ThreadPool) : Prop := ∃ w < s.threads, (s.workers w).pc = .pause ∨ (s.workers w).pc = .signal

theorem signals_setWorker {s : ThreadPool} (h : s.Signals) {w : ℕ} {x : Worker} {pc : WorkerPc} (hpc : (s.workers w).pc = pc)
    (hx : (pc ≠ .pause ∧ pc ≠ .signal) ∨ x.pc = .signal) : (s.setWorker w x).Signals := by
  obtain ⟨v, hv, hpcv⟩ := h
  refine ⟨v, hv, ?_⟩
  unfold ThreadPool.setWorker
  by_cases hvw : v = w
  · subst hvw
    simp only [update_self]
    rcases hx with hx | hx
    · rw [hpc] at hpcv
      exact absurd hpcv (not_or.2 hx)
    · exact .inr hx
  · simp only [update_of_ne hvw]
    exact hpcv

/-- **No wake-up of the pool is lost.** -/
theorem step_wake {n : ℕ} {s s' : ThreadPool} {e : Event} (h : Inv n s) (hs : Steps s e s') (hstate : s'.state = .paused) :
    s'.idleThreads = [] ∨ s'.taskq = [] ∨ 0 < s'.callers ∨ s'.Signals := by
  have hset : ∀ w x, ∀ pc, (s.workers w).pc = pc → ((pc ≠ .pause ∧ pc ≠ .signal) ∨ x.pc = .signal) → s.state = .paused →
      s.idleThreads = [] ∨ s.taskq = [] ∨ 0 < s.callers ∨ (s.setWorker w x).Signals := by
    intro w x pc hpc hx hpaused
    rcases h.wake hpaused with hidle | htaskq | hcallers | hsignals
    · exact .inl hidle
    · exact .inr (.inl htaskq)
    · exact .inr (.inr (.inl hcallers))
    · exact .inr (.inr (.inr (signals_setWorker hsignals hpc hx)))
  cases hs with
  | enqueueTask => exact .inr (.inr (.inl (Nat.succ_pos _)))
  | signal | start | workerSignal => exact absurd hstate (run_ne _).2
  | throws => exact h.wake hstate
  | loop i hpc hrunning =>
    rw [hrunning] at hstate
    cases hstate
  | grow i hpc | sized i hpc | grown i hpc | runNew i w ws hpc | pauseNew i w ws hpc | nothing i hpc | dequeue i w t idle hpc
  | setTask i w t hpc | runWorker i w hpc =>
    have hrunning : s.state = .paused → False := fun hpaused => by
      rw [h.running hpc (by simp)] at hpaused
      cases hpaused
    exact (hrunning hstate).elim
  | setPaused i hpc => exact (h.nothing hpc).imp_right .inl
  | workerLoop w hpc | workerNothing w hpc | workerTake w t hpc | workerPaused w hpc | execute w t hpc =>
    exact hset w _ _ hpc (.inl (by decide)) hstate
  | workerPause w hpc => exact hset w _ _ hpc (.inr rfl) hstate
  | addFollower w hpc hfree hlt =>
    -- the worker itself is about to call it
    refine .inr (.inr (.inr ⟨w, hlt, .inl ?_⟩))
    unfold ThreadPool.setWorker
    simp only [update_self]

theorem step_inv {n : ℕ} {s s' : ThreadPool} {e : Event} (h : Inv n s) (hs : Steps s e s') : Inv n s' := by
  obtain ⟨m, hm⟩ := step_ledger h.spawned h.workers hs
  obtain ⟨hsize, hresized⟩ := step_size h hs
  refine ⟨Ledger.step_inv h.books hm, step_sound h.workers hs, step_fits h hs, hsize, hresized, step_new h hs, step_nothing h hs,
    step_wake h hs, ?_⟩
  cases hs with
  | throws w hpc hbad =>
    -- a worker that has just finished a task is one of the pool, and is not idle
    have hfinished : s.ledger.finished w = true := decide_eq_true hpc
    obtain ⟨hlt, hidle⟩ := Ledger.not_idle h.books hfinished
    rcases hbad with hge | hmem
    · exact absurd hlt (Nat.not_lt.2 hge)
    · exact absurd hmem hidle
  | _ => exact h.thrown

theorem reaches_inv {n : ℕ} {C : Event → ThreadPool → Prop} {s : ThreadPool} (h : Reaches ThreadPool.step C (ThreadPool.new n) s) :
    Inv n s :=
  h.invariant (fun _ _ _ hi _ hs => step_inv hi (step_cases hs)) (new_inv n)

/-! ## Workers that call `pause` on time -/

/-- A worker that is paused has no task, unless the pool is about to call `run`. -/
def Prompt (s : ThreadPool) : Prop :=
  ∀ w, (s.workers w).state = .paused → (s.workers w).nextTask.isSome → s.pc = .runWorker w

/-- The worker that was changed last is still like that. -/
theorem prompt_setWorker {s : ThreadPool} {w : ℕ} {x : Worker} {pc : PoolPc}
    (hx : x.state = .paused → x.nextTask.isSome → pc = .runWorker w)
    (h : ∀ v, v ≠ w → (s.workers v).state = .paused → (s.workers v).nextTask.isSome → pc = .runWorker v) :
    Prompt { s.setWorker w x with pc := pc } :=
  setWorker_workers (P := fun v x => x.state = .paused → x.nextTask.isSome → pc = .runWorker v) hx h

theorem step_prompt {n : ℕ} {s s' : ThreadPool} {e : Event} (h : Inv n s) (hp : Prompt s) (hc : OnTime e s) (hs : Steps s e s') :
    Prompt s' := by
  have hclear : (∀ v, s.pc ≠ .runWorker v) → ∀ v, (s.workers v).state = .paused → (s.workers v).nextTask.isSome → False :=
    fun hpc v hstate htask => hpc v (hp v hstate htask)
  have hrun : ∀ t : ThreadPool, Prompt t → t.pc = s.pc → t.state = s.state → Prompt t.run := by
    intro t ht hpc hstate v hpaused htask
    have hv : t.pc = .runWorker v := ht v hpaused htask
    have hrunning := h.running (hpc.symm.trans hv) (by simp)
    unfold ThreadPool.run Threading.run
    rw [hstate, hrunning]
    exact hv
  have hset : ∀ w x, (x.state = .paused → x.nextTask.isSome → s.pc = .runWorker w) → Prompt (s.setWorker w x) := fun w x hx =>
    prompt_setWorker hx fun v _ => hp v
  cases hs with
  | enqueueTask | throws => exact hp
  | signal => exact hrun { s with callers := s.callers - 1 } hp rfl rfl
  | start => exact hrun s hp rfl rfl
  | loop i hpc | grow i hpc | sized i hpc | grown i hpc | nothing i hpc | dequeue i w t idle hpc | setPaused i hpc =>
    exact fun v hstate htask => (hclear (by rw [hpc]; simp) v hstate htask).elim
  | runNew i w ws hpc =>
    refine prompt_setWorker (fun hstate => absurd hstate (run_ne _).2) fun v _ hstate htask => ?_
    exact (hclear (by rw [hpc]; simp) v hstate htask).elim
  | pauseNew i w ws hpc =>
    refine prompt_setWorker (fun _ htask => ?_) fun v _ hstate htask => ?_
    · -- a worker that is being initialized is idle, and has no task
      have hidle : w ∈ s.idleThreads := h.new w (by rw [hpc]; exact List.mem_cons_self ..)
      obtain ⟨t, ht⟩ := Option.isSome_iff_exists.1 htask
      exact absurd hidle (Ledger.Inv.given h.books (w := w) ht).2.2.2
    · exact (hclear (by rw [hpc]; simp) v hstate htask).elim
  | setTask i w t hpc =>
    refine prompt_setWorker (fun _ _ => rfl) fun v _ hstate htask => ?_
    exact (hclear (by rw [hpc]; simp) v hstate htask).elim
  | runWorker i w hpc =>
    refine prompt_setWorker (fun hstate => absurd hstate (run_ne _).2) fun v hv hstate htask => ?_
    have hw := hpc.symm.trans (hp v hstate htask)
    exact absurd (PoolPc.runWorker.inj hw).symm hv
  | workerLoop w hpc hrunning =>
    refine hset w _ fun hstate => ?_
    rw [hrunning] at hstate
    cases hstate
  | workerNothing w hpc htask =>
    refine hset w _ fun _ hsome => ?_
    rw [htask] at hsome
    cases hsome
  | workerTake w t => exact hset w _ fun _ hsome => by cases hsome
  | workerPaused w hpc =>
    refine hset w _ fun _ hsome => ?_
    rw [(h.workers w).2 hpc] at hsome
    cases hsome
  | execute w t => exact hset w _ (hp w)
  | addFollower w => exact hset w _ (hp w)
  | workerPause w hpc =>
    -- `pause` comes before the task, or `run` is still to come
    refine hset w _ fun _ hsome => ?_
    by_contra hne
    exact hc hpc ⟨hsome, hne⟩
  | workerSignal w => exact hrun (s.setWorker w _) (hset w _ (hp w)) rfl rfl

theorem reaches_prompt {n : ℕ} {s : ThreadPool} (h : Reaches ThreadPool.step OnTime (ThreadPool.new n) s) : Inv n s ∧ Prompt s := by
  refine h.invariant (I := fun t => Inv n t ∧ Prompt t) (fun e t t' hi hc hs => ?_) ⟨new_inv n, fun w hstate => by cases hstate⟩
  exact ⟨step_inv hi.1 (step_cases hs), step_prompt hi.1 hi.2 hc (step_cases hs)⟩

/-- A pool at rest, no worker of which has been given a task, has executed every task. -/
theorem executed_of_quiescent {n : ℕ} {s : ThreadPool} (h : Inv n s) (hp : Prompt s) (hq : s.Quiescent) (hn : 1 ≤ n) {t : ℕ}
    (ht : t < s.enqueued) : t ∈ s.executed := by
  obtain ⟨hcallers, hpc, hstate, hworkers⟩ := hq
  have hthreads : s.threads = n := h.resized (.inl hstate)
  have hchosen : s.ledger.chosen = none := by
    unfold ThreadPool.ledger
    rw [hpc]
    rfl
  have hgiven : ∀ w < s.threads, s.ledger.given w = none := by
    intro w hw
    rw [← Option.not_isSome_iff_eq_none]
    intro hsome
    have hrun := hp w (hworkers w hw).2 hsome
    rw [hpc] at hrun
    cases hrun
  have hdoing : ∀ w < s.threads, s.ledger.doing w = none := by
    intro w hw
    unfold ThreadPool.ledger Worker.doing
    dsimp only
    rw [(hworkers w hw).1, if_neg (by decide)]
  have hzero : 0 < s.threads := by omega
  have hfinished : s.ledger.finished 0 = false := decide_eq_false (by rw [(hworkers 0 hzero).1]; decide)
  have hidle : s.idleThreads ≠ [] :=
    List.ne_nil_of_mem (Ledger.mem_idle h.books hzero hchosen (hgiven 0 hzero) (hdoing 0 hzero) hfinished)
  have htaskq : s.taskq = [] := by
    rcases h.wake hstate with hnone | hnone | hsome | ⟨w, hw, hsignals⟩
    · exact absurd hnone hidle
    · exact hnone
    · omega
    · rw [(hworkers w hw).1] at hsignals
      rcases hsignals with hpc | hpc <;> cases hpc
  exact Ledger.all_executed h.books htaskq hchosen hgiven hdoing ht

/-- **No task is executed twice, and none is left behind when every thread is paused**, where no worker calls `pause` in
`add_follower` after it has been given its next task. -/
theorem executes_of_onTime (n : ℕ) :
    (∀ s, Reaches ThreadPool.step Free (ThreadPool.new n) s → s.executed.Nodup) ∧
      ∀ s, Reaches ThreadPool.step OnTime (ThreadPool.new n) s → s.Quiescent → 1 ≤ n → ∀ t < s.enqueued, t ∈ s.executed := by
  constructor
  · intro s h
    exact Ledger.executed_nodup (reaches_inv h).books
  · intro s h hq hn t ht
    obtain ⟨hi, hp⟩ := reaches_prompt h
    exact executed_of_quiescent hi hp hq hn ht

/-- A worker that has executed a task is given the next one, and told to run, before it calls `pause`. -/
theorem pauses_too_late : ∃ s, Reaches ThreadPool.step Free (ThreadPool.new 1) s ∧
    (s.Quiescent ∧ s.threads = 1 ∧ s.enqueued = 2 ∧ s.executed = [0]) :=
  exists_of_events ([.start, .enqueueTask, .signal] ++ List.replicate 8 (.pool 0) ++ List.replicate 4 (.worker 0) ++
    [.enqueueTask, .signal] ++ List.replicate 5 (.pool 0) ++ List.replicate 2 (.worker 0) ++ List.replicate 4 (.pool 0)) (by decide +kernel)

/-- A worker that calls `pause` on time executes the next task too. -/
theorem executes_of_onTime_two : ∃ s, Reaches ThreadPool.step OnTime (ThreadPool.new 1) s ∧ s.enqueued = 2 ∧
    ∀ t < s.enqueued, t ∈ s.executed := by
  obtain ⟨s, hreach, hq, hs⟩ : ∃ s, Reaches ThreadPool.step OnTime (ThreadPool.new 1) s ∧ (s.Quiescent ∧ s.enqueued = 2) :=
    exists_of_checked ([.start, .enqueueTask, .signal] ++ List.replicate 8 (.pool 0) ++ List.replicate 6 (.worker 0) ++
      [.enqueueTask, .signal] ++ List.replicate 5 (.pool 0) ++ List.replicate 6 (.worker 0) ++ List.replicate 4 (.pool 0))
      (by decide +kernel)
  exact ⟨s, hreach, hs, (executes_of_onTime 1).2 s hreach hq (Nat.le_refl 1)⟩

end Libtarp.Threading
