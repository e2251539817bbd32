import Libtarp.Threading.Ledger
import Libtarp.Threading.ThreadPool

/-!
# The steps of the thread pool

* `Steps`, `step_cases`: what a step does, with all that it finds.
* `step_ledger`: to the books it is a move, or nothing.
-/

namespace Libtarp.Threading

open Function Lib

/-- What a step does. -/
inductive Steps (s : ThreadPool) : Event → ThreadPool → Prop
  | enqueueTask (hfree : s.Unlocked) :
    Steps s .enqueueTask { s with taskq := s.taskq ++ [s.enqueued], enqueued := s.enqueued + 1, callers := s.callers + 1 }
  | signal : Steps s .signal { s with callers := s.callers - 1 }.run
  | start : Steps s .start s.run
  | loop (i : ℕ) (hpc : s.pc = .loop) (hstate : s.state = .running) : Steps s (.pool i) { s with pc := .resize }
  | grow (i : ℕ) (hpc : s.pc = .resize) (hlt : s.threads < s.numWorkers) :
    Steps s (.pool i) { s with
      threads := s.numWorkers
      idleThreads := s.idleThreads ++ List.range' s.threads (s.numWorkers - s.threads)
      pc := .run (List.range' s.threads (s.numWorkers - s.threads)) }
  | sized (i : ℕ) (hpc : s.pc = .resize) (hge : s.numWorkers ≤ s.threads) : Steps s (.pool i) { s with pc := .dequeue }
  | grown (i : ℕ) (hpc : s.pc = .run []) : Steps s (.pool i) { s with pc := .dequeue }
  | runNew (i w : ℕ) (ws : List ℕ) (hpc : s.pc = .run (w :: ws)) :
    Steps s (.pool i) { s.setWorker w (s.workers w).run with pc := .pause w ws }
  | pauseNew (i w : ℕ) (ws : List ℕ) (hpc : s.pc = .pause w ws) :
    Steps s (.pool i) { s.setWorker w { s.workers w with state := pause (s.workers w).state } with pc := .run ws }
  | nothing (i : ℕ) (hpc : s.pc = .dequeue) (hnone : s.idleThreads = [] ∨ s.taskq = []) :
    Steps s (.pool i) { s with pc := .setPaused }
  | dequeue (i w t : ℕ) (idle : List ℕ) (hpc : s.pc = .dequeue) (hidle : s.idleThreads = w :: idle)
      (htask : s.taskq[i]? = some t) :
    Steps s (.pool i) { s with idleThreads := idle, taskq := s.taskq.eraseIdx i, pc := .setTask w t }
  | setPaused (i : ℕ) (hpc : s.pc = .setPaused) : Steps s (.pool i) { s with state := setState s.state .paused, pc := .loop }
  | setTask (i w t : ℕ) (hpc : s.pc = .setTask w t) (hfree : (s.workers w).pc ≠ .setPaused) :
    Steps s (.pool i) { s.setWorker w { s.workers w with nextTask := some t } with pc := .runWorker w }
  | runWorker (i w : ℕ) (hpc : s.pc = .runWorker w) : Steps s (.pool i) { s.setWorker w (s.workers w).run with pc := .loop }
  | workerLoop (w : ℕ) (hpc : (s.workers w).pc = .loop) (hstate : (s.workers w).state = .running) :
    Steps s (.worker w) (s.setWorker w { s.workers w with pc := .doWork })
  | workerNothing (w : ℕ) (hpc : (s.workers w).pc = .doWork) (htask : (s.workers w).nextTask = none) :
    Steps s (.worker w) (s.setWorker w { s.workers w with pc := .setPaused })
  | workerTake (w t : ℕ) (hpc : (s.workers w).pc = .doWork) (htask : (s.workers w).nextTask = some t) :
    Steps s (.worker w) (s.setWorker w { s.workers w with nextTask := none, currentTask := some t, pc := .execute })
  | workerPaused (w : ℕ) (hpc : (s.workers w).pc = .setPaused) :
    Steps s (.worker w) (s.setWorker w { s.workers w with state := setState (s.workers w).state .paused, pc := .loop })
  | execute (w t : ℕ) (hpc : (s.workers w).pc = .execute) (htask : (s.workers w).currentTask = some t) :
    Steps s (.worker w) { s.setWorker w { s.workers w with pc := .addFollower } with executed := s.executed ++ [t] }
  | throws (w : ℕ) (hpc : (s.workers w).pc = .addFollower) (hbad : s.threads ≤ w ∨ w ∈ s.idleThreads) :
    Steps s (.worker w) { s with thrown := true }
  | addFollower (w : ℕ) (hpc : (s.workers w).pc = .addFollower) (hfree : s.Unlocked) (hlt : w < s.threads)
      (hidle : w ∉ s.idleThreads) :
    Steps s (.worker w) { s.setWorker w { s.workers w with pc := .pause } with idleThreads := w :: s.idleThreads }
  | workerPause (w : ℕ) (hpc : (s.workers w).pc = .pause) :
    Steps s (.worker w) (s.setWorker w { s.workers w with state := pause (s.workers w).state, pc := .signal })
  | workerSignal (w : ℕ) (hpc : (s.workers w).pc = .signal) :
    Steps s (.worker w) (s.setWorker w { s.workers w with pc := .loop }).run

theorem poolStep_cases {s s' : ThreadPool} {i : ℕ} (h : s.poolStep i = some s') : Steps s (.pool i) s' := by
  unfold ThreadPool.poolStep at h
  cases hpc : s.pc with
  | unspawned =>
    rw [hpc] at h
    cases h
  | loop =>
    rw [hpc] at h
    dsimp only at h
    split_ifs at h with hstate
    obtain rfl := Option.some.inj h
    exact .loop i hpc hstate
  | resize =>
    rw [hpc] at h
    dsimp only at h
    split_ifs at h with hlt
    · obtain rfl := Option.some.inj h
      exact .grow i hpc hlt
    · obtain rfl := Option.some.inj h
      exact .sized i hpc (Nat.not_lt.1 hlt)
  | run ws =>
    rw [hpc] at h
    cases ws with
    | nil =>
      obtain rfl := Option.some.inj h
      exact .grown i hpc
    | cons w ws =>
      obtain rfl := Option.some.inj h
      exact .runNew i w ws hpc
  | pause w ws =>
    rw [hpc] at h
    obtain rfl := Option.some.inj h
    exact .pauseNew i w ws hpc
  -- a task is taken from the queue only where a worker is idle
  | dequeue =>
    rw [hpc] at h
    dsimp only at h
    split at h
    · rename_i hidle
      obtain rfl := Option.some.inj h
      exact .nothing i hpc (.inl hidle)
    · rename_i htaskq _
      obtain rfl := Option.some.inj h
      exact .nothing i hpc (.inr htaskq)
    · rename_i w idle hidle _
      split at h
      · cases h
      · rename_i t htask
        obtain rfl := Option.some.inj h
        exact .dequeue i w t idle hpc hidle htask
  | setPaused =>
    rw [hpc] at h
    obtain rfl := Option.some.inj h
    exact .setPaused i hpc
  | setTask w t =>
    rw [hpc] at h
    dsimp only at h
    split_ifs at h with hfree
    obtain rfl := Option.some.inj h
    exact .setTask i w t hpc hfree
  | runWorker w =>
    rw [hpc] at h
    obtain rfl := Option.some.inj h
    exact .runWorker i w hpc

theorem workerStep_cases {s s' : ThreadPool} {w : ℕ} (h : s.workerStep w = some s') : Steps s (.worker w) s' := by
  unfold ThreadPool.workerStep at h
  dsimp only at h
  cases hpc : (s.workers w).pc with
  | unspawned =>
    rw [hpc] at h
    cases h
  | loop =>
    rw [hpc] at h
    dsimp only at h
    split_ifs at h with hstate
    obtain rfl := Option.some.inj h
    exact .workerLoop w hpc hstate
  | doWork =>
    rw [hpc] at h
    dsimp only at h
    split at h
    · rename_i htask
      obtain rfl := Option.some.inj h
      exact .workerNothing w hpc htask
    · rename_i t htask
      obtain rfl := Option.some.inj h
      exact .workerTake w t hpc htask
  | setPaused =>
    rw [hpc] at h
    obtain rfl := Option.some.inj h
    exact .workerPaused w hpc
  | execute =>
    rw [hpc] at h
    dsimp only at h
    split at h
    · cases h
    · rename_i t htask
      obtain rfl := Option.some.inj h
      exact .execute w t hpc htask
  -- a worker that is no place of the pool makes it throw
  | addFollower =>
    rw [hpc] at h
    dsimp only at h
    split_ifs at h with hfree hbad
    · obtain rfl := Option.some.inj h
      exact .throws w hpc hbad
    · obtain rfl := Option.some.inj h
      rw [not_or, not_le] at hbad
      exact .addFollower w hpc hfree hbad.1 hbad.2
  | pause =>
    rw [hpc] at h
    obtain rfl := Option.some.inj h
    exact .workerPause w hpc
  | signal =>
    rw [hpc] at h
    obtain rfl := Option.some.inj h
    exact .workerSignal w hpc

theorem step_cases {s s' : ThreadPool} {e : Event} (h : s.step e = some s') : Steps s e s' := by
  unfold ThreadPool.step at h
  cases e with
  | enqueueTask =>
    dsimp only at h
    split_ifs at h with hfree
    obtain rfl := Option.some.inj h
    exact .enqueueTask hfree
  | signal =>
    dsimp only at h
    split_ifs at h
    obtain rfl := Option.some.inj h
    exact .signal
  | start =>
    obtain rfl := Option.some.inj h
    exact .start
  | pool i => exact poolStep_cases h
  | worker w => exact workerStep_cases h

/-! ## The books -/

/-- The task a worker is doing. -/
def Worker.doing (x : Worker) : Option ℕ := if x.pc = .execute then x.currentTask else none

/-- The worker and the task that the thread of the pool has picked. -/
def PoolPc.chosen : PoolPc → Option (ℕ × ℕ)
  | .setTask w t => some (w, t)
  | _ => none

def ThreadPool.ledger (s : ThreadPool) : Ledger where
  threads := s.threads
  waiting := s.taskq
  idle := s.idleThreads
  chosen := s.pc.chosen
  given := fun w => (s.workers w).nextTask
  doing := fun w => (s.workers w).doing
  finished := fun w => (s.workers w).pc = .addFollower
  enqueued := s.enqueued
  executed := s.executed

theorem ledger_setWorker (s : ThreadPool) (w : ℕ) (x : Worker) :
    (s.setWorker w x).ledger =
      { s.ledger with
        given := update s.ledger.given w x.nextTask
        doing := update s.ledger.doing w x.doing
        finished := update s.ledger.finished w (x.pc = .addFollower) } := by
  have happly : ∀ {β : Type} (f : Worker → β), (fun v => f (update s.workers w x v)) = update (fun v => f (s.workers v)) w (f x) := by
    intro β f
    funext v
    exact apply_update (fun _ => f) s.workers w x v
  unfold ThreadPool.ledger ThreadPool.setWorker
  dsimp only
  rw [happly Worker.nextTask, happly Worker.doing, happly fun x => decide (x.pc = .addFollower)]

theorem ledger_updates {s : ThreadPool} {w : ℕ} {x : Worker} {given doing : ℕ → Option ℕ} {finished : ℕ → Bool}
    (hgiven : update s.ledger.given w x.nextTask = given) (hdoing : update s.ledger.doing w x.doing = doing)
    (hfinished : update s.ledger.finished w (x.pc = .addFollower) = finished) :
    (s.setWorker w x).ledger = { s.ledger with given := given, doing := doing, finished := finished } := by
  subst hgiven hdoing hfinished
  exact ledger_setWorker s w x

/-- The books do not change where the worker has the task it had. -/
theorem ledger_setWorker_same {s : ThreadPool} {w : ℕ} {x : Worker} (hnext : x.nextTask = (s.workers w).nextTask)
    (hdoing : x.doing = (s.workers w).doing) (hpc : x.pc = .addFollower ↔ (s.workers w).pc = .addFollower) :
    (s.setWorker w x).ledger = s.ledger := by
  have hfinished : decide (x.pc = .addFollower) = s.ledger.finished w := decide_eq_decide.2 hpc
  apply ledger_updates
  · rw [hnext]
    exact update_eq_self ..
  · rw [hdoing]
    exact update_eq_self ..
  · rw [hfinished]
    exact update_eq_self ..

/-- A state that has not been set yet belongs to a thread that has not been spawned. -/
def Worker.Sound (x : Worker) : Prop := (x.state = .initialized → x.pc = .unspawned) ∧ (x.pc = .setPaused → x.nextTask = none)

theorem run_ledger {s : ThreadPool} (h : s.state = .initialized → s.pc = .unspawned) : s.run.ledger = s.ledger := by
  unfold ThreadPool.run Threading.run
  cases hstate : s.state with
  | initialized =>
    unfold ThreadPool.ledger
    rw [h hstate]
    rfl
  | running | paused | stopped => rfl

theorem Worker.run_same {x : Worker} (h : x.Sound) :
    x.run.nextTask = x.nextTask ∧ x.run.doing = x.doing ∧ (x.run.pc = .addFollower ↔ x.pc = .addFollower) := by
  unfold Worker.run Threading.run Worker.doing
  cases hstate : x.state with
  | initialized =>
    have hpc := h.1 hstate
    rw [hpc]
    exact ⟨rfl, rfl, by simp⟩
  | running | paused | stopped => exact ⟨rfl, rfl, Iff.rfl⟩

/-- The books do not change where the pool goes on with the worker and the task it had. -/
theorem ledger_pc {s : ThreadPool} {pc : PoolPc} (h : pc.chosen = s.pc.chosen) : { s with pc := pc }.ledger = s.ledger := by
  unfold ThreadPool.ledger
  rw [h]

/-- **To the books a step is a move**, or nothing. -/
theorem step_ledger {s s' : ThreadPool} {e : Event} (hpool : s.state = .initialized → s.pc = .unspawned)
    (hworkers : ∀ w, (s.workers w).Sound) (h : Steps s e s') : ∃ m, s.ledger.step m = some s'.ledger := by
  cases h with
  | enqueueTask => exact ⟨.enqueue, rfl⟩
  | signal => exact ⟨.stay, congrArg some (run_ledger (s := { s with callers := s.callers - 1 }) hpool).symm⟩
  | start => exact ⟨.stay, congrArg some (run_ledger hpool).symm⟩
  | loop i hpc | sized i hpc | grown i hpc | nothing i hpc | setPaused i hpc =>
    exact ⟨.stay, congrArg some (ledger_pc (by rw [hpc]; rfl)).symm⟩
  | grow i hpc hlt =>
    refine ⟨.grow (s.numWorkers - s.threads), ?_⟩
    have hthreads : s.threads + (s.numWorkers - s.threads) = s.numWorkers := Nat.add_sub_of_le hlt.le
    unfold Ledger.step ThreadPool.ledger
    dsimp only
    rw [hthreads, hpc]
    rfl
  | runNew i w ws hpc | runWorker i w hpc =>
    obtain ⟨hnext, hdoing, hfinished⟩ := Worker.run_same (hworkers w)
    have hsame := ledger_setWorker_same hnext hdoing hfinished
    exact ⟨.stay, congrArg some ((ledger_pc (s := s.setWorker w _) (by rw [ThreadPool.setWorker, hpc]; rfl)).trans hsame).symm⟩
  | pauseNew i w ws hpc =>
    have hsame := ledger_setWorker_same (s := s) (w := w)
      (x := { s.workers w with state := pause (s.workers w).state }) rfl rfl Iff.rfl
    exact ⟨.stay, congrArg some ((ledger_pc (s := s.setWorker w _) (by rw [ThreadPool.setWorker, hpc]; rfl)).trans hsame).symm⟩
  | dequeue i w t idle hpc hidle htask =>
    -- the task is off the queue and the worker off the list of idle ones, and neither has the other yet
    refine ⟨.choose i, ?_⟩
    unfold Ledger.step ThreadPool.ledger
    dsimp only
    rw [hpc, hidle, htask]
    rfl
  | setTask i w t hpc =>
    refine ⟨.give, ?_⟩
    have hchosen : s.ledger.chosen = some (w, t) := by
      unfold ThreadPool.ledger
      rw [hpc]
      rfl
    have hledger : ThreadPool.ledger { s.setWorker w { s.workers w with nextTask := some t } with pc := .runWorker w } =
        { (s.setWorker w { s.workers w with nextTask := some t }).ledger with chosen := none } := rfl
    have hworker := ledger_updates (s := s) (w := w) (x := { s.workers w with nextTask := some t }) rfl
      (update_eq_self ..) (update_eq_self ..)
    unfold Ledger.step
    dsimp only
    rw [hchosen, hledger, hworker]
  | workerTake w t hpc htask =>
    refine ⟨.begin w, ?_⟩
    have hgiven : s.ledger.given w = some t := htask
    have hfinished : s.ledger.finished w = false := decide_eq_false (by rw [hpc]; decide)
    have hworker := ledger_updates (s := s) (w := w)
      (x := { s.workers w with nextTask := none, currentTask := some t, pc := .execute }) rfl rfl
      ((congrArg (update s.ledger.finished w) hfinished.symm).trans (update_eq_self ..))
    unfold Ledger.step
    dsimp only
    rw [hgiven, hworker]
    rfl
  | execute w t hpc htask =>
    refine ⟨.execute w, ?_⟩
    have hdoing : s.ledger.doing w = some t := by
      unfold ThreadPool.ledger Worker.doing
      dsimp only
      rw [if_pos hpc]
      exact htask
    have hledger : ThreadPool.ledger { s.setWorker w { s.workers w with pc := .addFollower } with executed := s.executed ++ [t] } =
        { (s.setWorker w { s.workers w with pc := .addFollower }).ledger with executed := s.executed ++ [t] } := rfl
    have hworker := ledger_updates (s := s) (w := w) (x := { s.workers w with pc := .addFollower }) (update_eq_self ..) rfl rfl
    unfold Ledger.step
    dsimp only
    rw [hdoing, hledger, hworker]
    rfl
  | addFollower w hpc =>
    refine ⟨.follow w, ?_⟩
    -- a worker is idle again before it goes on
    have hfinished : s.ledger.finished w = true := decide_eq_true hpc
    have hdoing : none = s.ledger.doing w := by
      unfold ThreadPool.ledger Worker.doing
      dsimp only
      rw [hpc, if_neg (by decide)]
    have hledger : ThreadPool.ledger { s.setWorker w { s.workers w with pc := .pause } with idleThreads := w :: s.idleThreads } =
        { (s.setWorker w { s.workers w with pc := .pause }).ledger with idle := w :: s.idleThreads } := rfl
    have hworker := ledger_updates (s := s) (w := w) (x := { s.workers w with pc := .pause }) (update_eq_self ..)
      ((congrArg (update s.ledger.doing w) hdoing).trans (update_eq_self ..)) rfl
    unfold Ledger.step
    dsimp only
    rw [if_pos hfinished, hledger, hworker]
    rfl
  | throws => exact ⟨.stay, rfl⟩
  | workerLoop w hpc | workerNothing w hpc | workerPaused w hpc | workerPause w hpc =>
    refine ⟨.stay, congrArg some (ledger_setWorker_same ?_ ?_ ?_).symm⟩
    · rfl
    · unfold Worker.doing
      rw [hpc]
      rfl
    · rw [hpc]
      simp only [reduceCtorEq]
  | workerSignal w hpc =>
    have hsame : (s.setWorker w { s.workers w with pc := .loop }).ledger = s.ledger := by
      apply ledger_setWorker_same
      · rfl
      · unfold Worker.doing
        rw [hpc]
        rfl
      · rw [hpc]
        simp only [reduceCtorEq]
    exact ⟨.stay, congrArg some ((run_ledger (s := s.setWorker w _) hpool).trans hsame).symm⟩

end Libtarp.Threading
