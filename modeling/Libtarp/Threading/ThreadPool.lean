import Libtarp.Lib.Transition
import Mathlib.Data.List.Basic
import Mathlib.Logic.Function.Basic
import Mathlib.Order.Nat

/-!
# The thread pool (`misc/threading.cxx`)

The threads are the one of the pool, those of its workers, and any number of threads that call
`enqueue_task` and `start`. Workers are told apart by their ids, and tasks by the order in which
they were enqueued. The scheduler may pick any task in the queue.

A step is one section under a mutex, or a change of the state that is not in one: `set_state` in
the `do_work` of a worker and of the pool is called with the mutex of the worker or the pool, not
with that of the state. A thread whose state is `PAUSED` waits at the top of its loop.

The number of workers stays what it is when the pool is made, and nothing is stopped.
-/

namespace Libtarp.Threading

open Function Lib

/-! ## Thread entities -/

/-- `enum threadState`. -/
inductive ThreadState
  | initialized
  | running
  | paused
  | stopped
  deriving DecidableEq

/-- `ThreadEntity::set_state`, but for setting it to `INITIALIZED`. -/
def setState (mState state : ThreadState) : ThreadState := if mState = .stopped then mState else state

/-- `ThreadEntity::pause`. -/
def pause (mState : ThreadState) : ThreadState := if mState ≠ .running then mState else setState mState .paused

/-- `ThreadEntity::run`, and whether it spawns the thread. -/
def run (mState : ThreadState) : ThreadState × Bool :=
  match mState with
  | .initialized => (setState mState .running, true)
  | .stopped => (mState, false)
  | .running | .paused => (setState mState .running, false)

/-! ## Workers -/

/-- Where the thread of a worker is. -/
inductive WorkerPc
  /-- There is no thread yet. -/
  | unspawned
  /-- At the top of `loop`. -/
  | loop
  /-- At the start of `do_work`. -/
  | doWork
  /-- About to set the state to `PAUSED`, with the mutex of the worker. -/
  | setPaused
  /-- About to execute the current task. -/
  | execute
  /-- At the start of `add_follower`. -/
  | addFollower
  /-- About to call `pause` there. -/
  | pause
  /-- About to call `signal` there. -/
  | signal
  deriving DecidableEq

/-- `class WorkerThread`. -/
structure Worker where
  state : ThreadState
  pc : WorkerPc
  nextTask : Option ℕ
  currentTask : Option ℕ

def Worker.new : Worker where
  state := .initialized
  pc := .unspawned
  nextTask := none
  currentTask := none

def Worker.run (x : Worker) : Worker :=
  let (state, spawn) := Threading.run x.state
  { x with state := state, pc := if spawn then .loop else x.pc }

/-! ## The pool -/

/-- Where the thread of the pool is. -/
inductive PoolPc
  /-- There is no thread yet. -/
  | unspawned
  /-- At the top of `loop`. -/
  | loop
  /-- In `do_work`, at the start of `resize_pool_if_needed`. -/
  | resize
  /-- About to call `run` of the first of the workers to initialize. -/
  | run (toInitialize : List ℕ)
  /-- About to call `pause` of the worker, with others still to initialize. -/
  | pause (worker : ℕ) (toInitialize : List ℕ)
  /-- At the section of `do_work`. -/
  | dequeue
  /-- About to set the state to `PAUSED`, with the mutex of the pool. -/
  | setPaused
  /-- About to call `set_task`. -/
  | setTask (worker task : ℕ)
  /-- About to call `run` of the worker with a task. -/
  | runWorker (worker : ℕ)
  deriving DecidableEq

/-- `class ThreadPool`. The workers in `m_threads` are those below `threads`. `callers` are the calls
of `enqueue_task` that are still to call `signal`, `executed` the tasks in the order in which they
have been executed, and `thrown` tells whether there has been an exception. -/
structure ThreadPool where
  state : ThreadState
  pc : PoolPc
  numWorkers : ℕ
  threads : ℕ
  idleThreads : List ℕ
  taskq : List ℕ
  workers : ℕ → Worker
  callers : ℕ
  enqueued : ℕ
  executed : List ℕ
  thrown : Bool

def ThreadPool.new (numWorkers : ℕ) : ThreadPool where
  state := .initialized
  pc := .unspawned
  numWorkers := numWorkers
  threads := 0
  idleThreads := []
  taskq := []
  workers := fun _ => Worker.new
  callers := 0
  enqueued := 0
  executed := []
  thrown := false

/-- `ThreadEntity::run` of the pool. -/
def ThreadPool.run (s : ThreadPool) : ThreadPool :=
  let (state, spawn) := Threading.run s.state
  { s with state := state, pc := if spawn then .loop else s.pc }

def ThreadPool.setWorker (s : ThreadPool) (w : ℕ) (x : Worker) : ThreadPool := { s with workers := update s.workers w x }

/-- The mutex of the pool is free. -/
def ThreadPool.Unlocked (s : ThreadPool) : Prop := s.pc ≠ .setPaused

instance (s : ThreadPool) : Decidable s.Unlocked := inferInstanceAs (Decidable (_ ≠ _))

/-- A step of the thread of the pool; `i` is the place in the queue of the task that is picked. -/
def ThreadPool.poolStep (i : ℕ) (s : ThreadPool) : Option ThreadPool :=
  match s.pc with
  | .unspawned => none
  | .loop => if s.state = .running then some { s with pc := .resize } else none
  | .resize =>
    if s.threads < s.numWorkers then
      let new := List.range' s.threads (s.numWorkers - s.threads)
      some { s with threads := s.numWorkers, idleThreads := s.idleThreads ++ new, pc := .run new }
    else some { s with pc := .dequeue }
  | .run [] => some { s with pc := .dequeue }
  | .run (w :: ws) => some { s.setWorker w (s.workers w).run with pc := .pause w ws }
  | .pause w ws =>
    some { s.setWorker w { s.workers w with state := Threading.pause (s.workers w).state } with pc := .run ws }
  | .dequeue =>
    match s.idleThreads, s.taskq with
    | [], _ => some { s with pc := .setPaused }
    | _, [] => some { s with pc := .setPaused }
    | w :: idle, taskq =>
      match taskq[i]? with
      | none => none
      | some t => some { s with idleThreads := idle, taskq := taskq.eraseIdx i, pc := .setTask w t }
  | .setPaused => some { s with state := setState s.state .paused, pc := .loop }
  | .setTask w t =>
    if (s.workers w).pc = .setPaused then none
    else some { s.setWorker w { s.workers w with nextTask := some t } with pc := .runWorker w }
  | .runWorker w => some { s.setWorker w (s.workers w).run with pc := .loop }

/-- A step of the thread of the worker `w`. -/
def ThreadPool.workerStep (w : ℕ) (s : ThreadPool) : Option ThreadPool :=
  let x := s.workers w
  match x.pc with
  | .unspawned => none
  | .loop => if x.state = .running then some (s.setWorker w { x with pc := .doWork }) else none
  | .doWork =>
    match x.nextTask with
    | none => some (s.setWorker w { x with pc := .setPaused })
    | some t => some (s.setWorker w { x with nextTask := none, currentTask := some t, pc := .execute })
  | .setPaused => some (s.setWorker w { x with state := setState x.state .paused, pc := .loop })
  | .execute =>
    match x.currentTask with
    | none => none
    | some t => some { s.setWorker w { x with pc := .addFollower } with executed := s.executed ++ [t] }
  | .addFollower =>
    if s.Unlocked then
      if s.threads ≤ w ∨ w ∈ s.idleThreads then some { s with thrown := true }
      else some { s.setWorker w { x with pc := .pause } with idleThreads := w :: s.idleThreads }
    else none
  | .pause => some (s.setWorker w { x with state := Threading.pause x.state, pc := .signal })
  | .signal => some (s.setWorker w { x with pc := .loop }).run

inductive Event
  /-- The section of `enqueue_task`. -/
  | enqueueTask
  /-- The call of `signal` in `enqueue_task`. -/
  | signal
  | start
  | pool (i : ℕ)
  | worker (w : ℕ)

def ThreadPool.step (e : Event) (s : ThreadPool) : Option ThreadPool :=
  match e with
  | .enqueueTask =>
    if s.Unlocked then
      some { s with taskq := s.taskq ++ [s.enqueued], enqueued := s.enqueued + 1, callers := s.callers + 1 }
    else none
  | .signal => if s.callers = 0 then none else some { s with callers := s.callers - 1 }.run
  | .start => some s.run
  | .pool i => s.poolStep i
  | .worker w => s.workerStep w

/-- No call is in progress, and the pool and all workers are paused. -/
def ThreadPool.Quiescent (s : ThreadPool) : Prop :=
  s.callers = 0 ∧ s.pc = .loop ∧ s.state = .paused ∧
    ∀ w < s.threads, (s.workers w).pc = .loop ∧ (s.workers w).state = .paused

instance (s : ThreadPool) : Decidable s.Quiescent := inferInstanceAs (Decidable (_ ∧ _ ∧ _ ∧ _))

/-- The worker has been given its next task, and `run` has been called for it. -/
def ThreadPool.Assigned (s : ThreadPool) (w : ℕ) : Prop := (s.workers w).nextTask.isSome ∧ s.pc ≠ .runWorker w

instance (s : ThreadPool) (w : ℕ) : Decidable (s.Assigned w) := inferInstanceAs (Decidable (_ ∧ _))

/-- A worker calls `pause` in `add_follower` before its next task comes. -/
def OnTime (e : Event) (s : ThreadPool) : Prop :=
  match e with
  | .worker w => (s.workers w).pc = .pause → ¬s.Assigned w
  | _ => True

instance (e : Event) (s : ThreadPool) : Decidable (OnTime e s) :=
  match e with
  | .worker _ => inferInstanceAs (Decidable (_ → _))
  | .enqueueTask | .signal | .start | .pool _ => .isTrue trivial

end Libtarp.Threading
