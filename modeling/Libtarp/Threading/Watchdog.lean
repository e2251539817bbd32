import Libtarp.Threading.Entity

/-!
# Watchdogs (`watchdog.hxx`)

A watchdog is a thread entity whose `do_work` compares the clock with a deadline. Another thread that calls `reset` or
`kick` renews the deadline at any point of `do_work` where `m_mtx` is free; each such call is one event, and so is what
the thread of the watchdog does with the mutex, or does between two uses of it. How long `wait_for` waits is left open: a
signal can end it at any time.

The times are readings of the clock, and the interval is what it is in nanoseconds, whatever its unit; the deadline, a
sum of the two, wraps round. The guard and the action are called in a round of `do_work`, at the time that this round has
read.

* `Watchdog.step`: the system.
* `Mark`, `Apart`: what happens to a watchdog, and how far apart it is to be.
* `Dated`: the clock has the deadline.
* `Timely`: the condition on the calls and on the readings.
-/

namespace Libtarp.Threading

open Lib

/-- What happens to a watchdog, and when. A call of `reset` or `kick` that does nothing is not recorded. -/
inductive Mark
  /-- `initialize`, by the thread. -/
  | start (time : ℤ)
  | reset (time : ℤ)
  | kick (time : ℤ)
  | guard (time : ℤ) (answer : Bool)
  | action (time : ℤ)
  deriving DecidableEq

namespace Mark

def time : Mark → ℤ
  | start t | reset t | kick t | guard t _ | action t => t

/-- The deadline is renewed. -/
def restarts : Mark → Bool
  | start _ | reset _ | kick _ => true
  | guard _ _ | action _ => false

def isGuard : Mark → Bool
  | guard _ _ => true
  | start _ | reset _ | kick _ | action _ => false

/-- The interval is to begin again. -/
def renews : Mark → Bool
  | start _ | reset _ | kick _ => true
  | guard _ answer => answer
  | action _ => false

/-- The guard or the action is called. -/
def invokes : Mark → Bool
  | guard _ _ | action _ => true
  | start _ | reset _ | kick _ => false

/-- The time of a guard that returned true. -/
def passed? : Mark → Option ℤ
  | guard t true => some t
  | guard _ false | start _ | reset _ | kick _ | action _ => none

end Mark

/-- How far a mark is to be from a mark before it. -/
def Apart (interval : ℤ) (m before : Mark) : Prop :=
  (m.invokes = true → before.renews = true → before.time + interval ≤ m.time) ∧
  (m.isGuard = true → before.isGuard = true → before.time + interval ≤ m.time)

instance (interval : ℤ) (m before : Mark) : Decidable (Apart interval m before) := inferInstanceAs (Decidable (_ ∧ _))

/-- Where the thread is in `do_work`. -/
inductive WorkPc
  /-- About to copy the deadline. -/
  | copy
  /-- About to read the clock. -/
  | read (deadline : ℤ)
  /-- About to call the guard. -/
  | guard (reading : ℤ)
  /-- About to call `bite`. -/
  | bite (reading : ℤ)
  deriving DecidableEq

/-- The deadline that has been copied. -/
def WorkPc.copied? : WorkPc → Option ℤ
  | read deadline => some deadline
  | copy | guard _ | bite _ => none

/-- The reading by which the guard or the action is about to be called. -/
def WorkPc.reading? : WorkPc → Option ℤ
  | copy | read _ => none
  | guard reading | bite reading => some reading

/-- `class Watchdog`, the latest time, and its marks, the newest first. -/
structure Watchdog where
  guardMode : Bool
  interval : ℤ
  deadline : ℤ
  entity : Entity
  work : WorkPc
  clock : ℤ
  history : List Mark

inductive WatchdogEvent
  /-- `run`, for the first time. -/
  | start
  | pause
  | stop
  | reset (now : ℤ)
  | kick (now : ℤ)
  /-- The thread goes on. `answer` is what the guard answers, if it is called. -/
  | loop (now : ℤ) (answer : Bool)
  deriving DecidableEq

namespace Watchdog

def new (guardMode : Bool) (interval clock : ℤ) : Watchdog where
  guardMode := guardMode
  interval := interval
  deadline := 0
  entity := Entity.new
  work := .copy
  clock := clock
  history := []

/-- `Watchdog::initialize`. -/
def setDeadline (now : ℤ) (s : Watchdog) : Watchdog := { s with deadline := timePoint (now + s.interval) }

/-- `reset`. -/
def reset (now : ℤ) (s : Watchdog) : Watchdog :=
  if s.entity.state ≠ .running then s
  else
    let s := s.setDeadline now
    { s with entity := s.entity.run, history := .reset now :: s.history }

/-- `kick`. -/
def kick (now : ℤ) (s : Watchdog) : Watchdog :=
  if s.entity.state = .running then s
  else
    let s := s.setDeadline now
    { s with entity := s.entity.run, history := .kick now :: s.history }

/-- The return from `do_work`. -/
def returns (s : Watchdog) : Option Watchdog := s.entity.loop.map fun entity => { s with entity := entity, work := .copy }

/-- `bite`. -/
def bite (reading : ℤ) (s : Watchdog) : Watchdog :=
  { s with
    entity := { s.entity with state := setState s.entity.state .paused, resumed := false }
    history := .action reading :: s.history }

/-- `do_work`, from one change of the place to the next. -/
def doWork (now : ℤ) (answer : Bool) (s : Watchdog) : Option Watchdog :=
  match s.work with
  | .copy => some { s with work := .read s.deadline }
  | .read deadline =>
    if now < deadline then s.returns
    else if s.guardMode then some { s with work := .guard now }
    else some { s with work := .bite now }
  | .guard reading =>
    let s := { s with history := .guard reading answer :: s.history }
    -- the deadline stays as it is
    if answer then s.returns else some { s with work := .bite reading }
  | .bite reading => (s.bite reading).returns

/-- The thread of the watchdog goes on. -/
def loop (now : ℤ) (answer : Bool) (s : Watchdog) : Option Watchdog :=
  match s.entity.pc with
  | .doWork => s.doWork now answer
  | .init =>
    let s := s.setDeadline now
    s.entity.loop.map fun entity => { s with entity := entity, history := .start now :: s.history }
  | _ => s.entity.loop.map fun entity => { s with entity := entity }

/-- The clock does not go back. -/
def reads (now : ℤ) (s : Watchdog) : Option Watchdog := if s.clock ≤ now then some { s with clock := now } else none

def step (e : WatchdogEvent) (s : Watchdog) : Option Watchdog :=
  match e with
  | .start => if s.entity.state = .initialized then some { s with entity := s.entity.run } else none
  | .pause => some { s with entity := s.entity.pause }
  | .stop => some { s with entity := s.entity.stop }
  | .reset now => (s.reads now).map (reset now)
  | .kick now => (s.reads now).map (kick now)
  | .loop now answer => (s.reads now).bind (loop now answer)

/-- The guard and the action are called when an interval has elapsed, and the guard once in an interval. -/
def Elapsed (interval : ℤ) (s : Watchdog) : Prop := s.history.Pairwise (Apart interval)

/-- The time of a guard that returned true, if nothing has happened since. -/
def passed? (s : Watchdog) : Option ℤ := s.history.head?.bind Mark.passed?

/-- Where the deadline is renewed, the clock has it. -/
def Dated (e : WatchdogEvent) (s : Watchdog) : Prop :=
  match e with
  | .start | .pause | .stop => True
  | .reset now => s.entity.state = .running → Fits (now + s.interval)
  | .kick now => s.entity.state ≠ .running → Fits (now + s.interval)
  | .loop now _ => s.entity.pc = .init → Fits (now + s.interval)

/-- Between the copy of the deadline and the call of the guard or the action it is not renewed past the reading, and no
reading that finds it past comes within an interval after a guard that returned true, if nothing has renewed it. -/
def Timely (e : WatchdogEvent) (s : Watchdog) : Prop :=
  match e with
  | .start | .pause | .stop => True
  | .reset now => s.entity.state = .running → ∀ reading ∈ s.work.reading?, now + s.interval ≤ reading
  | .kick now => s.entity.state ≠ .running → ∀ reading ∈ s.work.reading?, now + s.interval ≤ reading
  | .loop now _ => ∀ deadline ∈ s.work.copied?, deadline ≤ now →
      s.deadline ≤ now ∧ ∀ t ∈ s.passed?, t + s.interval ≤ now

instance (interval : ℤ) (s : Watchdog) : Decidable (s.Elapsed interval) :=
  inferInstanceAs (Decidable (s.history.Pairwise (Apart interval)))

instance (e : WatchdogEvent) (s : Watchdog) : Decidable (Dated e s) :=
  match e with
  | .start | .pause | .stop => inferInstanceAs (Decidable True)
  | .reset _ => inferInstanceAs (Decidable (_ → _))
  | .kick _ => inferInstanceAs (Decidable (_ → _))
  | .loop _ _ => inferInstanceAs (Decidable (_ → _))

instance (e : WatchdogEvent) (s : Watchdog) : Decidable (Timely e s) :=
  match e with
  | .start | .pause | .stop => inferInstanceAs (Decidable True)
  | .reset _ => inferInstanceAs (Decidable (_ → _))
  | .kick _ => inferInstanceAs (Decidable (_ → _))
  | .loop _ _ => inferInstanceAs (Decidable (∀ deadline ∈ s.work.copied?, _))

end Watchdog

end Libtarp.Threading
