import Libtarp.Common
import Libtarp.Event.OsEvents
import Libtarp.Event.Timespec
import Libtarp.Lib.Transition

/-!
# The event pump (`event.c`)

The pump waits for events of the operating system, and then goes through its queues: timers that have
elapsed, events of file descriptors, user events. One step takes one entry from a queue and calls its
callback, if there is one; the callback returns in a step of its own. The client makes its requests while
a callback runs, or while the pump waits. User events can be pushed at any time, from other threads.

The lists are sequences. `wake_on_first_timer` only arms the timer that ends the wait, and is left out here.
`History` says which registrations of timers there were, and which callbacks of timers ran.
-/

namespace Libtarp.Event

open Function

/-- What an `fd_event` is for: the semaphore or the timer of the pump, or a monitor of the client. -/
inductive FdEvent (F : Type)
  | sem
  | timerfd
  | client (f : F)
  deriving DecidableEq

/-- `MAX_USER_EVENT_TYPE_VALUE`. -/
def maxUserEventTypeValue : ℕ := 30

/-- What the client has set up: the file descriptors of monitors and the event types of watches.
`Evp_init_uev_watch` refuses others. -/
structure Client (F W : Type) where
  fd : F → ℕ
  eventType : W → ℕ
  bound : ∀ w, eventType w < maxUserEventTypeValue

/-- What a registration returns. -/
inductive Rc
  | success
  | error (code : ErrorCode)
  /-- The -1 of a failed system call. -/
  | systemError
  deriving DecidableEq

/-- `struct evp_handle`, and the structures of the client that it leads to. `interest` are the monitors that
epoll has, by file descriptor. -/
structure Pump (T F W D : Type) where
  timers : List T
  tspec : T → Timespec
  timerRegistered : T → Bool
  evq : List (FdEvent F)
  revents : FdEvent F → BitVec 32
  interest : ℕ → Option F
  fdRegistered : F → Bool
  uevq : List (ℕ × D)
  watch : ℕ → Option W
  watchRegistered : W → Bool

variable {T F W D : Type} [DecidableEq T] [DecidableEq F] [DecidableEq W]

/-! ## Timers -/

/-- `elapsed`. -/
def elapsed (ts reference : Timespec) : Bool := timespecCmp ts reference ≠ .gt

/-- The list with a timer put before the first one that expires later, or at the back. -/
def insertTimer (later : T → Bool) (tev : T) : List T → List T
  | [] => [tev]
  | timer :: timers => if later timer then tev :: timer :: timers else timer :: insertTimer later tev timers

/-- `Evp_register_timer`, where the clock reads `now`. -/
def registerTimer (s : Pump T F W D) (tev : T) (now : Timespec) : Pump T F W D × Rc :=
  if s.timerRegistered tev then (s, .error .invalidValue)
  else
    let secondsBefore := (s.tspec tev).sec
    let ts := timespecAdd now (s.tspec tev)
    let s := { s with tspec := update s.tspec tev ts }
    if ts.sec < secondsBefore then (s, .error .outOfBounds)
    else
      ({ s with
          timers := insertTimer (fun timer => timespecCmp (s.tspec timer) ts = .gt) tev s.timers
          timerRegistered := update s.timerRegistered tev true }, .success)

/-- `Evp_unregister_timer`. -/
def unregisterTimer (s : Pump T F W D) (tev : T) : Pump T F W D :=
  if s.timerRegistered tev then
    { s with timers := s.timers.erase tev, timerRegistered := update s.timerRegistered tev false }
  else s

/-! ## Monitors and watches -/

variable (c : Client F W)

/-- `Evp_register_fdmon`. `epoll_ctl` fails for a file descriptor that epoll has, and where it cannot do it. -/
def registerFdmon (s : Pump T F W D) (fdev : F) (able : Bool) : Pump T F W D × Rc :=
  if s.fdRegistered fdev then (s, .error .invalidValue)
  else if able ∧ s.interest (c.fd fdev) = none then
    ({ s with
        interest := update s.interest (c.fd fdev) (some fdev)
        fdRegistered := update s.fdRegistered fdev true }, .success)
  else (s, .systemError)

/-- `Evp_unregister_fdmon`. -/
def unregisterFdmon (s : Pump T F W D) (fdev : F) : Pump T F W D :=
  if s.fdRegistered fdev then
    { s with
      fdRegistered := update s.fdRegistered fdev false
      interest := update s.interest (c.fd fdev) none }
  else s

/-- `Evp_register_uev_watch`. -/
def registerUevWatch (s : Pump T F W D) (uev : W) : Pump T F W D × Rc :=
  if s.watchRegistered uev then (s, .error .invalidValue)
  else if c.eventType uev ≠ 0 then (s, .error .conflict)
  else
    ({ s with
        watch := update s.watch (c.eventType uev) (some uev)
        watchRegistered := update s.watchRegistered uev true }, .success)

/-- `Evp_unregister_uev_watch`. -/
def unregisterUevWatch (s : Pump T F W D) (uev : W) : Pump T F W D :=
  if s.watchRegistered uev then
    { s with
      watch := update s.watch (c.eventType uev) none
      watchRegistered := update s.watchRegistered uev false }
  else s

/-- `Evp_push_uev`. -/
def pushUev (s : Pump T F W D) (eventType : ℕ) (data : D) : Pump T F W D × Rc :=
  if eventType ≥ maxUserEventTypeValue then (s, .error .outOfBounds)
  else ({ s with uevq := s.uevq ++ [(eventType, data)] }, .success)

/-! ## The loop -/

/-- Where the pump is: it waits, or goes through a queue. -/
inductive Phase
  | waiting
  | timers (now : Timespec)
  | osEvents
  | userEvents

inductive Callback (T F W : Type)
  | timer (tev : T)
  | fd (fdev : F)
  | watch (uev : W)
  deriving DecidableEq

/-- A run of the callback of a timer: for which registration, at what time at the earliest, and how many
registrations there were then. -/
structure Run where
  number : ℕ
  clock : ℤ
  count : ℕ

/-- The registrations of timers are numbered. -/
structure History (T : Type) where
  count : ℕ
  /-- The last registration of a timer. -/
  current : T → ℕ
  /-- The time of the registration and the interval. -/
  expiration : ℕ → ℤ
  cancelled : List ℕ
  runs : List Run

/-- The pump at work; `running` is the callback that runs, and `clock` was read last. -/
structure World (T F W D : Type) where
  pump : Pump T F W D
  phase : Phase
  running : Option (Callback T F W)
  clock : Timespec
  history : History T

inductive Request (T F W : Type)
  | setTimerInterval (tev : T) (ts : Timespec)
  | registerTimer (tev : T) (now : Timespec)
  | unregisterTimer (tev : T)
  | registerFdmon (fdev : F) (able : Bool)
  | unregisterFdmon (fdev : F)
  | registerUevWatch (uev : W)
  | unregisterUevWatch (uev : W)

/-- A step of the pump or of a client. -/
inductive Action (T F W D : Type)
  | request (r : Request T F W)
  | pushUev (eventType : ℕ) (data : D)
  /-- `epoll_wait` returns a batch, and the clock is read. -/
  | pump (b : Batch (FdEvent F)) (now : Timespec)
  /-- An entry is taken from a queue, or the pump goes on to the next one. -/
  | dispatch
  /-- The callback returns. -/
  | ret

/-- A timer was registered. -/
def History.register (h : History T) (tev : T) (expiration : ℤ) : History T :=
  { h with
    count := h.count + 1
    current := update h.current tev h.count
    expiration := update h.expiration h.count expiration }

def World.request (r : Request T F W) (s : World T F W D) : Option (World T F W D) :=
  match r with
  | .setTimerInterval tev ts => some { s with pump := { s.pump with tspec := update s.pump.tspec tev ts } }
  | .registerTimer tev now =>
    if s.clock.value ≤ now.value then
      let registered := registerTimer s.pump tev now
      some { s with
        pump := registered.1
        clock := now
        history := if registered.2 = .success then
          s.history.register tev (now.value + (s.pump.tspec tev).value) else s.history }
    else none
  | .unregisterTimer tev =>
    some { s with
      pump := unregisterTimer s.pump tev
      history := if s.pump.timerRegistered tev then
        { s.history with cancelled := s.history.current tev :: s.history.cancelled } else s.history }
  | .registerFdmon fdev able => some { s with pump := (registerFdmon c s.pump fdev able).1 }
  | .unregisterFdmon fdev => some { s with pump := unregisterFdmon c s.pump fdev }
  | .registerUevWatch uev => some { s with pump := (registerUevWatch c s.pump uev).1 }
  | .unregisterUevWatch uev => some { s with pump := unregisterUevWatch c s.pump uev }

/-- The body of the loops of `dispatch_events`. -/
def World.dispatch (s : World T F W D) : World T F W D :=
  match s.phase with
  | .waiting => s
  | .timers now =>
    match s.pump.timers with
    | [] => { s with phase := .osEvents }
    | tev :: timers =>
      if elapsed (s.pump.tspec tev) now then
        { s with
          pump := { s.pump with timers := timers, timerRegistered := update s.pump.timerRegistered tev false }
          running := some (.timer tev)
          history := { s.history with
            runs := s.history.runs ++ [⟨s.history.current tev, s.clock.value, s.history.count⟩] } }
      else { s with phase := .osEvents }
  | .osEvents =>
    match s.pump.evq with
    | [] => { s with phase := .userEvents }
    | fdev :: evq =>
      let s := { s with pump := { s.pump with evq := evq } }
      match fdev with
      | .sem | .timerfd => s
      | .client f => { s with running := some (.fd f) }
  | .userEvents =>
    match s.pump.uevq with
    | [] => { s with phase := .waiting }
    | (eventType, _) :: uevq =>
      let s := { s with pump := { s.pump with uevq := uevq } }
      match s.pump.watch eventType with
      | none => s
      | some uev => { s with running := some (.watch uev) }

/-- The monitor is one that epoll has. Those of the pump always are. -/
def Pump.Watches (s : Pump T F W D) : FdEvent F → Prop
  | .sem | .timerfd => True
  | .client f => s.interest (c.fd f) = some f

instance (s : Pump T F W D) : DecidablePred (s.Watches c)
  | .sem | .timerfd => inferInstanceAs (Decidable True)
  | .client f => inferInstanceAs (Decidable (s.interest (c.fd f) = some f))

def World.step (e : Action T F W D) (s : World T F W D) : Option (World T F W D) :=
  match e with
  | .request r =>
    match s.phase, s.running with
    | .waiting, _ | _, some _ => s.request c r
    | _, none => none
  | .pushUev eventType data => some { s with pump := (pushUev s.pump eventType data).1 }
  | .pump b now =>
    match s.phase, s.running with
    | .waiting, none =>
      if (∀ i < b.rc, s.pump.Watches c (b.buff i).ptr) ∧ s.clock.value ≤ now.value then
        let q := pumpOsEvents b { evq := s.pump.evq, revents := s.pump.revents, reads := [] }
        some { s with
          pump := { s.pump with evq := q.evq, revents := q.revents }
          phase := .timers now
          clock := now }
      else none
    | _, _ => none
  | .dispatch => if s.running = none then some s.dispatch else none
  | .ret =>
    match s.running with
    | none => none
    | some (.fd f) =>
      -- the flags are cleared after the callback
      some { s with
        pump := { s.pump with revents := update s.pump.revents (.client f) 0 }
        running := none }
    | some _ => some { s with running := none }

/-- `Evp_new`, with the intervals of the timers. -/
def World.new (tspec : T → Timespec) : World T F W D where
  pump :=
    { timers := []
      tspec := tspec
      timerRegistered := fun _ => false
      evq := []
      revents := fun _ => 0
      interest := fun _ => none
      fdRegistered := fun _ => false
      uevq := []
      watch := fun _ => none
      watchRegistered := fun _ => false }
  phase := .waiting
  running := none
  clock := { sec := 0, nsec := 0, nsec_lt := nsecsPerSec_pos }
  history := { count := 0, current := fun _ => 0, expiration := fun _ => 0, cancelled := [], runs := [] }

end Libtarp.Event
