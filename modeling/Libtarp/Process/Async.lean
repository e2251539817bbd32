import Libtarp.Event.Pump

/-!
# Asynchronous processes (`process.c`, `process.cxx`)

A process that was started has a state of its own, with two timers and the monitors of its pipes: `async_process_reaper`
looks from time to time whether it has exited, `async_process_killer` kills it first. The state leads to the
`tarp::Process` that started it by a raw pointer, and is freed once the process is reaped. States are numbered; the
number of one that was freed is not used again, so that a pointer to it still finds what was there.

The pump may serve other clients, whose callbacks are left out but for what they do with processes: a process can be
run, stopped or destroyed between any two steps. `waitpid` reports an exit where it likes to.
-/

namespace Libtarp.Process

open Function Event

/-- `stdStream`. -/
inductive Stream
  | stdin
  | stdout
  | stderr
  deriving DecidableEq

def streams : List Stream := [.stdin, .stdout, .stderr]

/-- `stdStreamFdAction`. -/
inductive StreamAction
  | pass
  | devnull
  | pipe
  | join
  deriving DecidableEq

/-- The timers in the states. -/
inductive ProcessTimer
  | killer (p : ℕ)
  | reaper (p : ℕ)
  deriving DecidableEq

def ProcessTimer.process : ProcessTimer → ℕ
  | .killer p | .reaper p => p

/-- `m_stdin_fd`, `m_stdout_fd`, `m_stderr_fd` and `m_timeout`. -/
structure Settings where
  action : Stream → StreamAction
  timeout : ℤ

/-- What `set_process_std_stream_settings` insists on. -/
def Settings.Consistent (cfg : Settings) : Prop :=
  cfg.action .stdout = .join ∨ cfg.action .stderr = .join → cfg.action .stdout = cfg.action .stderr

instance (cfg : Settings) : Decidable cfg.Consistent := instDecidableForall

/-- The streams that end up with a monitor. Where two are joined, the one of `stdout` stands for both. -/
def Settings.piped (cfg : Settings) (stream : Stream) : Bool :=
  match stream, cfg.action stream with
  | .stdin, .join | .stdin, .pipe | .stdout, .join | .stdout, .pipe | .stderr, .pipe => true
  | _, _ => false

/-- `will_create_pipes`. -/
def willCreatePipes (cfg : Settings) : Bool :=
  if cfg.action .stdin = .pipe ∨ cfg.action .stdout = .pipe ∨ cfg.action .stderr = .pipe then true
  else cfg.action .stdout = .join ∧ cfg.action .stderr = .join

/-- `async_process_state`, of the process that `userPriv` started. `ioevent` says whether there is an `ioevent_cb`. -/
structure ProcessState (O : Type) where
  userPriv : O
  piped : Stream → Bool
  ioevent : Bool
  freed : Bool

/-- There is a `shared_ptr` to the object, or it is in its destructor, or gone. -/
inductive Life
  | shared
  | expired
  | destroyed
  deriving DecidableEq

/-- A `tarp::Process`. -/
structure Object where
  running : Bool
  rawPstate : Option ℕ
  exitStatus : Option ℤ
  life : Life

/-- `cxx_process_io_callback` and `cxx_process_completion_callback`. -/
inductive Callback
  | output (stream : Stream)
  | completion
  deriving DecidableEq

/-- A callback for a process; `destroyed` says what had become of the object by then. -/
structure Delivery where
  process : ℕ
  callback : Callback
  destroyed : Bool
  deriving DecidableEq

/-- The pump, the states in use and freed, the objects, and the callbacks made so far. -/
structure Async (O W D : Type) where
  world : World ProcessTimer (ℕ × Stream) W D
  count : ℕ
  proc : ℕ → ProcessState O
  object : O → Object
  deliveries : List Delivery
  terminated : Bool

inductive Act (O D : Type)
  /-- `run`; `forked` says whether there is a new process, and `able` which pipes epoll takes. -/
  | run (o : O) (cfg : Settings) (forked : Bool) (able : Stream → Bool) (now now' : Timespec)
  /-- `exited` is what `waitpid` reports, if the process has exited. -/
  | stop (o : O) (exited : Option ℤ) (now : Timespec)
  | destroy (o : O) (exited : Option ℤ) (now : Timespec)
  | pump (b : Batch (FdEvent (ℕ × Stream))) (now : Timespec)
  | dispatch (exited : Option ℤ) (now : Timespec)
  | ret

variable {O W D : Type} [DecidableEq O] [DecidableEq W] (c : Client (ℕ × Stream) W)

/-- Requests one after the other. -/
def requests (rs : List (Request ProcessTimer (ℕ × Stream) W)) (s : World ProcessTimer (ℕ × Stream) W D) :
    Option (World ProcessTimer (ℕ × Stream) W D) :=
  match rs with
  | [] => some s
  | r :: rs => (s.request c r).bind (requests rs)

theorem millis_lt (milliseconds : ℕ) : milliseconds % 1000 * 1000000 < nsecsPerSec := by
  unfold nsecsPerSec
  omega

/-- The interval of `Evp_set_timer_interval_ms`. -/
def millis (milliseconds : ℕ) : Timespec where
  sec := Int64.ofNat (milliseconds / 1000)
  nsec := milliseconds % 1000 * 1000000
  nsec_lt := millis_lt milliseconds

/-- `ASYNC_PROCESS_REAPER_CHECK_INTERVAL_MS`. -/
def reaperCheckInterval : ℕ := 100

/-! ## Callbacks -/

def Async.deliver (p : ℕ) (callback : Callback) (s : Async O W D) : Async O W D :=
  { s with deliveries := s.deliveries ++ [⟨p, callback, (s.object (s.proc p).userPriv).life = .destroyed⟩] }

/-- `complete`. The callback is called with a `shared_ptr`; where there is none, `shared_from_this` throws. -/
def complete (reports : O → Bool) (o : O) (status : ℤ) (s : Async O W D) : Async O W D :=
  { s with
    object := update s.object o { s.object o with exitStatus := some status, running := false }
    terminated := reports o ∧ (s.object o).life ≠ .shared }

/-- What the reaper unregisters. -/
def releases (p : ℕ) (piped : Stream → Bool) : List (Request ProcessTimer (ℕ × Stream) W) :=
  (streams.filter piped).map (fun stream => .unregisterFdmon (p, stream)) ++
    [.unregisterTimer (.killer p), .unregisterTimer (.reaper p)]

/-- `async_process_reaper`. Where `waitpid` reports no exit it is to be called again. -/
def asyncProcessReaper (reports : O → Bool) (p : ℕ) (exited : Option ℤ) (now : Timespec) (s : Async O W D) :
    Option (Async O W D) :=
  match exited with
  | none =>
    (requests c [.setTimerInterval (.reaper p) (millis reaperCheckInterval), .registerTimer (.reaper p) now]
      s.world).map fun world => { s with world := world }
  | some status =>
    (requests c (releases p (s.proc p).piped) s.world).map fun world =>
      let s := { s with world := world, proc := update s.proc p { s.proc p with freed := true } }
      complete reports (s.proc p).userPriv status (s.deliver p .completion)

/-- `async_process_fd_event_cb_wrapper`, which asserts that there is a callback. -/
def asyncProcessFdEventCb (p : ℕ) (stream : Stream) (s : Async O W D) : Async O W D :=
  if (s.proc p).ioevent then s.deliver p (.output stream) else { s with terminated := true }

/-- `async_process_killer`: `SIGKILL` is sent, and the reaper called. -/
def asyncProcessKiller (reports : O → Bool) (p : ℕ) (exited : Option ℤ) (now : Timespec) (s : Async O W D) :
    Option (Async O W D) :=
  asyncProcessReaper c reports p exited now s

/-! ## Requests of clients -/

/-- What `async_exec__` registers. -/
def registers (p : ℕ) (cfg : Settings) (able : Stream → Bool) (now now' : Timespec) :
    List (Request ProcessTimer (ℕ × Stream) W) :=
  (streams.filter cfg.piped).map (fun stream => .registerFdmon (p, stream) (able stream)) ++
    [.setTimerInterval (.reaper p) (millis reaperCheckInterval), .registerTimer (.reaper p) now] ++
      if cfg.timeout > -1 then
        [.setTimerInterval (.killer p) (millis cfg.timeout.toNat), .registerTimer (.killer p) now']
      else []

/-- `run`, which throws where there is a process already. Inconsistent settings end the program. -/
def run (o : O) (cfg : Settings) (forked : Bool) (able : Stream → Bool) (now now' : Timespec) (s : Async O W D) :
    Option (Async O W D) :=
  if (s.object o).running = true then none
  else if ¬cfg.Consistent then some { s with terminated := true }
  else
    let clean := { s.object o with running := false, rawPstate := none, exitStatus := none }
    if forked then
      (requests c (registers s.count cfg able now now') s.world).map fun world =>
        { s with
          world := world
          count := s.count + 1
          proc := update s.proc s.count ⟨o, cfg.piped, willCreatePipes cfg, false⟩
          object := update s.object o { clean with running := true, rawPstate := some s.count } }
    else some { s with object := update s.object o clean }

/-- `stop`. -/
def stop (reports : O → Bool) (o : O) (exited : Option ℤ) (now : Timespec) (s : Async O W D) : Option (Async O W D) :=
  if (s.object o).running then
    match (s.object o).rawPstate with
    | none => some { s with terminated := true }
    | some p => asyncProcessKiller c reports p exited now s
  else some s

/-- `~Process`. -/
def destroy (reports : O → Bool) (o : O) (exited : Option ℤ) (now : Timespec) (s : Async O W D) :
    Option (Async O W D) :=
  let s := { s with object := update s.object o { s.object o with life := .expired } }
  (stop c reports o exited now s).map fun s =>
    { s with object := update s.object o { s.object o with life := .destroyed } }

/-- `reports` are the objects with a completion callback. -/
def Async.step (reports : O → Bool) (e : Act O D) (s : Async O W D) : Option (Async O W D) :=
  if s.terminated then none
  else
    match e with
    | .run o cfg forked able now now' =>
      if (s.object o).life = .shared then run c o cfg forked able now now' s else none
    | .stop o exited now => if (s.object o).life = .shared then stop c reports o exited now s else none
    | .destroy o exited now => if (s.object o).life = .shared then destroy c reports o exited now s else none
    | .pump b now => (s.world.step c (.pump b now)).map fun world => { s with world := world }
    | .dispatch exited now =>
      (s.world.step c .dispatch).bind fun world =>
        let s := { s with world := world }
        match world.running with
        | some (.timer (.killer p)) => asyncProcessKiller c reports p exited now s
        | some (.timer (.reaper p)) => asyncProcessReaper c reports p exited now s
        | some (.fd (p, stream)) => some (asyncProcessFdEventCb p stream s)
        | _ => some s
    | .ret => (s.world.step c .ret).map fun world => { s with world := world }

/-- No process has been started. -/
def Async.new (anyone : O) : Async O W D where
  world := World.new fun _ => millis 0
  count := 0
  proc _ := ⟨anyone, fun _ => false, false, false⟩
  object _ := ⟨false, none, none, .shared⟩
  deliveries := []
  terminated := false

end Libtarp.Process
