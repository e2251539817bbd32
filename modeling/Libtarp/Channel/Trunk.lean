import Libtarp.Lib.Line
import Libtarp.Lib.Transition
import Mathlib.Logic.Function.Basic

/-!
# The trunk (`evchan.hxx`, `class trunk`)

Calls are told apart by their names, of any type `ι`; every value carries the name of the call
that sends it, so that equal payloads are not confused. The `struct operation` of a call lives
on the stack of its thread and is part of the state here: `op t` is that of the call `t`.

One event is one critical section of the trunk's mutex: the whole of `try_push`, `try_get` or
`close`; what `do_try_push_until` and `do_try_get_until` do before they wait; and one round of
their loop. A waiting call can wake up at any time, signalled or not. Monitors and the state
mask do not bear on any of this and are left out.
-/

namespace Libtarp.Unbuffered

open Function Lib

variable {ι α : Type} [DecidableEq ι]

/-- A value under way, and the call that sends it. -/
structure Value (ι α : Type) where
  call : ι
  payload : α
deriving DecidableEq

/-- `struct operation`, without its condition variable. -/
structure Operation (ι α : Type) where
  data : Option (Value ι α)
  done : Bool

/-- `class trunk`, with the operations of the calls. -/
structure Trunk (ι α : Type) where
  closed : Bool
  sendWaitq : List ι
  recvWaitq : List ι
  op : ι → Operation ι α

/-- What a call returns: `pushed` is the pair of the push functions, `got` the optional of
the get functions. -/
inductive Answer (ι α : Type) where
  | pushed (ok : Bool) (back : Option (Value ι α))
  | got (data : Option (Value ι α))
deriving DecidableEq

/-! ## The critical sections -/

/-- The first receiver gets the data and leaves the queue. -/
def passData (c : Trunk ι α) (data : Value ι α) : Trunk ι α :=
  match c.recvWaitq with
  | [] => c
  | receiver :: q => { c with recvWaitq := q, op := update c.op receiver ⟨some data, true⟩ }

/-- The first sender's data is taken, and it leaves the queue. What was moved from is still
an optional with a value. -/
def getData (c : Trunk ι α) : Trunk ι α × Option (Value ι α) :=
  match c.sendWaitq with
  | [] => (c, none)
  | sender :: q => ({ c with sendWaitq := q, op := update c.op sender ⟨(c.op sender).data, true⟩ }, (c.op sender).data)

def addSender (c : Trunk ι α) (t : ι) (data : Value ι α) : Trunk ι α :=
  { c with sendWaitq := c.sendWaitq ++ [t], op := update c.op t ⟨some data, false⟩ }

def addReceiver (c : Trunk ι α) (t : ι) : Trunk ι α :=
  { c with recvWaitq := c.recvWaitq ++ [t], op := update c.op t ⟨none, false⟩ }

def removeSender (c : Trunk ι α) (t : ι) : Trunk ι α := { c with sendWaitq := c.sendWaitq.filter (· ≠ t) }

def removeReceiver (c : Trunk ι α) (t : ι) : Trunk ι α := { c with recvWaitq := c.recvWaitq.filter (· ≠ t) }

omit [DecidableEq ι] in
/-- Both queues are swapped for empty ones. -/
def close (c : Trunk ι α) : Trunk ι α := { c with closed := true, sendWaitq := [], recvWaitq := [] }

def tryPush (c : Trunk ι α) (data : Value ι α) : Trunk ι α × Answer ι α :=
  if c.closed || c.recvWaitq.isEmpty then (c, .pushed false (some data)) else (passData c data, .pushed true none)

def tryGet (c : Trunk ι α) : Trunk ι α × Answer ι α :=
  if c.closed then (c, .got none)
  else if !c.sendWaitq.isEmpty then ((getData c).1, .got (getData c).2)
  else (c, .got none)

/-- `do_try_push_until` up to its loop; without an answer the call waits. -/
def doTryPushUntil (c : Trunk ι α) (t : ι) (data : Value ι α) : Trunk ι α × Option (Answer ι α) :=
  if c.closed then (c, some (.pushed false (some data)))
  else if !c.recvWaitq.isEmpty then (passData c data, some (.pushed true none))
  else (addSender c t data, none)

/-- One round of the loop of `do_try_push_until`, after the wait. -/
def wakeSender (c : Trunk ι α) (t : ι) (useDeadline expired : Bool) : Trunk ι α × Option (Answer ι α) :=
  if (c.op t).done then (c, some (.pushed true none))
  else if c.closed then (c, some (.pushed false (c.op t).data))
  else if useDeadline && expired then (removeSender c t, some (.pushed false (c.op t).data))
  else (c, none)

/-- `do_try_get_until` up to its loop. -/
def doTryGetUntil (c : Trunk ι α) (t : ι) : Trunk ι α × Option (Answer ι α) :=
  if c.closed then (c, some (.got none))
  else if !c.sendWaitq.isEmpty then ((getData c).1, some (.got (getData c).2))
  else (addReceiver c t, none)

/-- One round of the loop of `do_try_get_until`, after the wait. -/
def wakeReceiver (c : Trunk ι α) (t : ι) (useDeadline expired : Bool) : Trunk ι α × Option (Answer ι α) :=
  if (c.op t).done then (c, some (.got (c.op t).data))
  else if c.closed then (c, some (.got none))
  else if useDeadline && expired then (removeReceiver c t, some (.got none))
  else (c, none)

/-! ## Calls side by side -/

/-- Where a call is. -/
inductive Stage (ι α : Type) where
  | idle
  | sending (useDeadline : Bool)
  | receiving (useDeadline : Bool)
  | returned (a : Answer ι α)
deriving DecidableEq

/-- The trunk and the calls made on it, with what was given to each call to send, and the two
queues with their history. -/
structure System (ι α : Type) where
  chan : Trunk ι α
  stage : ι → Stage ι α
  input : ι → Option α
  senders : Line ι
  receivers : Line ι

inductive Event (ι α : Type) where
  | tryPush (t : ι) (x : α)
  | tryGet (t : ι)
  /-- `push`, `try_push_until` and `try_push_for` -/
  | pushUntil (t : ι) (x : α) (useDeadline : Bool)
  /-- `get`, `try_get_until` and `try_get_for` -/
  | getUntil (t : ι) (useDeadline : Bool)
  /-- a waiting call wakes up; `expired` tells if its deadline is over -/
  | wake (t : ι) (expired : Bool)
  | close

omit [DecidableEq ι] in
/-- The call was served: its operation is done now and was not before. -/
def servedBetween (c c' : Trunk ι α) (i : ι) : Bool := !(c.op i).done && (c'.op i).done

/-- The trunk becomes `c`. -/
def System.become (s : System ι α) (c : Trunk ι α) : System ι α :=
  { s with
    chan := c
    senders := s.senders.advance c.sendWaitq (servedBetween s.chan c)
    receivers := s.receivers.advance c.recvWaitq (servedBetween s.chan c) }

/-- The call `t` goes on to another stage. -/
def System.move (s : System ι α) (t : ι) (g : Stage ι α) : System ι α := { s with stage := update s.stage t g }

/-- The call `t` is asked to send `x`. -/
def System.give (s : System ι α) (t : ι) (x : α) : System ι α := { s with input := update s.input t (some x) }

def step : Event ι α → System ι α → Option (System ι α)
  | .tryPush t x, s =>
    match s.stage t with
    | .idle =>
      let (c, a) := tryPush s.chan ⟨t, x⟩
      some (((s.give t x).become c).move t (.returned a))
    | _ => none
  | .tryGet t, s =>
    match s.stage t with
    | .idle =>
      let (c, a) := tryGet s.chan
      some ((s.become c).move t (.returned a))
    | _ => none
  | .pushUntil t x useDeadline, s =>
    match s.stage t with
    | .idle =>
      let (c, a) := doTryPushUntil s.chan t ⟨t, x⟩
      some (((s.give t x).become c).move t (a.elim (.sending useDeadline) .returned))
    | _ => none
  | .getUntil t useDeadline, s =>
    match s.stage t with
    | .idle =>
      let (c, a) := doTryGetUntil s.chan t
      some ((s.become c).move t (a.elim (.receiving useDeadline) .returned))
    | _ => none
  | .wake t expired, s =>
    match s.stage t with
    | .sending useDeadline =>
      let (c, a) := wakeSender s.chan t useDeadline expired
      some ((s.become c).move t (a.elim (.sending useDeadline) .returned))
    | .receiving useDeadline =>
      let (c, a) := wakeReceiver s.chan t useDeadline expired
      some ((s.become c).move t (a.elim (.receiving useDeadline) .returned))
    | _ => none
  | .close, s => some (s.become (close s.chan))

/-- A new trunk, and no call made. -/
def start : System ι α where
  chan := { closed := false, sendWaitq := [], recvWaitq := [], op := fun _ => ⟨none, false⟩ }
  stage := fun _ => .idle
  input := fun _ => none
  senders := ⟨[], [], []⟩
  receivers := ⟨[], [], []⟩

end Libtarp.Unbuffered
