import Libtarp.Lib.Run
import Mathlib.Data.Finset.Insert
import Mathlib.Data.Finset.SDiff

/-!
# The event channel (`evchan.hxx`, `class event_channel`)

The buffer `m_msgs` is a list, its front first. Masks are sets of flags. A notifier answers
whether it is to stay in the list it was found in; what it answers is not up to the channel,
so every call takes an oracle `keep`. Calls are made one at a time here: each locks the
channel's mutex for all it does, but for `close`, which calls the notifiers afterwards.

`Session` is a channel with what its monitors saw of it. Monitors are numbered as they are added.
-/

namespace Libtarp.Evchan

/-- `enum chanState`. -/
inductive ChanState where
  | closed
  | readable
  | writable
deriving DecidableEq

/-- A bit field of channel states. -/
abbrev Mask := Finset ChanState

/-- `APPLY` and `CLEAR`. -/
inductive Action where
  | apply
  | clear
deriving DecidableEq

/-- A call of a notifier. -/
structure Notification (ι : Type) where
  notifier : ι
  event : ChanState
  action : Action
deriving DecidableEq

/-- `std::logic_error`. -/
inductive Exception where
  | logicError
deriving DecidableEq

/-- `class event_channel`. The notifiers are in `m_send_monitors` and `m_recv_monitors`. -/
structure EventChannel (ι α : Type) where
  circular : Bool
  capacity : ℕ
  closed : Bool
  msgs : List α
  sendMonitors : List ι
  recvMonitors : List ι
  stateMask : Mask

variable {ι α : Type}

/-- The constructor. -/
def eventChannel (channelCapacity : ℕ) (circular : Bool) : Except Exception (EventChannel ι α) :=
  if channelCapacity = 0 then .error .logicError
  else .ok { circular := circular, capacity := channelCapacity, closed := false, msgs := [],
             sendMonitors := [], recvMonitors := [], stateMask := {.writable} }

/-! ## Notifications -/

/-- The state as `refresh_channel_state` computes it. -/
def currentState (c : EventChannel ι α) : Mask :=
  (if c.circular || c.msgs.length < c.capacity then {.writable} else ∅) ∪
    if !c.msgs.isEmpty then {.readable} else ∅

/-- The lambda `notify_monitors`: all in the list are called, in order, and some are erased. -/
def notifyMonitors (keep : Notification ι → Bool) (event : ChanState) (action : Action) (ls : List ι) :
    List ι × List (Notification ι) :=
  (ls.filter fun i => keep ⟨i, event, action⟩, ls.map fun i => ⟨i, event, action⟩)

/-- `refresh_channel_state`. Rising edges come first. -/
def refreshChannelState (keep : Notification ι → Bool) (c : EventChannel ι α) :
    EventChannel ι α × List (Notification ι) :=
  let current := currentState c
  if current = c.stateMask then (c, [])
  else
    let (recv₁, n₁) := if .readable ∈ current ∧ .readable ∉ c.stateMask then
      notifyMonitors keep .readable .apply c.recvMonitors else (c.recvMonitors, [])
    let (send₁, n₂) := if .writable ∈ current ∧ .writable ∉ c.stateMask then
      notifyMonitors keep .writable .apply c.sendMonitors else (c.sendMonitors, [])
    let (recv₂, n₃) := if .readable ∈ c.stateMask ∧ .readable ∉ current then
      notifyMonitors keep .readable .clear recv₁ else (recv₁, [])
    let (send₂, n₄) := if .writable ∈ c.stateMask ∧ .writable ∉ current then
      notifyMonitors keep .writable .clear send₁ else (send₁, [])
    ({ c with recvMonitors := recv₂, sendMonitors := send₂,
              stateMask := if c.closed then insert .closed current else current },
      n₁ ++ n₂ ++ n₃ ++ n₄)

/-! ## The calls -/

/-- What a call returns. -/
inductive Answer (α : Type) where
  | pushed (ok : Bool) (back : Option α)
  | got (data : Option α)
  | events (all : List α)
  | mask (m : Mask)
  | done
deriving DecidableEq

def tryPush (keep : Notification ι → Bool) (c : EventChannel ι α) (x : α) :
    Except Exception (EventChannel ι α × List (Notification ι) × Answer α) :=
  if c.closed then .ok (c, [], .pushed false (some x))
  else if c.msgs.length < c.capacity then
    let (c', n) := refreshChannelState keep { c with msgs := c.msgs ++ [x] }
    .ok (c', n, .pushed true none)
  else if c.circular then
    let c₁ : EventChannel ι α := { c with msgs := c.msgs.tail ++ [x] }
    if c₁.msgs.length > c₁.capacity then .error .logicError
    else
      let (c', n) := refreshChannelState keep c₁
      .ok (c', n, .pushed true none)
  else .ok (c, [], .pushed false (some x))

def tryGet (keep : Notification ι → Bool) (c : EventChannel ι α) :
    EventChannel ι α × List (Notification ι) × Answer α :=
  match c.msgs with
  | [] => (c, [], .got none)
  | x :: msgs =>
    if c.closed then (c, [], .got none)
    else
      let (c', n) := refreshChannelState keep { c with msgs := msgs }
      (c', n, .got (some x))

def getAll (keep : Notification ι → Bool) (c : EventChannel ι α) :
    EventChannel ι α × List (Notification ι) × Answer α :=
  let (c', n) := refreshChannelState keep { c with msgs := [] }
  (c', n, .events c.msgs)

def clear (keep : Notification ι → Bool) (c : EventChannel ι α) :
    EventChannel ι α × List (Notification ι) × Answer α :=
  let (c', n) := refreshChannelState keep { c with msgs := [] }
  (c', n, .done)

/-- All monitors are taken out of the lists, and called after the mutex was released. -/
def close (c : EventChannel ι α) : EventChannel ι α × List (Notification ι) × Answer α :=
  ({ c with closed := true, stateMask := insert .closed c.stateMask, msgs := [], recvMonitors := [],
            sendMonitors := [] },
    (c.recvMonitors ++ c.sendMonitors).map fun i => ⟨i, .closed, .apply⟩, .done)

def addMonitor (c : EventChannel ι α) (notifier : ι) (states : Mask) : EventChannel ι α × Answer α :=
  ({ c with recvMonitors := if .readable ∈ states then c.recvMonitors ++ [notifier] else c.recvMonitors
            sendMonitors := if .writable ∈ states then c.sendMonitors ++ [notifier] else c.sendMonitors },
    .mask c.stateMask)

/-! ## Calls in sequence -/

/-- A channel; for each monitor what `add_monitor` returned and the states it was added for; all
notifications; and those after which the notifier was removed from the list. -/
structure Session (α : Type) where
  chan : EventChannel ℕ α
  registered : List (Mask × Mask)
  log : List (Notification ℕ)
  removed : List (Notification ℕ)

inductive Call (α : Type) where
  | tryPush (x : α) (keep : Notification ℕ → Bool)
  | tryGet (keep : Notification ℕ → Bool)
  | getAll (keep : Notification ℕ → Bool)
  | clear (keep : Notification ℕ → Bool)
  | close
  | addMonitor (states : Mask)

/-- The channel becomes `c`, with more notifications. -/
def Session.become (s : Session α) (keep : Notification ℕ → Bool) (c : EventChannel ℕ α)
    (n : List (Notification ℕ)) : Session α :=
  { s with chan := c, log := s.log ++ n, removed := s.removed ++ n.filter (!keep ·) }

def exec : Call α → Session α → Except Exception (Session α × Answer α)
  | .tryPush x keep, s => do
    let (c, n, r) ← tryPush keep s.chan x
    return (s.become keep c n, r)
  | .tryGet keep, s =>
    let (c, n, r) := tryGet keep s.chan
    .ok (s.become keep c n, r)
  | .getAll keep, s =>
    let (c, n, r) := getAll keep s.chan
    .ok (s.become keep c n, r)
  | .clear keep, s =>
    let (c, n, r) := clear keep s.chan
    .ok (s.become keep c n, r)
  | .close, s =>
    let (c, n, r) := close s.chan
    .ok (s.become (fun _ => true) c n, r)
  | .addMonitor states, s =>
    let (c, r) := addMonitor s.chan s.registered.length states
    .ok ({ s with chan := c, registered := s.registered ++ [(s.chan.stateMask, states)] }, r)

/-- No call was made on the channel yet. -/
def Session.start (c : EventChannel ℕ α) : Session α := ⟨c, [], [], []⟩

end Libtarp.Evchan
