import Libtarp.Channel.EventChannel
import Libtarp.Lib.Transition
import Mathlib.Data.Finset.Erase
import Mathlib.Logic.Function.Basic

/-!
# The aggregator of channels (`evchan.hxx`, `class event_aggregator`)

Calls are made one at a time. A pointer to a channel is the number of channels that were made before it; clients may
keep one when the channel was removed. Notifiers of clients are numbered as they are added. What they answer is up to
them, so every call takes an oracle `keep`.

The sets of the aggregator are typed by the clients' keys, but the keys put into them are the numbers that it counts
channels with: `toKey` is the conversion. In `remove`, which names no member of the state, `notifiers` is read as
`m_notifiers`.

`World` is an aggregator and the channels it made, with what the clients saw of it.
-/

namespace Libtarp.EventAggregator

open Function Evchan

/-- `struct event_aggregator::state`, but for the index of the next channel to read from. A channel in `m_index` is in
`m_channels` too, so the weak pointer to it can be locked. -/
structure Aggregator (κ : Type) where
  closed : Bool
  readable : Finset κ
  subscriptions : Finset κ
  notifiers : List ℕ
  channels : List ℕ
  index : κ → Option ℕ
  keyMap : κ → Option UInt32
  lastKey : UInt32

/-- The channels are in the order they were made in. For each client what `add_monitor` returned; all notifications of
clients; and those after which a client was removed, as it asked for. -/
structure World (κ α : Type) where
  agg : Aggregator κ
  chans : List (EventChannel UInt32 α)
  registered : List Mask
  log : List (Notification ℕ)
  removed : List (Notification ℕ)

variable {κ α : Type} [DecidableEq κ]

/-- No call was made yet. -/
def World.start : World κ α where
  agg := { closed := false, readable := ∅, subscriptions := ∅, notifiers := [], channels := [], index := fun _ => none,
           keyMap := fun _ => none, lastKey := 0 }
  chans := []
  registered := []
  log := []
  removed := []

/-! ## Notifications -/

/-- `invoke_notifiers`, on the list of the state. -/
def Aggregator.invokeNotifiers (agg : Aggregator κ) (keep : Notification ℕ → Bool) (flags : ChanState)
    (action : Action) : Aggregator κ × List (Notification ℕ) :=
  let p := notifyMonitors keep flags action agg.notifiers
  ({ agg with notifiers := p.1 }, p.2)

variable (toKey : UInt32 → κ) (keep : Notification ℕ → Bool)

/-- `channel_notifier::notify`: the state, the notifications of clients, and the answer. -/
def Aggregator.notify (agg : Aggregator κ) (lookupKey : UInt32) (events : Mask) (action : Action) :
    (Aggregator κ × List (Notification ℕ)) × Bool :=
  if toKey lookupKey ∉ agg.subscriptions then ((agg, []), false)
  else if agg.closed then ((agg, []), false)
  else if action = .apply ∧ .readable ∈ events then
    let next := { agg with readable := insert (toKey lookupKey) agg.readable }
    (if agg.readable = ∅ then next.invokeNotifiers keep .readable .apply else (next, []), true)
  else if action = .clear ∧ .readable ∈ events then
    let next := { agg with readable := agg.readable.erase (toKey lookupKey) }
    (if agg.readable ≠ ∅ ∧ next.readable = ∅ then next.invokeNotifiers keep .readable .clear else (next, []), true)
  else ((agg, []), true)

/-- What the notifiers in the lists of a channel answer. It does not depend on the calls before. -/
def Aggregator.answer (agg : Aggregator κ) (n : Notification UInt32) : Bool :=
  (agg.notify toKey keep n.notifier {n.event} n.action).2

/-- The calls that a channel makes. -/
def Aggregator.deliver (agg : Aggregator κ) : List (Notification UInt32) → Aggregator κ × List (Notification ℕ)
  | [] => (agg, [])
  | n :: ns =>
    let p := (agg.notify toKey keep n.notifier {n.event} n.action).1
    let q := Aggregator.deliver p.1 ns
    (q.1, p.2 ++ q.2)

/-- The state becomes `p.1`, with the notifications `p.2`. -/
def World.tell (w : World κ α) (p : Aggregator κ × List (Notification ℕ)) : World κ α :=
  { w with agg := p.1, log := w.log ++ p.2, removed := w.removed ++ p.2.filter (!keep ·) }

/-- The channel `c` becomes `chan`, and makes the calls `n`. -/
def World.become (w : World κ α) (c : ℕ) (chan : EventChannel UInt32 α) (n : List (Notification UInt32)) : World κ α :=
  World.tell keep { w with chans := w.chans.set c chan } (w.agg.deliver toKey keep n)

/-! ## The calls -/

/-- `channel`: a pointer to the channel, which may be null; or what the constructor of a channel throws. -/
def channel (w : World κ α) (k : κ) (chancap : ℕ) : Except Exception (World κ α × Option ℕ) :=
  match w.agg.index k with
  | some c => .ok (w, some c)
  | none =>
    if w.agg.closed then .ok (w, none)
    else do
      let chan ← eventChannel chancap true
      let c := w.chans.length
      let internalKey := w.agg.lastKey
      let pending := chan.stateMask
      let agg : Aggregator κ := { w.agg with
        index := update w.agg.index k (some c)
        lastKey := internalKey + 1
        keyMap := update w.agg.keyMap k (some internalKey)
        channels := w.agg.channels ++ [c]
        subscriptions := insert (toKey internalKey) w.agg.subscriptions }
      let w := { w with agg := agg, chans := w.chans ++ [(Evchan.addMonitor chan internalKey {.readable}).1] }
      if .readable ∈ pending then .ok (World.tell keep w (agg.notify toKey keep internalKey pending .apply).1, some c)
      else .ok (w, some c)

/-- `remove`. -/
def remove (w : World κ α) (k : κ) : World κ α :=
  match w.agg.index k with
  | none => w
  | some c =>
    -- `operator[]` has a 0 for a key that is not in the map
    let internalKey := (w.agg.keyMap k).getD 0
    let agg : Aggregator κ := { w.agg with
      index := update w.agg.index k none
      channels := w.agg.channels.filter (· ≠ c)
      keyMap := update w.agg.keyMap k none
      subscriptions := w.agg.subscriptions.erase (toKey internalKey)
      readable := w.agg.readable.erase (toKey internalKey) }
    if w.agg.readable ≠ ∅ ∧ agg.readable = ∅ then World.tell keep w (agg.invokeNotifiers keep .readable .clear)
    else { w with agg := agg }

omit [DecidableEq κ] in
/-- `add_monitor`: what it returns, or nothing where it throws `std::invalid_argument`. -/
def addMonitor (w : World κ α) (states : Mask) : World κ α × Option Mask :=
  if .readable ∉ states then (w, none)
  else if w.agg.closed then (w, some {.closed})
  else
    let mask : Mask := if w.agg.readable ≠ ∅ then {.readable} else ∅
    ({ w with agg := { w.agg with notifiers := w.agg.notifiers ++ [w.registered.length] }
              registered := w.registered ++ [mask] }, some mask)

/-- The loop of `close` over the channels that were members. -/
def closeAll (w : World κ α) : List ℕ → World κ α
  | [] => w
  | c :: cs =>
    match w.chans[c]? with
    | none => closeAll w cs
    | some chan =>
      let p := Evchan.close chan
      closeAll (w.become toKey keep c p.1 p.2.1) cs

/-- `close`. -/
def close (w : World κ α) : World κ α :=
  let channels := w.agg.channels
  let notifiers := w.agg.notifiers
  let w := { w with agg := { w.agg with closed := true, notifiers := [], channels := [] } }
  let w := closeAll toKey keep w channels
  let n := (notifyMonitors keep .closed .apply notifiers).2
  { w with
    agg := { w.agg with channels := [], index := fun _ => none, readable := ∅, subscriptions := ∅, keyMap := fun _ => none }
    log := w.log ++ n }

/-- What clients do with a channel that they have a pointer to. -/
inductive Use (α : Type)
  | tryPush (x : α)
  | tryGet
  | getAll
  | clear

def Use.run (u : Use α) (keep : Notification UInt32 → Bool) (chan : EventChannel UInt32 α) :
    Except Exception (EventChannel UInt32 α × List (Notification UInt32) × Answer α) :=
  match u with
  | .tryPush x => Evchan.tryPush keep chan x
  | .tryGet => .ok (Evchan.tryGet keep chan)
  | .getAll => .ok (Evchan.getAll keep chan)
  | .clear => .ok (Evchan.clear keep chan)

/-! ## Calls in sequence -/

inductive Event (κ α : Type)
  | channel (k : κ) (chancap : ℕ) (keep : Notification ℕ → Bool)
  | remove (k : κ) (keep : Notification ℕ → Bool)
  | use (c : ℕ) (u : Use α) (keep : Notification ℕ → Bool)
  | addMonitor (states : Mask)
  | close (keep : Notification ℕ → Bool)

def World.step : Event κ α → World κ α → Option (World κ α)
  | .channel k chancap keep, w =>
    match channel toKey keep w k chancap with
    | .ok (w', _) => some w'
    | .error _ => some w
  | .remove k keep, w => some (remove toKey keep w k)
  | .use c u keep, w => do
    let chan ← w.chans[c]?
    match u.run (w.agg.answer toKey keep) chan with
    | .ok (chan, n, _) => some (w.become toKey keep c chan n)
    | .error _ => none
  | .addMonitor states, w => some (addMonitor w states).1
  | .close keep, w => some (close toKey keep w)

end Libtarp.EventAggregator
