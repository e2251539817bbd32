import Libtarp.Channel.EventChannel
import Libtarp.Lib.Transition
import Mathlib.Data.Finset.Image
import Mathlib.Data.Fintype.Basic
import Mathlib.Logic.Function.Basic

/-!
# The monitor (`evchan.hxx`, `class monitor`)

A notifier has the key of the `watch` call that made it; the channel it was given to and a
serial number tell it from others with that key. The semaphore that `wait` blocks on is left
out: `getLatest` is the list that `wait` returns.

One event is one critical section. A call on a channel changes the buffer and works out which
notifiers to call with the channel's mutex locked; each of these calls is an event of its own
(`deliver`), in order, and no other call can be made on the channel until the last of them. What
`close` calls after it has unlocked, and the mask that `watch` applies at the end, can come at
any time later (`apply`). `watch` holds the monitor's mutex until it has the channel's.
-/

namespace Libtarp.Evchan

open Lib Function

variable {κ K α : Type} [DecidableEq κ] [DecidableEq K]

/-- `class channel_notifier`: `m_lookup_key`, and what tells the object from others. -/
structure Notifier (κ K : Type) where
  key : K
  home : κ
  serial : ℕ
deriving DecidableEq

/-- `struct monitor::state`: `m_notified_map`, with the flags notified and the interest mask,
`m_high` and `m_edged`. -/
structure MonitorState (K : Type) where
  notified : K → Option (Mask × Mask)
  high : Finset K
  edged : Finset K

/-- `READABLE | WRITABLE`. -/
def levels : Mask := {.readable, .writable}

/-- `stored_events`, brought up to date. -/
def flagsAfter (action : Action) (stored events : Mask) : Mask :=
  match action with
  | .apply => stored ∪ events
  | .clear => stored \ events

/-- `channel_notifier::notify`; the answer tells whether the notifier stays. -/
def notify (m : MonitorState K) (key : K) (events : Mask) (action : Action) : MonitorState K × Bool :=
  match m.notified key with
  | none => ({ m with edged := m.edged.erase key, high := m.high.erase key }, false)
  | some (stored, interest) =>
    let risen := match action with
      | .apply => (events \ stored) ∩ levels
      | .clear => ∅
    let stored' := flagsAfter action stored events
    let edged := if (risen ∩ interest).Nonempty then insert key m.edged else m.edged
    let (high, edged) := if (stored' ∩ levels ∩ interest).Nonempty then (insert key m.high, edged)
      else (m.high.erase key, edged.erase key)
    let (high, edged) := if .closed ∈ stored' then (insert key high, insert key edged) else (high, edged)
    ({ notified := update m.notified key (some (stored', interest)), high := high, edged := edged }, true)

/-- `get_latest`. -/
def getLatest (m : MonitorState K) : Except Exception (MonitorState K × Finset (K × Mask)) :=
  if ∃ k ∈ m.high, m.notified k = none then .error .logicError
  else .ok ({ m with edged := ∅ },
    (m.high.image fun k => (k, (m.notified k).elim ∅ Prod.fst)).filter fun p => p.2 ≠ ∅)

/-- A call of a notifier that is made when no mutex is held. -/
structure Late (κ K : Type) where
  notifier : Notifier κ K
  events : Mask
deriving DecidableEq

/-- The channels and the monitor. `busy c` are the notifications of the call in progress on `c`
that are still to come, `late` those that come when no mutex is held. `latest` is the channel
watched last under an id, and `watches` counts the calls of `watch`. -/
structure World (κ K α : Type) where
  chan : κ → EventChannel (Notifier κ K) α
  busy : κ → List (Notification (Notifier κ K))
  mon : MonitorState K
  late : List (Late κ K)
  latest : K → Option κ
  watches : ℕ

inductive Event (κ K α : Type) where
  | tryPush (c : κ) (x : α)
  | tryGet (c : κ)
  | getAll (c : κ)
  | clear (c : κ)
  | close (c : κ)
  | watch (c : κ) (mask : Mask) (id : K)
  | unwatch (id : K)
  /-- the next notification of the call in progress on `c` -/
  | deliver (c : κ)
  /-- a notification made when no mutex is held -/
  | apply (l : Late κ K)

/-- A call on `c` changes the channel, and has notifications to make. -/
def World.begin (s : World κ K α) (c : κ) (chan : EventChannel (Notifier κ K) α)
    (n : List (Notification (Notifier κ K))) : World κ K α :=
  { s with chan := update s.chan c chan, busy := update s.busy c n }

/-- A notifier is erased from the list it was found in. -/
def drop {ι : Type} [DecidableEq ι] (c : EventChannel ι α) (event : ChanState) (i : ι) : EventChannel ι α :=
  match event with
  | .readable => { c with recvMonitors := c.recvMonitors.filter (· ≠ i) }
  | .writable => { c with sendMonitors := c.sendMonitors.filter (· ≠ i) }
  | .closed => c

/-- While a call is in progress its notifiers stay in the lists until they answer. -/
def all {ι : Type} : Notification ι → Bool := fun _ => true

def World.step : Event κ K α → World κ K α → Option (World κ K α)
  | .tryPush c x, s =>
    if s.busy c = [] then
      match Evchan.tryPush all (s.chan c) x with
      | .ok (chan, n, _) => some (s.begin c chan n)
      | .error _ => none
    else none
  | .tryGet c, s =>
    if s.busy c = [] then some (s.begin c (Evchan.tryGet all (s.chan c)).1 (Evchan.tryGet all (s.chan c)).2.1)
    else none
  | .getAll c, s =>
    if s.busy c = [] then some (s.begin c (Evchan.getAll all (s.chan c)).1 (Evchan.getAll all (s.chan c)).2.1)
    else none
  | .clear c, s =>
    if s.busy c = [] then some (s.begin c (Evchan.clear all (s.chan c)).1 (Evchan.clear all (s.chan c)).2.1)
    else none
  | .close c, s =>
    if s.busy c = [] then
      let (chan, n, _) := Evchan.close (s.chan c)
      some { s with chan := update s.chan c chan, late := s.late ++ n.map fun m => ⟨m.notifier, {m.event}⟩ }
    else none
  | .watch c mask id, s =>
    if s.busy c = [] then
      let notifier : Notifier κ K := ⟨id, c, s.watches⟩
      let pending := (s.chan c).stateMask
      some { s with
        mon := { s.mon with notified := update s.mon.notified id (some (∅, mask)) }
        chan := update s.chan c (Evchan.addMonitor (s.chan c) notifier mask).1
        late := if (pending ∩ mask).Nonempty then s.late ++ [⟨notifier, pending⟩] else s.late
        latest := update s.latest id (some c)
        watches := s.watches + 1 }
    else none
  | .unwatch id, s =>
    some { s with
      mon := { notified := update s.mon.notified id none, edged := s.mon.edged.erase id, high := s.mon.high.erase id }
      latest := update s.latest id none }
  | .deliver c, s =>
    match s.busy c with
    | [] => none
    | n :: rest =>
      let (mon, stays) := notify s.mon n.notifier.key {n.event} n.action
      some { s with
        mon := mon
        busy := update s.busy c rest
        chan := if stays then s.chan else update s.chan c (drop (s.chan c) n.event n.notifier) }
  | .apply l, s =>
    if l ∈ s.late then
      some { s with mon := (notify s.mon l.notifier.key l.events .apply).1, late := s.late.erase l }
    else none

/-- No call is in progress. -/
def World.Quiet (s : World κ K α) : Prop := (∀ c, s.busy c = []) ∧ s.late = []

instance [Fintype κ] (s : World κ K α) : Decidable s.Quiet :=
  inferInstanceAs (Decidable (_ ∧ _))

/-- The list that the monitor returns has the flag `f` for the id `k`. -/
def Reported (s : World κ K α) (k : K) (f : ChanState) : Prop :=
  ∃ p ∈ (getLatest s.mon).toOption.elim ∅ Prod.snd, p.1 = k ∧ f ∈ p.2

instance (s : World κ K α) (k : K) (f : ChanState) : Decidable (Reported s k f) :=
  inferInstanceAs (Decidable (∃ p ∈ _, _))

/-- New channels, and a monitor that watches nothing. -/
def World.start (chan : κ → EventChannel (Notifier κ K) α) : World κ K α where
  chan := chan
  busy := fun _ => []
  mon := { notified := fun _ => none, high := ∅, edged := ∅ }
  late := []
  latest := fun _ => none
  watches := 0

end Libtarp.Evchan
