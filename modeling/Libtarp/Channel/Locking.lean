import Libtarp.Channel.Monitor
import Libtarp.Lib.WaitFor
import Mathlib.Algebra.BigOperators.Group.List.Basic
import Mathlib.Algebra.GroupWithZero.Nat

/-!
# The mutexes of channels, an aggregator and a monitor (`evchan.hxx`)

Any number of threads make calls on event channels, on one `event_aggregator` and on one `monitor`,
which may watch the aggregator too. A channel is the one the aggregator has under a key, or one that
clients made. None is ever removed from the aggregator, so `m_index` has the keys of `m_channels`.

What a thread is still to do is its script: mutexes to take and to release. A step is one of
these. What the code does between taking a mutex and the next step is done with the step, and
what it is to do next is put on the script (`Section.run`). A notifier that does not stay is erased
with the mutexes that its caller still has.
-/

namespace Libtarp.Locking

open Function Lib Evchan

/-! ## Objects -/

/-- A channel that clients made, or that of the aggregator with the key `k`. -/
inductive ChanName (κ K : Type)
  | free (c : κ)
  | member (k : K)
  deriving DecidableEq

inductive Mutex (κ K : Type)
  | channel (c : ChanName κ K)
  | aggregator
  | monitor
  deriving DecidableEq

/-- A notifier: that of the monitor for an id, with what tells it from others with that id, that of the
aggregator for an internal key, or one that takes none of these mutexes. -/
inductive Listener (I : Type)
  | monitor (id : I) (serial : ℕ)
  | aggregator (key : ℕ)
  | other
  deriving DecidableEq

/-- `struct event_aggregator::state`; `channels` are the keys of `m_channels`. -/
structure Aggregator (K I : Type) where
  closed : Bool
  readable : Finset ℕ
  subscriptions : Finset ℕ
  notifiers : List (Listener I)
  idx : ℕ
  channels : List K
  lastKey : ℕ

/-- What the mutexes protect; `watches` counts the calls of `watch`. -/
structure Shared (κ K I α : Type) where
  chan : ChanName κ K → EventChannel (Listener I) α
  agg : Aggregator K I
  mon : MonitorState I
  watches : ℕ

/-- What a monitor can watch. -/
inductive Source (κ K : Type)
  | channel (c : ChanName κ K)
  | aggregator

def Source.mutex {κ K : Type} : Source κ K → Mutex κ K
  | channel c => .channel c
  | aggregator => .aggregator

/-- The list that a notifier was found in. -/
inductive Origin (κ K : Type)
  | channel (c : ChanName κ K) (event : ChanState)
  | aggregator

/-! ## Scripts -/

/-- What is done when a mutex has been taken. -/
inductive Section (κ K I α : Type)
  | tryPush (c : ChanName κ K) (x : α)
  | tryGet (c : ChanName κ K)
  | getAll (c : ChanName κ K)
  | close (c : ChanName κ K)
  | watch (src : Source κ K) (mask : Mask) (id : I)
  /-- `add_monitor` in `watch`. -/
  | addWatch (src : Source κ K) (mask : Mask) (id : I) (serial : ℕ)
  | unwatch (id : I)
  /-- What `wait` does before it waits, and after. -/
  | wait
  | waited
  | monitorNotify (id : I) (serial : ℕ) (events : Mask) (action : Action) (origin : Option (Origin κ K))
  | channel (k : K) (chancap : ℕ)
  /-- `add_monitor` in `channel`. -/
  | addMember (k : K) (key : ℕ)
  | addMonitor
  | aggregatorNotify (key : ℕ) (events : Mask) (action : Action) (origin : Option (Origin κ K))
  | aggregatorTryGet
  /-- `try_get` of a channel in that of the aggregator, with `left` channels after it. -/
  | memberTryGet (k : K) (left : ℕ)
  | aggregatorGetAll
  /-- `get_all` of a channel in that of the aggregator, with the channels after it and the numbers of
  events of those before. -/
  | memberGetAll (k : K) (rest : List K) (idx : ℕ) (sizes : List ℕ)
  | setIdx (idx : ℕ)

inductive Op (κ K I α : Type)
  | acquire (sec : Section κ K I α)
  | release (m : Mutex κ K)

variable {κ K I α : Type}

def Section.mutex : Section κ K I α → Mutex κ K
  | tryPush c _ | tryGet c | getAll c | close c => .channel c
  | addWatch src _ _ _ => src.mutex
  | addMember k _ | memberTryGet k _ | memberGetAll k _ _ _ => .channel (.member k)
  | watch .. | unwatch _ | wait | waited | monitorNotify .. => .monitor
  | channel .. | addMonitor | aggregatorNotify .. | aggregatorTryGet | aggregatorGetAll | setIdx _ => .aggregator

/-- The mutex of the monitor or the aggregator, where it is held meanwhile. -/
def Section.owes : Section κ K I α → List (Mutex κ K)
  | addWatch .. => [.monitor]
  | addMember .. | memberTryGet .. => [.aggregator]
  | _ => []

/-- A call of a notifier. -/
def Listener.call (events : Mask) (action : Action) (origin : Option (Origin κ K)) : Listener I → List (Op κ K I α)
  | monitor id serial => [.acquire (.monitorNotify id serial events action origin)]
  | aggregator key => [.acquire (.aggregatorNotify key events action origin)]
  | other => []

/-- The calls that `refresh_channel_state` makes. -/
def notifyAll (c : ChanName κ K) (n : List (Notification (Listener I))) : List (Op κ K I α) :=
  n.flatMap fun m => m.notifier.call {m.event} m.action (some (.channel c m.event))

/-- The calls that `close` makes. -/
def notifyClosed (n : List (Notification (Listener I))) : List (Op κ K I α) :=
  n.flatMap fun m => m.notifier.call {m.event} m.action none

theorem sum_eraseIdx {l : List ℕ} {i : ℕ} (hi : i < l.length) : l[i] + (l.eraseIdx i).sum = l.sum :=
  (List.getElem_cons_eraseIdx_perm hi).sum_eq

theorem sum_set {l : List ℕ} {i : ℕ} (hi : i < l.length) (a : ℕ) : l[i] + (l.set i a).sum = l.sum + a := by
  have hset := sum_eraseIdx (l := l.set i a) (i := i) (by rwa [List.length_set])
  have hold := sum_eraseIdx hi
  rw [List.getElem_set_self, List.eraseIdx_set_eq] at hset
  omega

/-- `idx` after `get_all` has taken the events of the channels in turn, by the numbers of events. -/
def finalIdx (idx : ℕ) (sizes : List ℕ) : ℕ :=
  if h : sizes = [] then idx
  else
    have hlt : idx % sizes.length < sizes.length := Nat.mod_lt _ (List.length_pos_iff.2 h)
    let i := idx % sizes.length
    if sizes[i] = 0 then finalIdx (i + 1) (sizes.eraseIdx i) else finalIdx (i + 1) (sizes.set i (sizes[i] - 1))
termination_by sizes.sum + sizes.length
decreasing_by
  · have hsum := sum_eraseIdx hlt
    rw [List.length_eraseIdx_of_lt hlt]
    omega
  · have hsum := sum_set hlt (sizes[i] - 1)
    have hpos : 0 < sizes[i] := Nat.pos_of_ne_zero ‹_›
    simp only [i, List.length_set] at hsum hpos ⊢
    omega

/-! ## Sections -/

variable [DecidableEq κ] [DecidableEq K] [DecidableEq I]

def Shared.setChan (sh : Shared κ K I α) (c : ChanName κ K) (chan : EventChannel (Listener I) α) : Shared κ K I α :=
  { sh with chan := update sh.chan c chan }

/-- A notifier is erased from the list it was found in, unless it stays. -/
def Shared.answer (sh : Shared κ K I α) (l : Listener I) (origin : Option (Origin κ K)) (stays : Bool) : Shared κ K I α :=
  if stays then sh
  else match origin with
    | none => sh
    | some (.channel c event) => sh.setChan c (drop (sh.chan c) event l)
    | some .aggregator => { sh with agg := { sh.agg with notifiers := sh.agg.notifiers.filter (· ≠ l) } }

/-- The constructor, with ring-buffer semantics. -/
def memberChannel (chancap : ℕ) : EventChannel (Listener I) α where
  circular := true
  capacity := chancap
  closed := false
  msgs := []
  sendMonitors := []
  recvMonitors := []
  stateMask := {.writable}

/-- The notification that comes after `add_monitor`, with no mutex held. -/
def pendingCall (pending mask : Mask) (l : Listener I) : List (Op κ K I α) :=
  if (pending ∩ mask).Nonempty then l.call pending .apply none else []

/-- `notify` of the aggregator: the aggregator, the edge, and whether the notifier stays. -/
def Aggregator.notify (agg : Aggregator K I) (key : ℕ) (events : Mask) (action : Action) :
    Aggregator K I × Option Action × Bool :=
  if key ∉ agg.subscriptions ∨ agg.closed then (agg, none, false)
  else if .readable ∈ events then
    match action with
    | .apply =>
      ({ agg with readable := insert key agg.readable }, if agg.readable = ∅ then some .apply else none, true)
    | .clear =>
      ({ agg with readable := agg.readable.erase key },
        if agg.readable ≠ ∅ ∧ agg.readable.erase key = ∅ then some .clear else none, true)
  else (agg, none, true)

/-- What is done when the mutex of a section has been taken, and what is to do next. -/
def Section.run (sec : Section κ K I α) (sh : Shared κ K I α) : Shared κ K I α × List (Op κ K I α) :=
  match sec with
  | .tryPush c x =>
    match Evchan.tryPush all (sh.chan c) x with
    | .ok (chan, n, _) => (sh.setChan c chan, notifyAll c n ++ [.release (.channel c)])
    | .error _ => (sh, [.release (.channel c)])
  | .tryGet c =>
    let (chan, n, _) := Evchan.tryGet all (sh.chan c)
    (sh.setChan c chan, notifyAll c n ++ [.release (.channel c)])
  | .getAll c =>
    let (chan, n, _) := Evchan.getAll all (sh.chan c)
    (sh.setChan c chan, notifyAll c n ++ [.release (.channel c)])
  | .close c =>
    let (chan, n, _) := Evchan.close (sh.chan c)
    (sh.setChan c chan, .release (.channel c) :: notifyClosed n)
  | .watch src mask id =>
    let sh := { sh with
      mon := { sh.mon with notified := update sh.mon.notified id (some (∅, mask)) }
      watches := sh.watches + 1 }
    match src with
    | .channel _ => (sh, [.acquire (.addWatch src mask id (sh.watches - 1))])
    | .aggregator =>
      -- `add_monitor` throws where it is not asked for readability
      if .readable ∈ mask then (sh, [.acquire (.addWatch src mask id (sh.watches - 1))]) else (sh, [.release .monitor])
  | .addWatch (.channel c) mask id serial =>
    let pending := (sh.chan c).stateMask
    (sh.setChan c (Evchan.addMonitor (sh.chan c) (.monitor id serial) mask).1,
      [.release (.channel c), .release .monitor] ++ pendingCall pending mask (.monitor id serial))
  | .addWatch .aggregator mask id serial =>
    if sh.agg.closed then
      (sh, [.release .aggregator, .release .monitor] ++ pendingCall {.closed} mask (.monitor id serial))
    else
      let pending : Mask := if sh.agg.readable ≠ ∅ then {.readable} else ∅
      ({ sh with agg := { sh.agg with notifiers := sh.agg.notifiers ++ [.monitor id serial] } },
        [.release .aggregator, .release .monitor] ++ pendingCall pending mask (.monitor id serial))
  | .unwatch id =>
    ({ sh with mon := { notified := update sh.mon.notified id none, edged := sh.mon.edged.erase id, high := sh.mon.high.erase id } },
      [.release .monitor])
  | .wait =>
    if sh.mon.high = ∅ then (sh, [.release .monitor, .acquire .waited])
    else
      match getLatest sh.mon with
      | .error _ => (sh, [.release .monitor])
      | .ok (mon, results) =>
        ({ sh with mon := mon }, if results = ∅ then [.release .monitor, .acquire .waited] else [.release .monitor])
  | .waited =>
    match getLatest sh.mon with
    | .error _ => (sh, [.release .monitor])
    | .ok (mon, _) => ({ sh with mon := mon }, [.release .monitor])
  | .monitorNotify id serial events action origin =>
    let (mon, stays) := Evchan.notify sh.mon id events action
    (Shared.answer { sh with mon := mon } (.monitor id serial) origin stays, [.release .monitor])
  | .channel k chancap =>
    if k ∈ sh.agg.channels ∨ sh.agg.closed ∨ chancap = 0 then (sh, [.release .aggregator])
    else
      let key := sh.agg.lastKey
      let agg := { sh.agg with
        lastKey := key + 1
        channels := sh.agg.channels ++ [k]
        subscriptions := insert key sh.agg.subscriptions }
      ({ sh with agg := agg }.setChan (.member k) (memberChannel chancap), [.acquire (.addMember k key)])
  | .addMember k key =>
    let pending := (sh.chan (.member k)).stateMask
    (sh.setChan (.member k) (Evchan.addMonitor (sh.chan (.member k)) (.aggregator key) {.readable}).1,
      [.release (.channel (.member k)), .release .aggregator] ++ pendingCall pending {.readable} (.aggregator key))
  | .addMonitor =>
    if sh.agg.closed then (sh, [.release .aggregator])
    else ({ sh with agg := { sh.agg with notifiers := sh.agg.notifiers ++ [.other] } }, [.release .aggregator])
  | .aggregatorNotify key events action origin =>
    let (agg, edge, stays) := sh.agg.notify key events action
    (Shared.answer { sh with agg := agg } (.aggregator key) origin stays,
      (edge.elim [] fun action => sh.agg.notifiers.flatMap fun l => l.call {.readable} action (some .aggregator)) ++
        [.release .aggregator])
  | .aggregatorTryGet =>
    let idx := sh.agg.idx % sh.agg.channels.length
    match sh.agg.channels[idx]? with
    | none => (sh, [.release .aggregator])
    | some k =>
      ({ sh with agg := { sh.agg with idx := idx } }, [.acquire (.memberTryGet k (sh.agg.channels.length - 1))])
  | .memberTryGet k left =>
    let (chan, n, r) := Evchan.tryGet all (sh.chan (.member k))
    let idx := (sh.agg.idx + 1) % sh.agg.channels.length
    let sh := { sh with agg := { sh.agg with idx := idx } }.setChan (.member k) chan
    let next := match r, left, sh.agg.channels[idx]? with
      | .got none, left + 1, some k => .acquire (.memberTryGet k left)
      | _, _, _ => .release .aggregator
    (sh, notifyAll (.member k) n ++ [.release (.channel (.member k)), next])
  | .aggregatorGetAll =>
    match sh.agg.channels with
    | [] => (sh, [.release .aggregator])
    | k :: rest => (sh, [.release .aggregator, .acquire (.memberGetAll k rest sh.agg.idx [])])
  | .memberGetAll k rest idx sizes =>
    let (chan, n, _) := Evchan.getAll all (sh.chan (.member k))
    let sizes := sizes ++ [(sh.chan (.member k)).msgs.length]
    let next := match rest with
      | [] => .acquire (.setIdx (finalIdx idx sizes))
      | k :: rest => .acquire (.memberGetAll k rest idx sizes)
    (sh.setChan (.member k) chan, notifyAll (.member k) n ++ [.release (.channel (.member k)), next])
  | .setIdx idx => ({ sh with agg := { sh.agg with idx := idx } }, [.release .aggregator])

/-! ## Threads -/

/-- What a thread can call. -/
inductive Call (κ K I α : Type)
  | tryPush (c : ChanName κ K) (x : α)
  | tryGet (c : ChanName κ K)
  | getAll (c : ChanName κ K)
  | close (c : ChanName κ K)
  | watch (src : Source κ K) (mask : Mask) (id : I)
  | unwatch (id : I)
  | wait
  | channel (k : K) (chancap : ℕ)
  | addMonitor
  | aggregatorTryGet
  | aggregatorGetAll

/-- The first section of a call. -/
def Call.first : Call κ K I α → Section κ K I α
  | tryPush c x => .tryPush c x
  | tryGet c => .tryGet c
  | getAll c => .getAll c
  | close c => .close c
  | watch src mask id => .watch src mask id
  | unwatch id => .unwatch id
  | wait => .wait
  | channel k chancap => .channel k chancap
  | addMonitor => .addMonitor
  | aggregatorTryGet => .aggregatorTryGet
  | aggregatorGetAll => .aggregatorGetAll

/-- The channel that a call is made on. -/
def Call.on : Call κ K I α → Option (ChanName κ K)
  | tryPush c _ | tryGet c | getAll c | close c | watch (.channel c) _ _ => some c
  | _ => none

/-- A channel of the aggregator is known when it has been made. -/
def Shared.Known (sh : Shared κ K I α) (c : Option (ChanName κ K)) : Prop :=
  match c with
  | some (.member k) => k ∈ sh.agg.channels
  | _ => True

instance (sh : Shared κ K I α) (c : Option (ChanName κ K)) : Decidable (sh.Known c) :=
  match c with
  | some (.member _) => inferInstanceAs (Decidable (_ ∈ _))
  | some (.free _) | none => .isTrue trivial

structure World (τ κ K I α : Type) where
  shared : Shared κ K I α
  holder : Mutex κ K → Option τ
  script : τ → List (Op κ K I α)

inductive Event (τ κ K I α : Type)
  | call (t : τ) (c : Call κ K I α)
  /-- The thread takes a mutex or releases one. -/
  | go (t : τ)

variable {τ : Type} [DecidableEq τ]

def World.step (e : Event τ κ K I α) (s : World τ κ K I α) : Option (World τ κ K I α) :=
  match e with
  | .call t c =>
    if s.script t = [] ∧ s.shared.Known c.on then some { s with script := update s.script t [.acquire c.first] } else none
  | .go t =>
    match s.script t with
    | [] => none
    | .acquire sec :: ops =>
      if s.holder sec.mutex = none then
        let (shared, new) := sec.run s.shared
        some { shared := shared, holder := update s.holder sec.mutex (some t), script := update s.script t (new ++ ops) }
      else none
    | .release m :: ops => some { s with holder := update s.holder m none, script := update s.script t ops }

/-- Nothing has been called yet. -/
def World.start (chan : ChanName κ K → EventChannel (Listener I) α) : World τ κ K I α where
  shared :=
    { chan := chan
      agg := { closed := false, readable := ∅, subscriptions := ∅, notifiers := [], idx := 0, channels := [], lastKey := 0 }
      mon := { notified := fun _ => none, high := ∅, edged := ∅ }
      watches := 0 }
  holder := fun _ => none
  script := fun _ => []

/-- The mutex that a thread waits for, or is about to take. -/
def asked : List (Op κ K I α) → Option (Mutex κ K)
  | .acquire sec :: _ => some sec.mutex
  | _ => none

def World.Waits (s : World τ κ K I α) (t : τ) (m : Mutex κ K) : Prop := asked (s.script t) = some m

def World.Holds (s : World τ κ K I α) (t : τ) (m : Mutex κ K) : Prop := s.holder m = some t

/-- A thread waits for a mutex that it holds itself, or there is a cycle of threads that wait for each other. -/
def World.Deadlock (s : World τ κ K I α) : Prop := ∃ t, Relation.TransGen (WaitsFor s.Waits s.Holds) t t

/-! ## Calls that take a mutex before one that comes after it -/

/-- A channel calls its notifiers with its mutex held, and the aggregator calls its own. -/
def Mutex.rank : Mutex κ K → ℕ
  | channel _ => 0
  | aggregator => 1
  | monitor => 2

/-- The mutexes that are held. -/
def owed : List (Op κ K I α) → List (Mutex κ K)
  | [] => []
  | .acquire sec :: ops => sec.owes ++ owed ops
  | .release m :: ops => m :: owed ops

/-- A notifier is to be called before the mutex `m` is released. -/
def Notifying (m : Mutex κ K) : List (Op κ K I α) → Prop
  | [] => False
  | .acquire _ :: ops => m ∈ owed ops ∨ Notifying m ops
  | .release _ :: ops => Notifying m ops

/-- The mutex asked for while one is held that comes after it. -/
def sought : List (Op κ K I α) → Option (Mutex κ K)
  | .acquire sec :: _ => if sec.owes = [] then none else some sec.mutex
  | _ => none

/-- A thread waits for `m` while it holds a mutex that comes after it. -/
def World.Sought (s : World τ κ K I α) (m : Mutex κ K) : Prop := ∃ t, sought (s.script t) = some m

/-- The thread that holds `m` is still to call a notifier. -/
def World.Busy (s : World τ κ K I α) (m : Mutex κ K) : Prop := ∃ t, s.Holds t m ∧ Notifying m (s.script t)

/-- `try_get` of the aggregator does not take the only event of a channel. -/
def Section.Spares (sec : Section κ K I α) (sh : Shared κ K I α) : Prop :=
  match sec with
  | memberTryGet k _ => (sh.chan (.member k)).msgs.length ≠ 1
  | _ => True

/-- No notifier is called with a mutex held that some thread seeks, no mutex is sought that is held by a
thread that is still to call a notifier, and `try_get` of the aggregator spares the last event of a channel. -/
def World.Allows (s : World τ κ K I α) : List (Op κ K I α) → Prop
  | [] => True
  | .acquire sec :: _ =>
    (s.Sought sec.mutex → ¬Notifying sec.mutex (sec.run s.shared).2) ∧
      (∀ m ∈ sought (sec.run s.shared).2, ¬s.Busy m) ∧ sec.Spares s.shared
  | .release _ :: ops => ∀ m ∈ sought ops, ¬s.Busy m

/-- The condition on an event. -/
def World.Orderly (e : Event τ κ K I α) (s : World τ κ K I α) : Prop :=
  match e with
  | .call .. => True
  | .go t => s.Allows (s.script t)

end Libtarp.Locking
