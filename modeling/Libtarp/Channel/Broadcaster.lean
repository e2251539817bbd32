import Libtarp.Channel.BoundedQueue
import Libtarp.Lib.Transition
import Mathlib.Data.List.DropRight
import Mathlib.Logic.Function.Basic

/-!
# The broadcaster of events (`evchan.hxx`, `class event_broadcaster`)

Events are put into a ring buffer. A dispatch takes them out and pushes each to every channel that is connected and
still there; the others are forgotten then. A channel that was connected twice is in the list twice.

Calls are made one at a time. Channels are numbered as they are made, and a pointer to one is its number. Clients may
use them as they like, and let go of them. What their notifiers answer is up to them (`keep`).

* `broadcast_exact`: a dispatch pushes the last 1000 events to every channel, as many times as it is connected, and a
  circular channel that no one else uses has the last ones that were pushed to it.
* `connected_twice`: a channel that has an event twice.
-/

namespace Libtarp.Broadcaster

open Function Lib Evchan

variable {α : Type}

/-- `m_BUFFSZ`. -/
@[irreducible] def buffsz : ℕ := 1000

/-- A broadcaster and the channels there are. Of the past: the events pushed since the last dispatch; those dispatched;
for every connection of a channel how many had been dispatched by then; and what was pushed to every channel. -/
structure World (α : Type) where
  autodispatch : Bool
  eventBuffer : EventChannel ℕ α
  eventChannels : List ℕ
  chans : List (EventChannel ℕ α)
  alive : ℕ → Bool
  used : ℕ → Bool
  pending : List α
  dispatched : List α
  joined : ℕ → List ℕ
  received : ℕ → List α

/-- The constructor. -/
def World.new (autodispatch : Bool) : World α where
  autodispatch := autodispatch
  eventBuffer := { circular := true, capacity := buffsz, closed := false, msgs := [], sendMonitors := [],
                   recvMonitors := [], stateMask := {.writable} }
  eventChannels := []
  chans := []
  alive _ := true
  used _ := false
  pending := []
  dispatched := []
  joined _ := []
  received _ := []

variable (keep : Notification ℕ → Bool)

/-- `channels[i]->try_push(event)`. -/
def World.tryPush (w : World α) (c : ℕ) (x : α) : Except Exception (World α) :=
  match w.chans[c]? with
  | none => .ok w
  | some chan => do
    let p ← Evchan.tryPush keep chan x
    return { w with chans := w.chans.set c p.1, received := update w.received c (w.received c ++ [x]) }

/-- The loop over the channels. -/
def World.pushTo (x : α) : List ℕ → World α → Except Exception (World α)
  | [], w => .ok w
  | c :: cs, w => do
    let w ← w.tryPush keep c x
    World.pushTo x cs w

/-- The loop over the events. -/
def World.broadcast (cs : List ℕ) : List α → World α → Except Exception (World α)
  | [], w => .ok w
  | x :: xs, w => do
    let w ← w.pushTo keep x cs
    World.broadcast cs xs w

/-- `dispatch`. -/
def World.dispatch (w : World α) : Except Exception (World α) :=
  let channels := w.eventChannels.filter w.alive
  let p := Evchan.getAll keep w.eventBuffer
  let events := BoundedQueue.given p.2.2
  World.broadcast keep channels events { w with
    eventChannels := channels
    eventBuffer := p.1
    pending := []
    dispatched := w.dispatched ++ events }

/-- `push`. -/
def World.push (x : α) (w : World α) : Except Exception (World α) := do
  let p ← Evchan.tryPush keep w.eventBuffer x
  let w := { w with eventBuffer := p.1, pending := w.pending ++ [x] }
  if w.autodispatch then w.dispatch keep else return w

/-- `connect`. -/
def World.connect (c : ℕ) (w : World α) : World α :=
  { w with
    eventChannels := w.eventChannels ++ [c]
    joined := update w.joined c (w.joined c ++ [w.dispatched.length]) }

inductive Event (α : Type)
  | push (x : α) (keep : Notification ℕ → Bool)
  | dispatch (keep : Notification ℕ → Bool)
  | connect (c : ℕ)
  | make (capacity : ℕ) (circular : Bool)
  /-- A client calls a channel itself. -/
  | use (c : ℕ) (call : Call α)
  /-- The last `shared_ptr` to the channel is gone. -/
  | release (c : ℕ)

def World.step : Event α → World α → Option (World α)
  | .push x keep, w => (w.push keep x).toOption
  | .dispatch keep, w => (w.dispatch keep).toOption
  | .connect c, w => if c < w.chans.length then some (w.connect c) else none
  | .make capacity circular, w =>
    (eventChannel capacity circular).toOption.map fun chan => { w with chans := w.chans ++ [chan] }
  | .use c call, w => do
    let chan ← w.chans[c]?
    let p ← (exec call (Session.start chan)).toOption
    return { w with chans := w.chans.set c p.1.chan, used := update w.used c true }
  | .release c, w => some { w with alive := update w.alive c false }

/-! ## The last ones -/

theorem rtake_of_length_le {l : List α} {n : ℕ} (h : l.length ≤ n) : l.rtake n = l := by
  unfold List.rtake
  rw [Nat.sub_eq_zero_of_le h, List.drop_zero]

theorem rtake_length_le (l : List α) (n : ℕ) : (l.rtake n).length ≤ n := by
  unfold List.rtake
  rw [List.length_drop]
  omega

/-- What is no longer among the last ones is not again when more follow. -/
theorem rtake_rtake_append (l l' : List α) (n : ℕ) : (l.rtake n ++ l').rtake n = (l ++ l').rtake n := by
  unfold List.rtake
  rw [List.length_append, List.length_drop, List.length_append]
  rcases Nat.le_total n l.length with hn | hn
  · have happend : l.drop (l.length - n) ++ l' = (l ++ l').drop (l.length - n) :=
      (List.drop_append_of_le_length (Nat.sub_le _ _)).symm
    rw [happend, List.drop_drop]
    congr 1
    omega
  · rw [Nat.sub_eq_zero_of_le hn, List.drop_zero, Nat.sub_zero]

/-- **A push to a channel that is open.** -/
theorem tryPush_open {chan : EventChannel ℕ α} (h : chan.queue.Valid) (hopen : chan.closed = false) (x : α) :
    ∃ chan' n r, Evchan.tryPush keep chan x = .ok (chan', n, r) ∧ chan'.queue.Valid ∧ chan'.closed = false ∧
      chan'.circular = chan.circular ∧ chan'.capacity = chan.capacity ∧
      (chan.circular = true → chan'.msgs = (chan.msgs ++ [x]).rtake chan.capacity) := by
  obtain ⟨chan', n, r, he, hd⟩ := tryPush_does keep keep h x
  have hvalid := h.does hd
  have hlen : chan.msgs.length ≤ chan.capacity := h.bound
  have hpos : 1 ≤ chan.capacity := h.pos
  unfold BoundedQueue.Does EventChannel.queue at hd
  dsimp only at hd
  rw [hopen, if_neg Bool.false_ne_true] at hd
  refine ⟨chan', n, r, he, hvalid, ?_⟩
  by_cases hroom : chan.msgs.length < chan.capacity
  · rw [if_pos hroom] at hd
    obtain ⟨hcapacity, hcircular, hclosed, hmsgs⟩ := BoundedQueue.mk.inj hd.2
    refine ⟨hclosed, hcircular, hcapacity, fun _ => ?_⟩
    rw [hmsgs, rtake_of_length_le]
    rw [List.length_append, List.length_singleton]
    exact hroom
  rw [if_neg hroom] at hd
  by_cases hcirc : chan.circular = true
  · rw [if_pos hcirc] at hd
    obtain ⟨hcapacity, hcircular, hclosed, hmsgs⟩ := BoundedQueue.mk.inj hd.2
    refine ⟨hclosed, hcircular, hcapacity, fun _ => ?_⟩
    have hfull : chan.msgs.length = chan.capacity := Nat.le_antisymm hlen (Nat.le_of_not_lt hroom)
    rw [hmsgs]
    unfold List.rtake
    rw [List.length_append, List.length_singleton, hfull, Nat.add_sub_cancel_left,
      List.drop_append_of_le_length (by omega), List.drop_one]
  · rw [if_neg hcirc] at hd
    obtain ⟨hcapacity, hcircular, hclosed, -⟩ := BoundedQueue.mk.inj hd.2
    exact ⟨hclosed, hcircular, hcapacity, fun h => absurd h hcirc⟩

/-! ## A dispatch -/

/-- Channels are as channels are, and one that no one else has used has the last ones that were pushed to it. -/
structure Fits (w : World α) : Prop where
  valid : ∀ (c : ℕ) (chan : EventChannel ℕ α), w.chans[c]? = some chan → chan.queue.Valid
  contents : ∀ (c : ℕ) (chan : EventChannel ℕ α), w.chans[c]? = some chan → w.used c = false → chan.closed = false ∧
    (chan.circular = true → chan.msgs = (w.received c).rtake chan.capacity)

/-- `f c` was pushed to every channel `c`, and nothing else happened. -/
structure Pushed (f : ℕ → List α) (w w' : World α) : Prop where
  eq : w' = { w with chans := w'.chans, received := fun c => w.received c ++ f c }
  length : w'.chans.length = w.chans.length
  fits : Fits w'

variable {w w' : World α}

theorem Pushed.trans {f g : ℕ → List α} {w'' : World α} (h : Pushed f w w') (h' : Pushed g w' w'') :
    Pushed (fun c => f c ++ g c) w w'' := by
  refine ⟨?_, h'.length.trans h.length, h'.fits⟩
  rw [h'.eq, h.eq]
  simp only [List.append_assoc]

theorem tryPush_pushed (h : Fits w) {c : ℕ} (hc : c < w.chans.length) (x : α) :
    ∃ w', w.tryPush keep c x = .ok w' ∧ Pushed (fun d => if c = d then [x] else []) w w' := by
  have hchan : w.chans[c]? = some w.chans[c] := List.getElem?_eq_getElem hc
  obtain ⟨chan', n, r, he, hvalid, hcontents⟩ : ∃ chan' n r, Evchan.tryPush keep w.chans[c] x = .ok (chan', n, r) ∧
      chan'.queue.Valid ∧ (w.used c = false → chan'.closed = false ∧ (chan'.circular = true →
        chan'.msgs = (w.received c ++ [x]).rtake chan'.capacity)) := by
    cases hused : w.used c with
    | true =>
      obtain ⟨chan', n, r, he, hd⟩ := tryPush_does keep keep (h.valid c _ hchan) x
      exact ⟨chan', n, r, he, (h.valid c _ hchan).does hd, nofun⟩
    | false =>
      obtain ⟨hopen, hlast⟩ := h.contents c _ hchan hused
      obtain ⟨chan', n, r, he, hvalid, hclosed, hcircular, hcapacity, hmsgs⟩ :=
        tryPush_open keep (h.valid c _ hchan) hopen x
      refine ⟨chan', n, r, he, hvalid, fun _ => ⟨hclosed, fun hcirc => ?_⟩⟩
      rw [hcircular] at hcirc
      rw [hmsgs hcirc, hcapacity, hlast hcirc, rtake_rtake_append]
  refine ⟨{ w with chans := w.chans.set c chan', received := update w.received c (w.received c ++ [x]) }, ?_, ?_⟩
  · unfold World.tryPush
    rw [hchan]
    dsimp only
    rw [he]
    rfl
  · refine ⟨?_, List.length_set, ⟨fun d chan hd => ?_, fun d chan hd hused => ?_⟩⟩
    · -- only the channel that is pushed to receives something
      congr 1
      funext d
      by_cases hcd : d = c
      · rw [hcd, update_self, if_pos rfl]
      · rw [update_of_ne hcd, if_neg (Ne.symm hcd), List.append_nil]
    · dsimp only at hd
      by_cases hcd : c = d
      · rw [← hcd, List.getElem?_set_self hc] at hd
        obtain rfl := Option.some.inj hd
        exact hvalid
      · rw [List.getElem?_set_ne hcd] at hd
        exact h.valid d chan hd
    · dsimp only at hd hused ⊢
      by_cases hcd : c = d
      · rw [← hcd, List.getElem?_set_self hc] at hd
        obtain rfl := Option.some.inj hd
        rw [← hcd] at hused ⊢
        rw [update_self]
        exact hcontents hused
      · rw [List.getElem?_set_ne hcd] at hd
        rw [update_of_ne (Ne.symm hcd)]
        exact h.contents d chan hd hused

/-- An event goes to all channels of a list, as often as they are in it. -/
theorem pushTo_pushed (h : Fits w) {cs : List ℕ} (hcs : ∀ c ∈ cs, c < w.chans.length) (x : α) :
    ∃ w', w.pushTo keep x cs = .ok w' ∧ Pushed (fun d => List.replicate (cs.count d) x) w w' := by
  induction cs generalizing w with
  | nil =>
    refine ⟨w, rfl, ?_, rfl, h⟩
    simp only [List.count_nil, List.replicate_zero, List.append_nil]
  | cons c cs ih =>
    obtain ⟨w₁, h₁, hp₁⟩ := tryPush_pushed keep h (hcs c (List.mem_cons_self ..)) x
    obtain ⟨w₂, h₂, hp₂⟩ := ih hp₁.fits (fun d hd => by
      rw [hp₁.length]
      exact hcs d (List.mem_cons_of_mem _ hd))
    refine ⟨w₂, ?_, ?_⟩
    · unfold World.pushTo
      rw [h₁]
      exact h₂
    · have hcount : (fun d => List.replicate ((c :: cs).count d) x) =
          fun d => (if c = d then [x] else []) ++ List.replicate (cs.count d) x := by
        funext d
        by_cases hcd : c = d
        · rw [if_pos hcd, hcd, List.count_cons_self, List.replicate_succ]
          rfl
        · rw [if_neg hcd, List.count_cons_of_ne hcd]
          rfl
      rw [hcount]
      exact hp₁.trans hp₂

theorem broadcast_pushed (h : Fits w) {cs : List ℕ} (hcs : ∀ c ∈ cs, c < w.chans.length) (xs : List α) :
    ∃ w', w.broadcast keep cs xs = .ok w' ∧ Pushed (fun d => xs.flatMap (List.replicate (cs.count d))) w w' := by
  induction xs generalizing w with
  | nil =>
    refine ⟨w, rfl, ?_, rfl, h⟩
    simp only [List.flatMap_nil, List.append_nil]
  | cons x xs ih =>
    obtain ⟨w₁, h₁, hp₁⟩ := pushTo_pushed keep h hcs x
    obtain ⟨w₂, h₂, hp₂⟩ := ih hp₁.fits (fun d hd => by
      rw [hp₁.length]
      exact hcs d hd)
    refine ⟨w₂, ?_, ?_⟩
    · unfold World.broadcast
      rw [h₁]
      exact h₂
    · simp only [List.flatMap_cons]
      exact hp₁.trans hp₂

theorem toOption_eq_some {ε β : Type} {x : Except ε β} {b : β} (h : x.toOption = some b) : x = .ok b := by
  cases x with
  | error e => cases h
  | ok b' => exact congrArg _ (Option.some.inj h)

/-! ## Runs -/

/-- What went to a channel: every event dispatched, as often as the channel had been connected by then. -/
def World.sent (w : World α) (c : ℕ) : List α :=
  w.dispatched.zipIdx.flatMap fun p => List.replicate ((w.joined c).countP (· ≤ p.2)) p.1

structure Inv (w : World α) : Prop where
  fits : Fits w
  buffer : w.eventBuffer.queue = ⟨buffsz, true, false, w.pending.rtake buffsz⟩
  known : ∀ c ∈ w.eventChannels, c < w.chans.length
  connections : ∀ c, w.alive c = true → w.eventChannels.count c = (w.joined c).length
  before : ∀ c, ∀ t ∈ w.joined c, t ≤ w.dispatched.length
  received : ∀ c, w.alive c = true → w.received c = w.sent c
  fresh : ∀ c, w.chans.length ≤ c → w.received c = []

/-- The events `xs` went to every channel that is alive, as often as it is connected. -/
def Delivers (xs : List α) (w w' : World α) : Prop :=
  w'.dispatched = w.dispatched ++ xs ∧ w'.pending = [] ∧ ∀ c, w.alive c = true →
    w'.received c = w.received c ++ xs.flatMap (List.replicate (w.eventChannels.count c))

theorem buffsz_pos : 1 ≤ buffsz := by
  unfold buffsz
  omega

theorem buffer_valid (xs : List α) : BoundedQueue.Valid ⟨buffsz, true, false, xs.rtake buffsz⟩ :=
  ⟨buffsz_pos, rtake_length_le _ _, nofun⟩

/-- More events are dispatched, and the channels were all connected before. -/
theorem sent_append {c : ℕ} {xs : List α} (hbefore : ∀ t ∈ w.joined c, t ≤ w.dispatched.length)
    (hdispatched : w'.dispatched = w.dispatched ++ xs) (hjoined : w'.joined c = w.joined c) :
    w'.sent c = w.sent c ++ xs.flatMap (List.replicate (w.joined c).length) := by
  unfold World.sent
  rw [hdispatched, hjoined, List.zipIdx_append, List.flatMap_append, Nat.zero_add]
  congr 1
  have hall : ∀ p ∈ xs.zipIdx w.dispatched.length,
      List.replicate ((w.joined c).countP (· ≤ p.2)) p.1 = List.replicate (w.joined c).length p.1 := by
    intro p hp
    congr 1
    refine List.countP_eq_length.2 fun t ht => decide_eq_true ?_
    exact (hbefore t ht).trans (List.le_snd_of_mem_zipIdx hp)
  rw [List.flatMap_congr hall, ← List.flatMap_map Prod.fst, List.zipIdx_map_fst]

/-- **A dispatch.** -/
theorem Inv.dispatch (h : Inv w) : ∃ w', w.dispatch keep = .ok w' ∧ Inv w' ∧
    Delivers (w.pending.rtake buffsz) w w' := by
  have hmsgs : w.eventBuffer.msgs = w.pending.rtake buffsz := congrArg BoundedQueue.items h.buffer
  have hchannels : ∀ c ∈ w.eventChannels.filter w.alive, c < w.chans.length :=
    fun c hc => h.known c (List.mem_filter.1 hc).1
  have hcount : ∀ c, w.alive c = true → (w.eventChannels.filter w.alive).count c = w.eventChannels.count c :=
    fun c hc => List.count_filter hc
  -- channels that are gone are dropped first, and the buffer is emptied before anything is pushed
  obtain ⟨w', hw', hp⟩ := broadcast_pushed keep (w := { w with
    eventChannels := w.eventChannels.filter w.alive
    eventBuffer := (Evchan.getAll keep w.eventBuffer).1
    pending := []
    dispatched := w.dispatched ++ w.eventBuffer.msgs }) ⟨h.fits.valid, h.fits.contents⟩ hchannels w.eventBuffer.msgs
  have hpending : w'.pending = [] := by rw [hp.eq]
  have hdispatched : w'.dispatched = w.dispatched ++ w.pending.rtake buffsz := by rw [hp.eq, ← hmsgs]
  have hjoined : w'.joined = w.joined := by rw [hp.eq]
  have halive : w'.alive = w.alive := by rw [hp.eq]
  have hlist : w'.eventChannels = w.eventChannels.filter w.alive := by rw [hp.eq]
  have hbuffer : w'.eventBuffer = (Evchan.getAll keep w.eventBuffer).1 := by rw [hp.eq]
  have hlength : w'.chans.length = w.chans.length := hp.length
  have hreceived : ∀ c, w'.received c = w.received c ++
      (w.pending.rtake buffsz).flatMap (List.replicate ((w.eventChannels.filter w.alive).count c)) := by
    intro c
    rw [← hmsgs]
    exact congrFun (congrArg World.received hp.eq) c
  refine ⟨w', hw', ?_, hdispatched, hpending, fun c hc => ?_⟩
  · refine ⟨hp.fits, ?_, fun c hc => ?_, fun c hc => ?_, fun c t ht => ?_, fun c hc => ?_, fun c hc => ?_⟩
    · rw [hbuffer, hpending, List.rtake_nil]
      obtain ⟨hcapacity, hcircular, hclosed, -⟩ := BoundedQueue.mk.inj h.buffer
      refine (refreshChannelState_queue _ _).trans ?_
      unfold EventChannel.queue
      rw [hcapacity, hcircular, hclosed]
    · rw [hlist] at hc
      rw [hlength]
      exact hchannels c hc
    · rw [halive] at hc
      rw [hlist, hjoined, hcount c hc]
      exact h.connections c hc
    · rw [hjoined] at ht
      rw [hdispatched, List.length_append]
      exact (h.before c t ht).trans (Nat.le_add_right _ _)
    · rw [halive] at hc
      rw [hreceived, sent_append (h.before c) hdispatched (congrFun hjoined c), h.received c hc, hcount c hc,
        h.connections c hc]
    · rw [hlength] at hc
      -- a channel that does not exist yet is in no list
      have hnone : (w.eventChannels.filter w.alive).count c = 0 :=
        List.count_eq_zero.2 fun hmem => absurd (hchannels c hmem) (Nat.not_lt.2 hc)
      rw [hreceived, h.fresh c hc, hnone, List.nil_append]
      exact List.flatMap_eq_nil_iff.2 fun x _ => rfl
  · rw [hreceived, hcount c hc]

/-- **A push.** -/
theorem Inv.push (h : Inv w) (x : α) : ∃ w', w.push keep x = .ok w' ∧ Inv w' ∧
    if w.autodispatch then Delivers ((w.pending ++ [x]).rtake buffsz) w w'
    else w'.dispatched = w.dispatched ∧ w'.pending = w.pending ++ [x] ∧ w'.received = w.received := by
  obtain ⟨hcapacity, hcircular, hclosed, hmsgs⟩ := BoundedQueue.mk.inj h.buffer
  have hvalid : w.eventBuffer.queue.Valid := by
    rw [h.buffer]
    exact buffer_valid _
  obtain ⟨buffer, n, r, he, -, hopen, hkind, hsize, hlast⟩ := tryPush_open keep hvalid hclosed x
  have hbuffer : buffer.queue = ⟨buffsz, true, false, (w.pending ++ [x]).rtake buffsz⟩ := by
    unfold EventChannel.queue
    rw [hsize, hkind, hopen, hlast hcircular, hcapacity, hcircular, hmsgs, rtake_rtake_append]
  have hinv : Inv { w with eventBuffer := buffer, pending := w.pending ++ [x] } :=
    ⟨⟨h.fits.valid, h.fits.contents⟩, hbuffer, h.known, h.connections, h.before, h.received, h.fresh⟩
  have hpush : w.push keep x = if w.autodispatch then
      World.dispatch keep { w with eventBuffer := buffer, pending := w.pending ++ [x] }
      else .ok { w with eventBuffer := buffer, pending := w.pending ++ [x] } := by
    unfold World.push
    rw [he]
    rfl
  rw [hpush]
  by_cases hauto : w.autodispatch = true
  · obtain ⟨w', hw', hinv', hdelivers⟩ := hinv.dispatch keep
    refine ⟨w', ?_, hinv', ?_⟩
    · rw [if_pos hauto]
      exact hw'
    · rw [if_pos hauto]
      exact hdelivers
  · refine ⟨_, if_neg hauto, hinv, ?_⟩
    rw [if_neg hauto]
    exact ⟨rfl, rfl, rfl⟩

/-- **A channel is connected.** -/
theorem Inv.connect (h : Inv w) {c : ℕ} (hc : c < w.chans.length) : Inv (w.connect c) := by
  unfold World.connect
  refine ⟨⟨h.fits.valid, h.fits.contents⟩, h.buffer, fun d hd => ?_, fun d hd => ?_, fun d t ht => ?_,
    fun d hd => ?_, h.fresh⟩
  · rcases List.mem_append.1 hd with hold | hnew
    · exact h.known d hold
    · obtain rfl := List.mem_singleton.1 hnew
      exact hc
  · have hold := h.connections d hd
    dsimp only
    rw [List.count_append]
    by_cases hdc : d = c
    · subst hdc
      rw [update_self, List.length_append, List.length_singleton, hold, List.count_singleton_self]
    · rw [update_of_ne hdc, List.count_singleton, if_neg (by simpa using Ne.symm hdc), hold, Nat.add_zero]
  · dsimp only at ht ⊢
    by_cases hdc : d = c
    · subst hdc
      rw [update_self] at ht
      rcases List.mem_append.1 ht with hold | hnew
      · exact h.before d t hold
      · exact (List.mem_singleton.1 hnew).le
    · rw [update_of_ne hdc] at ht
      exact h.before d t ht
  · refine (h.received d hd).trans ?_
    unfold World.sent
    dsimp only
    by_cases hdc : d = c
    · subst hdc
      rw [update_self]
      -- the new connection comes after all events dispatched so far
      refine List.flatMap_congr fun p hp => ?_
      have hlt := List.snd_lt_of_mem_zipIdx hp
      rw [List.countP_append, List.countP_singleton, if_neg (by simpa using hlt), Nat.add_zero]
    · rw [update_of_ne hdc]

/-- **A channel is made.** -/
theorem Inv.make (h : Inv w) {chan : EventChannel ℕ α} {capacity : ℕ} {circular : Bool}
    (hchan : eventChannel capacity circular = .ok chan) : Inv { w with chans := w.chans ++ [chan] } := by
  obtain ⟨hqueue, hvalid⟩ := queue_start hchan
  obtain ⟨-, -, hopen, hempty⟩ := BoundedQueue.mk.inj hqueue
  have hcases : ∀ d chan', (w.chans ++ [chan])[d]? = some chan' →
      w.chans[d]? = some chan' ∨ d = w.chans.length ∧ chan' = chan := by
    intro d chan' hd
    rcases Nat.lt_trichotomy d w.chans.length with hlt | rfl | hgt
    · exact .inl ((List.getElem?_append_left hlt).symm.trans hd)
    · rw [List.getElem?_concat_length] at hd
      exact .inr ⟨rfl, (Option.some.inj hd).symm⟩
    · rw [List.getElem?_eq_none (by rw [List.length_append, List.length_singleton]; exact hgt)] at hd
      cases hd
  refine ⟨⟨fun d chan' hd => ?_, fun d chan' hd hused => ?_⟩, h.buffer, fun d hd => ?_, h.connections, h.before,
    h.received, fun d hd => h.fresh d ?_⟩
  · rcases hcases d chan' hd with hold | ⟨-, rfl⟩
    · exact h.fits.valid d chan' hold
    · exact hvalid
  · rcases hcases d chan' hd with hold | ⟨rfl, rfl⟩
    · exact h.fits.contents d chan' hold hused
    · refine ⟨hopen, fun _ => ?_⟩
      dsimp only
      rw [h.fresh _ le_rfl, List.rtake_nil]
      exact hempty
  · dsimp only
    rw [List.length_append]
    exact (h.known d hd).trans_le (Nat.le_add_right _ _)
  · dsimp only at hd
    rw [List.length_append] at hd
    exact (Nat.le_add_right _ _).trans hd

/-- **A client calls a channel.** -/
theorem Inv.use (h : Inv w) {c : ℕ} {chan : EventChannel ℕ α} (hc : w.chans[c]? = some chan) {call : Call α}
    {p : Session α × Answer α} (hp : exec call (Session.start chan) = .ok p) :
    Inv { w with chans := w.chans.set c p.1.chan, used := update w.used c true } := by
  have hlt := (List.getElem?_eq_some_iff.1 hc).1
  obtain ⟨s', r, he, hd, -⟩ := exec_does call (s := Session.start chan) (h.fits.valid c chan hc)
  obtain rfl := Except.ok.inj (he.symm.trans hp)
  refine ⟨⟨fun d chan' hd' => ?_, fun d chan' hd' hused => ?_⟩, h.buffer, fun d hd => ?_, h.connections, h.before,
    h.received, fun d hd => h.fresh d ?_⟩
  · dsimp only at hd'
    by_cases hdc : c = d
    · rw [← hdc, List.getElem?_set_self hlt] at hd'
      obtain rfl := Option.some.inj hd'
      exact (h.fits.valid c chan hc).does hd
    · rw [List.getElem?_set_ne hdc] at hd'
      exact h.fits.valid d chan' hd'
  · dsimp only at hd' hused
    by_cases hdc : c = d
    · rw [hdc, update_self] at hused
      cases hused
    · rw [List.getElem?_set_ne hdc] at hd'
      rw [update_of_ne (Ne.symm hdc)] at hused
      exact h.fits.contents d chan' hd' hused
  · exact (h.known d hd).trans_eq List.length_set.symm
  · exact List.length_set.symm.le.trans hd

/-- **Every step.** -/
theorem Inv.step {e : Event α} (h : Inv w) (hs : World.step e w = some w') : Inv w' := by
  cases e with
  | push x keep =>
    obtain ⟨w₁, h₁, hinv, -⟩ := h.push keep x
    have hs : (w.push keep x).toOption = some w' := hs
    rw [h₁] at hs
    obtain rfl := Option.some.inj hs
    exact hinv
  | dispatch keep =>
    obtain ⟨w₁, h₁, hinv, -⟩ := h.dispatch keep
    have hs : (w.dispatch keep).toOption = some w' := hs
    rw [h₁] at hs
    obtain rfl := Option.some.inj hs
    exact hinv
  | connect c =>
    unfold World.step at hs
    obtain ⟨hc, hs⟩ := Option.ite_none_right_eq_some.1 hs
    obtain rfl := Option.some.inj hs
    exact h.connect hc
  | make capacity circular =>
    unfold World.step at hs
    obtain ⟨chan, hchan, rfl⟩ := Option.map_eq_some_iff.1 hs
    exact h.make (toOption_eq_some hchan)
  | use c call =>
    unfold World.step at hs
    obtain ⟨chan, hc, hs⟩ := Option.bind_eq_some_iff.1 hs
    obtain ⟨p, hp, hs⟩ := Option.bind_eq_some_iff.1 hs
    obtain rfl := Option.some.inj hs
    exact h.use hc (toOption_eq_some hp)
  | release c =>
    obtain rfl := Option.some.inj hs
    -- a connection that is alive now was alive before
    have hbefore : ∀ d, update w.alive c false d = true → w.alive d = true := by
      intro d hd
      rw [update_apply] at hd
      split_ifs at hd
      exact hd
    exact ⟨⟨h.fits.valid, h.fits.contents⟩, h.buffer, h.known, fun d hd => h.connections d (hbefore d hd), h.before,
      fun d hd => h.received d (hbefore d hd), h.fresh⟩

theorem Inv.new (autodispatch : Bool) : Inv (World.new autodispatch : World α) where
  fits := ⟨nofun, nofun⟩
  buffer := by
    unfold World.new EventChannel.queue
    rw [List.rtake_nil]
  known := nofun
  connections _ _ := rfl
  before := nofun
  received _ _ := rfl
  fresh _ _ := rfl

/-- **What a dispatch delivers, and what channels have.** A dispatch pushes the last 1000 of the events pushed since
the last one to every channel that is alive, as often as it is connected, and a push dispatches where it is to. To a
channel that is alive went what was dispatched, as often as it was connected by then; a circular one that no one else
has used has the last ones of these. -/
theorem broadcast_exact (autodispatch : Bool) (h : Reaches World.step Free (World.new autodispatch) w) :
    (∀ keep, (∃ w', w.dispatch keep = .ok w' ∧ Delivers (w.pending.rtake buffsz) w w') ∧
      ∀ x, ∃ w', w.push keep x = .ok w' ∧
        if w.autodispatch then Delivers ((w.pending ++ [x]).rtake buffsz) w w'
        else w'.dispatched = w.dispatched ∧ w'.pending = w.pending ++ [x] ∧ w'.received = w.received) ∧
    (∀ c, w.alive c = true → w.received c = w.sent c ∧ w.eventChannels.count c = (w.joined c).length) ∧
    (∀ (c : ℕ) (chan : EventChannel ℕ α), w.chans[c]? = some chan → w.alive c = true → w.used c = false →
      chan.circular = true → chan.msgs = (w.sent c).rtake chan.capacity) ∧
    ∀ (c c' : ℕ) (chan chan' : EventChannel ℕ α), w.chans[c]? = some chan → w.chans[c']? = some chan' →
      w.alive c = true → w.alive c' = true → w.used c = false → w.used c' = false → chan.circular = true →
      chan'.circular = true → chan.capacity = chan'.capacity → w.joined c = w.joined c' → chan.msgs = chan'.msgs := by
  have hinv : Inv w := h.invariant (fun _ _ _ hi _ hs => hi.step hs) (Inv.new autodispatch)
  have hmsgs : ∀ (c : ℕ) (chan : EventChannel ℕ α), w.chans[c]? = some chan → w.alive c = true → w.used c = false →
      chan.circular = true → chan.msgs = (w.sent c).rtake chan.capacity := by
    intro c chan hchan halive hused hcircular
    rw [← hinv.received c halive]
    exact (hinv.fits.contents c chan hchan hused).2 hcircular
  refine ⟨fun keep => ⟨?_, fun x => ?_⟩, fun c hc => ⟨hinv.received c hc, hinv.connections c hc⟩, hmsgs, ?_⟩
  · obtain ⟨w', hw', -, hdelivers⟩ := hinv.dispatch keep
    exact ⟨w', hw', hdelivers⟩
  · obtain ⟨w', hw', -, hpushed⟩ := hinv.push keep x
    exact ⟨w', hw', hpushed⟩
  · intro c c' chan chan' hchan hchan' halive halive' hused hused' hcircular hcircular' hcapacity hjoined
    have hsent : w.sent c = w.sent c' := by
      unfold World.sent
      rw [hjoined]
    rw [hmsgs c chan hchan halive hused hcircular, hmsgs c' chan' hchan' halive' hused' hcircular', hsent, hcapacity]

/-- Two channels of different capacities, the second connected after the first dispatch; a third one is gone. -/
theorem broadcast_exact_two : ∃ w : World ℕ, w.chans.map (·.msgs) = [[3, 4], [2, 3, 4], []] ∧
    (∀ c, w.alive c = true → w.received c = w.sent c ∧ w.eventChannels.count c = (w.joined c).length) := by
  obtain ⟨w, hreach, hmsgs⟩ : ∃ w : World ℕ, Reaches World.step Free (World.new false) w ∧
      w.chans.map (·.msgs) = [[3, 4], [2, 3, 4], []] :=
    exists_of_events [.make 2 true, .make 4 true, .make 4 true, .connect 2, .connect 0, .release 2,
      .push 1 fun _ => true, .dispatch fun _ => true, .connect 1, .push 2 fun _ => true, .push 3 fun _ => true,
      .dispatch fun _ => true, .push 4 fun _ => true, .dispatch fun _ => true] (by decide +kernel)
  exact ⟨w, hmsgs, (broadcast_exact false hreach).2.1⟩

/-- **An event comes twice** to a channel that was connected twice. -/
theorem connected_twice : ¬∀ w : World ℕ, Reaches World.step Free (World.new false) w →
    ∀ (c t : ℕ) (ts : List ℕ) (chan : EventChannel ℕ ℕ), w.chans[c]? = some chan → w.alive c = true →
      w.used c = false → chan.circular = true → w.joined c = t :: ts →
      chan.msgs = (w.dispatched.drop t).rtake chan.capacity := by
  intro hall
  obtain ⟨w, hreach, hmsgs, halive, hused, hjoined, hdispatched, hcircular, hcapacity⟩ : ∃ w : World ℕ,
      Reaches World.step Free (World.new false) w ∧ (w.chans.map (·.msgs) = [[7, 7]] ∧ w.alive 0 = true ∧
        w.used 0 = false ∧ w.joined 0 = [0, 0] ∧ w.dispatched = [7] ∧ w.chans.map (·.circular) = [true] ∧
          w.chans.map (·.capacity) = [2]) :=
    exists_of_events [.make 2 true, .connect 0, .connect 0, .push 7 fun _ => true, .dispatch fun _ => true]
      (by decide +kernel)
  obtain ⟨chan, hchans⟩ : ∃ chan, w.chans = [chan] := by
    refine List.length_eq_one_iff.1 ?_
    have hlength := congrArg List.length hmsgs
    rwa [List.length_map] at hlength
  rw [hchans] at hmsgs hcircular hcapacity
  have hone := hall w hreach 0 0 [0] chan (by rw [hchans]; rfl) halive hused (List.cons.inj hcircular).1 hjoined
  have htwice : chan.msgs = [7, 7] := (List.cons.inj hmsgs).1
  have htwo : chan.capacity = 2 := (List.cons.inj hcapacity).1
  rw [hdispatched, htwice, htwo] at hone
  exact absurd hone (by decide)

end Libtarp.Broadcaster
