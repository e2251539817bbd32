import Libtarp.Channel.EventChannel

/-!
# The buffer of an event channel is a bounded queue

* `BoundedQueue.Does`: what each call does to the queue, and what it returns.
* `exec_does`: the calls of the channel do just that.
* `given_sublist`: what comes out of a queue and what stays in it are, in this order, among
  what was accepted, in the order in which it was accepted.
* `boundedQueue`: all this for every run.
-/

namespace Libtarp.Evchan

open Lib

variable {α : Type}

structure BoundedQueue (α : Type) where
  capacity : ℕ
  circular : Bool
  closed : Bool
  items : List α

namespace BoundedQueue

/-- What the call `c` does to the queue `q`: it returns `r` and leaves `q'`. -/
def Does (q : BoundedQueue α) (c : Call α) (r : Answer α) (q' : BoundedQueue α) : Prop :=
  match c with
  | .tryPush x _ =>
    if q.closed then r = .pushed false (some x) ∧ q' = q
    else if q.items.length < q.capacity then r = .pushed true none ∧ q' = { q with items := q.items ++ [x] }
    else if q.circular then r = .pushed true none ∧ q' = { q with items := q.items.tail ++ [x] }
    else r = .pushed false (some x) ∧ q' = q
  | .tryGet _ => r = .got q.items.head? ∧ q' = { q with items := q.items.tail }
  | .getAll _ => r = .events q.items ∧ q' = { q with items := [] }
  | .clear _ => r = .done ∧ q' = { q with items := [] }
  | .close => r = .done ∧ q' = { q with closed := true, items := [] }
  | .addMonitor _ => q' = q

/-- Never more than the capacity, and nothing once closed. -/
structure Valid (q : BoundedQueue α) : Prop where
  pos : 1 ≤ q.capacity
  bound : q.items.length ≤ q.capacity
  closed : q.closed = true → q.items = []

variable {q q' : BoundedQueue α} {c : Call α} {r : Answer α}

theorem Valid.does (h : q.Valid) (hd : q.Does c r q') : q'.Valid := by
  cases c with
  | tryPush x keep =>
    simp only [Does] at hd
    split_ifs at hd with hcl hroom hcirc
    · exact hd.2 ▸ h
    · rw [hd.2]
      refine ⟨h.pos, ?_, fun hcl' => absurd hcl' hcl⟩
      simp only [List.length_append, List.length_singleton]
      omega
    · rw [hd.2]
      refine ⟨h.pos, ?_, fun hcl' => absurd hcl' hcl⟩
      have := h.pos
      have := h.bound
      simp only [List.length_append, List.length_tail, List.length_singleton]
      omega
    · exact hd.2 ▸ h
  | tryGet keep =>
    rw [hd.2]
    refine ⟨h.pos, ?_, fun hcl => by simp [h.closed hcl]⟩
    have := h.bound
    simp only [List.length_tail]
    omega
  | getAll keep => rw [hd.2]; exact ⟨h.pos, Nat.zero_le _, fun _ => rfl⟩
  | clear keep => rw [hd.2]; exact ⟨h.pos, Nat.zero_le _, fun _ => rfl⟩
  | close => rw [hd.2]; exact ⟨h.pos, Nat.zero_le _, fun _ => rfl⟩
  | addMonitor states => exact (show q' = q from hd) ▸ h

/-- A queue does not open again, and keeps its capacity and kind. -/
theorem Does.fixed (hd : q.Does c r q') :
    q'.capacity = q.capacity ∧ q'.circular = q.circular ∧ (q.closed = true → q'.closed = true) := by
  cases c with
  | tryPush x keep =>
    simp only [Does] at hd
    split_ifs at hd <;> rw [hd.2] <;> exact ⟨rfl, rfl, id⟩
  | tryGet keep => rw [hd.2]; exact ⟨rfl, rfl, id⟩
  | getAll keep => rw [hd.2]; exact ⟨rfl, rfl, id⟩
  | clear keep => rw [hd.2]; exact ⟨rfl, rfl, id⟩
  | close => rw [hd.2]; exact ⟨rfl, rfl, fun _ => rfl⟩
  | addMonitor states => rw [show q' = q from hd]; exact ⟨rfl, rfl, id⟩

/-- The values of the pushes that were accepted. -/
def accepted (c : Call α) (r : Answer α) : List α :=
  match c, r with
  | .tryPush x _, .pushed true _ => [x]
  | _, _ => []

/-- The values that came out. -/
def given (r : Answer α) : List α :=
  match r with
  | .got x => x.toList
  | .events l => l
  | _ => []

/-- One call: what comes out and what stays was there or is accepted, in this order. -/
theorem Does.sublist (hd : q.Does c r q') (hr : ∀ states, c ≠ .addMonitor states) :
    (given r ++ q'.items).Sublist (q.items ++ accepted c r) := by
  cases c with
  | tryPush x keep =>
    simp only [Does] at hd
    split_ifs at hd <;> rw [hd.1, hd.2]
    · exact List.sublist_append_left _ _
    · exact List.Sublist.refl _
    · exact (List.tail_sublist _).append_right _
    · exact List.sublist_append_left _ _
  | tryGet keep =>
    rw [hd.1, hd.2]
    cases q.items with
    | nil => exact List.Sublist.refl _
    | cons x l => simp [given, accepted]
  | getAll keep => rw [hd.1, hd.2]; simp [given, accepted]
  | clear keep => rw [hd.1, hd.2]; simp [given, accepted]
  | close => rw [hd.1, hd.2]; simp [given, accepted]
  | addMonitor states => exact absurd rfl (hr states)

end BoundedQueue

open BoundedQueue

/-- The channel as a queue. -/
def EventChannel.queue {ι : Type} (c : EventChannel ι α) : BoundedQueue α :=
  ⟨c.capacity, c.circular, c.closed, c.msgs⟩

/-- A refresh leaves the buffer alone. -/
theorem refreshChannelState_queue {ι : Type} (keep : Notification ι → Bool) (c : EventChannel ι α) :
    (refreshChannelState keep c).1.queue = c.queue := by
  unfold refreshChannelState
  by_cases h : currentState c = c.stateMask
  · rw [if_pos h]
  · rw [if_neg h]
    rfl

theorem tryPush_does {ι : Type} (keep : Notification ι → Bool) (keep' : Notification ℕ → Bool)
    {c : EventChannel ι α} (h : c.queue.Valid) (x : α) :
    ∃ c' n r, Evchan.tryPush keep c x = .ok (c', n, r) ∧ c.queue.Does (.tryPush x keep') r c'.queue := by
  have hpos : 1 ≤ c.capacity := h.pos
  have hlen : c.msgs.length ≤ c.capacity := h.bound
  have hdoes : ∀ r (q : BoundedQueue α), (if c.closed then r = .pushed false (some x) ∧ q = c.queue
      else if c.msgs.length < c.capacity then r = .pushed true none ∧ q = { c.queue with items := c.msgs ++ [x] }
      else if c.circular then r = .pushed true none ∧ q = { c.queue with items := c.msgs.tail ++ [x] }
      else r = .pushed false (some x) ∧ q = c.queue) → c.queue.Does (.tryPush x keep') r q := fun _ _ hr => hr
  unfold Evchan.tryPush
  by_cases hcl : c.closed = true
  · rw [if_pos hcl]
    exact ⟨c, [], _, rfl, hdoes _ _ (by rw [if_pos hcl]; exact ⟨rfl, rfl⟩)⟩
  rw [if_neg hcl]
  by_cases hroom : c.msgs.length < c.capacity
  · rw [if_pos hroom]
    refine ⟨_, _, _, rfl, hdoes _ _ ?_⟩
    rw [if_neg hcl, if_pos hroom]
    exact ⟨rfl, refreshChannelState_queue _ _⟩
  rw [if_neg hroom]
  by_cases hcirc : c.circular = true
  · have hfit : ¬(c.msgs.tail ++ [x]).length > c.capacity := by
      simp only [List.length_append, List.length_tail, List.length_singleton]
      omega
    rw [if_pos hcirc]
    simp only [if_neg hfit]
    refine ⟨_, _, _, rfl, hdoes _ _ ?_⟩
    rw [if_neg hcl, if_neg hroom, if_pos hcirc]
    exact ⟨rfl, refreshChannelState_queue _ _⟩
  · rw [if_neg hcirc]
    refine ⟨c, [], _, rfl, hdoes _ _ ?_⟩
    rw [if_neg hcl, if_neg hroom, if_neg hcirc]
    exact ⟨rfl, rfl⟩

theorem tryGet_does {ι : Type} (keep : Notification ι → Bool) (keep' : Notification ℕ → Bool)
    {c : EventChannel ι α} (h : c.queue.Valid) :
    c.queue.Does (.tryGet keep') (Evchan.tryGet keep c).2.2 (Evchan.tryGet keep c).1.queue := by
  unfold Evchan.tryGet
  cases hm : c.msgs with
  | nil => exact ⟨by simp [EventChannel.queue, hm], by simp [EventChannel.queue, hm]⟩
  | cons x l =>
    have hcl : ¬c.closed = true := by
      intro hcl
      have hnil : c.msgs = [] := h.closed hcl
      rw [hm] at hnil
      cases hnil
    simp only [if_neg hcl]
    refine ⟨by simp [EventChannel.queue, hm], (refreshChannelState_queue _ _).trans ?_⟩
    simp [EventChannel.queue, hm]

/-- **The calls of a channel are those of a bounded queue.** -/
theorem exec_does (c : Call α) {s : Session α} (h : s.chan.queue.Valid) :
    ∃ s' r, exec c s = .ok (s', r) ∧ s.chan.queue.Does c r s'.chan.queue ∧
      ∀ states, c = .addMonitor states → given r = [] := by
  cases c with
  | tryPush x keep =>
    obtain ⟨c', n, r, he, hd⟩ := tryPush_does keep keep h x
    exact ⟨s.become keep c' n, r, by simp only [exec, he]; rfl, hd, by simp⟩
  | tryGet keep => exact ⟨_, _, rfl, tryGet_does keep keep h, by simp⟩
  | getAll keep => exact ⟨_, _, rfl, ⟨rfl, refreshChannelState_queue _ _⟩, by simp⟩
  | clear keep => exact ⟨_, _, rfl, ⟨rfl, refreshChannelState_queue _ _⟩, by simp⟩
  | close => exact ⟨_, _, rfl, ⟨rfl, rfl⟩, by simp⟩
  | addMonitor states => exact ⟨_, _, rfl, rfl, fun _ _ => rfl⟩

/-! ## Runs -/

/-- What a closed channel answers. -/
def Shut (c : Call α) (r : Answer α) : Prop :=
  match c with
  | .tryPush x _ => r = .pushed false (some x)
  | .tryGet _ => r = .got none
  | .getAll _ => r = .events []
  | _ => True

theorem BoundedQueue.Does.shut {q q' : BoundedQueue α} {c : Call α} {r : Answer α} (hd : q.Does c r q')
    (h : q.Valid) (hcl : q.closed = true) : Shut c r := by
  have hnil := h.closed hcl
  cases c with
  | tryPush x keep =>
    simp only [Does, if_pos hcl] at hd
    exact hd.1
  | tryGet keep => exact hd.1.trans (by rw [hnil]; rfl)
  | getAll keep => exact hd.1.trans (by rw [hnil])
  | clear keep => trivial
  | close => trivial
  | addMonitor states => trivial

/-- The values accepted in a run, in order. -/
def acceptedIn (cs : List (Call α)) (rs : List (Answer α)) : List α := (cs.zip rs).flatMap fun p => accepted p.1 p.2

/-- The values that came out in a run, in order. -/
def givenIn (rs : List (Answer α)) : List α := rs.flatMap given

/-- **What came out of a channel and what is still in it** was accepted, and comes in the order
of the pushes. -/
theorem given_sublist {cs : List (Call α)} {s s' : Session α} {rs : List (Answer α)} (h : s.chan.queue.Valid)
    (hr : runCalls exec cs s = .ok (s', rs)) :
    (givenIn rs ++ s'.chan.msgs).Sublist (s.chan.msgs ++ acceptedIn cs rs) := by
  induction cs generalizing s rs with
  | nil =>
    obtain ⟨rfl, rfl⟩ : s = s' ∧ [] = rs := by simpa [runCalls] using hr
    simp [givenIn, acceptedIn]
  | cons c cs ih =>
    obtain ⟨s₁, r, he, hd, hmon⟩ := exec_does c h
    simp only [runCalls, he] at hr
    split at hr
    · cases hr
    · rename_i s₂ rs₂ h₂
      obtain ⟨rfl, rfl⟩ : s₂ = s' ∧ r :: rs₂ = rs := by simpa using hr
      have hrest := ih (h.does hd) h₂
      have hstep : (given r ++ s₁.chan.msgs).Sublist (s.chan.msgs ++ accepted c r) := by
        by_cases hc : ∃ states, c = .addMonitor states
        · obtain ⟨states, rfl⟩ := hc
          have hq : s₁.chan.msgs = s.chan.msgs := congrArg items (show s₁.chan.queue = s.chan.queue from hd)
          rw [hmon states rfl, hq]
          exact List.sublist_append_left _ _
        · exact hd.sublist fun states hs => hc ⟨states, hs⟩
      show ((given r ++ givenIn rs₂) ++ s₂.chan.msgs).Sublist (s.chan.msgs ++ (accepted c r ++ acceptedIn cs rs₂))
      rw [List.append_assoc (given r), ← List.append_assoc s.chan.msgs]
      have hout : (given r ++ (givenIn rs₂ ++ s₂.chan.msgs)).Sublist
          (given r ++ (s₁.chan.msgs ++ acceptedIn cs rs₂)) := hrest.append_left _
      rw [← List.append_assoc (given r) s₁.chan.msgs] at hout
      exact hout.trans (hstep.append_right _)

theorem queue_start {capacity : ℕ} {circular : Bool} {c : EventChannel ℕ α}
    (hc : eventChannel capacity circular = .ok c) :
    c.queue = ⟨capacity, circular, false, []⟩ ∧ c.queue.Valid := by
  unfold eventChannel at hc
  split_ifs at hc with h0
  obtain rfl := Except.ok.inj hc
  refine ⟨rfl, ?_, Nat.zero_le _, fun _ => rfl⟩
  exact Nat.one_le_iff_ne_zero.2 h0

/-- **In every run on a new channel the buffer is a bounded queue**: no call throws, the length
stays within the capacity, every call does what the queue does, a closed channel refuses
everything, and the values come out in the order they were pushed, each once. -/
theorem boundedQueue {capacity : ℕ} {circular : Bool} {c : EventChannel ℕ α}
    (hc : eventChannel capacity circular = .ok c) (cs : List (Call α)) :
    After exec (fun s => s.chan.queue.Valid ∧ s.chan.capacity = capacity ∧ s.chan.circular = circular) cs
        (Session.start c) ∧
      Each exec (fun c s r s' => s.chan.queue.Does c r s'.chan.queue ∧
        (s.chan.closed = true → Shut c r ∧ s'.chan.closed = true)) cs (Session.start c) ∧
      ∀ pre s rs, runCalls exec pre (Session.start c) = .ok (s, rs) →
        (givenIn rs ++ s.chan.msgs).Sublist (acceptedIn pre rs) := by
  obtain ⟨hq, hv⟩ := queue_start hc
  have hm : Meets exec (fun _ _ => True) cs (Session.start c) := meets_free cs (Session.start c)
  have hstart : (Session.start c).chan.capacity = capacity ∧ (Session.start c).chan.circular = circular :=
    ⟨congrArg BoundedQueue.capacity hq, congrArg BoundedQueue.circular hq⟩
  refine ⟨?_, ?_, ?_⟩
  · refine after_of_step (fun _ s => s.chan.queue.Valid ∧ s.chan.capacity = capacity ∧ s.chan.circular = circular)
      ?_ (fun _ _ h => h) ⟨hv, hstart⟩ hm
    rintro n c s - ⟨hs, hcap, hcirc⟩ -
    obtain ⟨s', r, he, hd, -⟩ := exec_does c hs
    exact ⟨s', r, he, hs.does hd, hd.fixed.1.trans hcap, hd.fixed.2.1.trans hcirc⟩
  · refine each_of_step (fun _ s => s.chan.queue.Valid) ?_ hv hm
    rintro n c s - hs -
    obtain ⟨s', r, he, hd, -⟩ := exec_does c hs
    exact ⟨s', r, he, hs.does hd, hd, fun hcl => ⟨hd.shut hs hcl, hd.fixed.2.2 hcl⟩⟩
  · intro pre s rs hr
    have hsub := given_sublist (s := Session.start c) hv hr
    rwa [show (Session.start c).chan.msgs = [] from congrArg items hq, List.nil_append] at hsub

theorem boundedQueue_one : ∃ c : EventChannel ℕ ℕ, eventChannel 1 true = .ok c ∧
    After exec (fun s => s.chan.queue.Valid ∧ s.chan.capacity = 1 ∧ s.chan.circular = true)
      [.tryPush 7 fun _ => true, .tryPush 8 fun _ => true, .tryGet fun _ => true] (Session.start c) := by
  have hnew : ∃ c : EventChannel ℕ ℕ, eventChannel 1 true = .ok c := ⟨_, rfl⟩
  obtain ⟨c, hc⟩ := hnew
  exact ⟨c, hc, (boundedQueue hc _).1⟩

end Libtarp.Evchan
