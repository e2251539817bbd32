import Libtarp.Channel.AggregatorRuns
import Libtarp.Channel.BoundedQueue
import Libtarp.Channel.Locking
import Libtarp.Lib.Ring

/-!
# All events of an aggregator (`evchan.hxx`, `event_aggregator::get_all`)

The queues of the member channels are taken out one after the other, and their events put into one list in turn. A
queue that is found empty is erased; the next one moves into its place, and the index goes on past it.

* `getAll_fair_of_turnsKept`: nothing is lost or doubled, and every channel keeps its order. The turns are fair where
  the numbers of events are such that no channel loses one.
* `getAll_unfair`: three channels, of which one gives two events in a row.
-/

namespace Libtarp.EventAggregator

open Function Lib Evchan

variable {κ α β : Type}

theorem idx_lt {l : List α} (h : l ≠ []) (idx : ℕ) : idx % l.length < l.length :=
  Nat.mod_lt _ (List.length_pos_iff.2 h)

/-- The `while` loop: the events, and the index after it. -/
def roundRobin (idx : ℕ) (events : List (List α)) : List α × ℕ :=
  if h : events = [] then ([], idx)
  else
    match _hqueue : events.get ⟨idx % events.length, idx_lt h idx⟩ with
    | [] => roundRobin (idx % events.length + 1) (events.eraseIdx (idx % events.length))
    | e :: queue =>
      let p := roundRobin (idx % events.length + 1) (events.set (idx % events.length) queue)
      (e :: p.1, p.2)
termination_by (events.map List.length).sum + events.length
decreasing_by
  · have hlt := idx_lt h idx
    have hsum := Locking.sum_eraseIdx (l := events.map List.length) (by rwa [List.length_map])
    rw [List.length_eraseIdx_of_lt hlt, ← List.eraseIdx_map]
    omega
  · have hlt := idx_lt h idx
    have hsum := Locking.sum_set (l := events.map List.length) (by rwa [List.length_map]) queue.length
    rw [List.get_eq_getElem] at _hqueue
    rw [List.getElem_map, _hqueue, List.length_cons] at hsum
    rw [List.map_set, List.length_set]
    omega

/-! ## The ring -/

/-- What the index stands at. -/
theorem exists_stand {l : List α} (h : l ≠ []) (idx : ℕ) :
    ∃ before x after, l = before ++ x :: after ∧ idx % l.length = before.length := by
  have hlt := idx_lt h idx
  refine ⟨l.take (idx % l.length), l[idx % l.length], l.drop (idx % l.length + 1), ?_, ?_⟩
  · rw [List.getElem_cons_drop, List.take_append_drop]
  · rw [List.length_take, Nat.min_eq_left hlt.le]

/-- Induction on the turns: in each, one queue is erased or gets shorter. -/
theorem turns_induction {γ : Type} (len : γ → ℕ) {P : ℕ → List γ → Prop} (nil : ∀ idx, P idx [])
    (turn : ∀ idx before x after, idx % (before ++ x :: after).length = before.length →
      P (before.length + 1) (before ++ after) →
      (∀ y, len y < len x → P (before.length + 1) (before ++ y :: after)) → P idx (before ++ x :: after))
    (idx : ℕ) (ring : List γ) : P idx ring := by
  induction hweight : (ring.map fun x => len x + 1).sum using Nat.strong_induction_on generalizing idx ring with
  | _ weight ih =>
  by_cases hempty : ring = []
  · rw [hempty]
    exact nil idx
  obtain ⟨before, x, after, rfl, hidx⟩ := exists_stand hempty idx
  rw [List.map_append, List.map_cons, List.sum_append, List.sum_cons] at hweight
  refine turn idx before x after hidx (ih _ ?_ _ _ rfl) fun y hy => ih _ ?_ _ _ rfl
  · rw [List.map_append, List.sum_append]
    omega
  · rw [List.map_append, List.map_cons, List.sum_append, List.sum_cons]
    omega

theorem roundRobin_nil (idx : ℕ) : roundRobin idx ([] : List (List α)) = ([], idx) := by
  rw [roundRobin, dif_pos rfl]

/-- The index stands at an empty queue. -/
theorem roundRobin_empty {idx : ℕ} {before after : List (List α)}
    (h : idx % (before ++ [] :: after).length = before.length) :
    roundRobin idx (before ++ [] :: after) = roundRobin (before.length + 1) (before ++ after) := by
  rw [roundRobin, dif_neg (List.append_ne_nil_of_right_ne_nil _ (List.cons_ne_nil _ _))]
  split
  · rw [h, List.eraseIdx_append_of_length_le le_rfl, Nat.sub_self, List.eraseIdx_cons_zero]
  · next e queue hqueue =>
    simp only [List.get_eq_getElem, h, List.getElem_append_right le_rfl, Nat.sub_self, List.getElem_cons_zero] at hqueue
    cases hqueue

/-- The index stands at a queue with an event. -/
theorem roundRobin_event {idx : ℕ} {before after : List (List α)} {x : α} {queue : List α}
    (h : idx % (before ++ (x :: queue) :: after).length = before.length) :
    roundRobin idx (before ++ (x :: queue) :: after) =
      (x :: (roundRobin (before.length + 1) (before ++ queue :: after)).1,
        (roundRobin (before.length + 1) (before ++ queue :: after)).2) := by
  rw [roundRobin, dif_neg (List.append_ne_nil_of_right_ne_nil _ (List.cons_ne_nil _ _))]
  split
  · next hqueue =>
    simp only [List.get_eq_getElem, h, List.getElem_append_right le_rfl, Nat.sub_self, List.getElem_cons_zero] at hqueue
    cases hqueue
  · next e queue' hqueue =>
    simp only [List.get_eq_getElem, h, List.getElem_append_right le_rfl, Nat.sub_self, List.getElem_cons_zero] at hqueue
    obtain ⟨rfl, rfl⟩ := List.cons.inj hqueue
    rw [h, List.set_append_right _ _ le_rfl, Nat.sub_self, List.set_cons_zero]

section Ring

variable {ι : Type}

/-- Events with the number of their channel. -/
def tag (p : ι × List α) : List (ι × α) := p.2.map fun x => (p.1, x)

/-- **The index goes around a ring.** -/
theorem roundRobin_served (idx : ℕ) (ring : List (ι × List α)) :
    (roundRobin idx (ring.map tag)).1 = served (ring.rotate idx) := by
  induction idx, ring using turns_induction (fun p : ι × List α => p.2.length) with
  | nil idx => rw [List.map_nil, roundRobin_nil, List.rotate_nil, served]
  | turn idx before p after hidx hempty hshorter =>
    obtain ⟨d, queue⟩ := p
    have hrotate : (before ++ (d, queue) :: after).rotate idx = (d, queue) :: (after ++ before) := by
      rw [← List.rotate_mod, hidx, List.rotate_append_length_eq]
      rfl
    have hstand : idx % (before.map tag ++ tag (d, queue) :: after.map tag).length = (before.map tag).length := by
      rw [List.length_map, ← hidx]
      simp only [List.length_append, List.length_cons, List.length_map]
    rw [hrotate, List.map_append, List.map_cons]
    cases queue with
    | nil =>
      rw [served, ← List.rotate_append_length_eq before after, List.rotate_rotate, ← hempty, List.map_append]
      refine (congrArg Prod.fst (roundRobin_empty hstand)).trans ?_
      rw [List.length_map]
    | cons x queue =>
      have hring : (before ++ (d, queue) :: after).rotate (before.length + 1) = after ++ before ++ [(d, queue)] := by
        rw [← List.rotate_rotate, List.rotate_append_length_eq, List.cons_append, List.rotate_cons_succ,
          List.rotate_zero]
      rw [served, ← hring, ← hshorter (d, queue) (Nat.lt_succ_self _), List.map_append, List.map_cons]
      refine (congrArg Prod.fst (roundRobin_event hstand)).trans ?_
      rw [List.length_map]
      rfl

end Ring

/-- The loop does not look at the events. -/
theorem roundRobin_map (f : α → β) (idx : ℕ) (events : List (List α)) :
    roundRobin idx (events.map (List.map f)) = ((roundRobin idx events).1.map f, (roundRobin idx events).2) := by
  induction idx, events using turns_induction (List.length : List α → ℕ) with
  | nil idx => rw [List.map_nil, roundRobin_nil, roundRobin_nil, List.map_nil]
  | turn idx before queue after hidx hempty hshorter =>
    have hstand : idx % ((before.map (List.map f)) ++ queue.map f :: after.map (List.map f)).length =
        (before.map (List.map f)).length := by
      rw [List.length_map, ← hidx]
      simp only [List.length_append, List.length_cons, List.length_map]
    rw [List.map_append, List.map_cons]
    cases queue with
    | nil =>
      rw [roundRobin_empty hidx, ← hempty, List.map_append]
      refine (roundRobin_empty hstand).trans ?_
      rw [List.length_map]
    | cons x queue =>
      have hnext := hshorter queue (Nat.lt_succ_self _)
      rw [List.map_append, List.map_cons] at hnext
      rw [roundRobin_event hidx]
      refine (roundRobin_event hstand).trans ?_
      rw [List.length_map, hnext, List.map_cons]

theorem finalIdx_zero {idx : ℕ} {before after : List ℕ} (h : idx % (before ++ 0 :: after).length = before.length) :
    Locking.finalIdx idx (before ++ 0 :: after) = Locking.finalIdx (before.length + 1) (before ++ after) := by
  rw [Locking.finalIdx, dif_neg (List.append_ne_nil_of_right_ne_nil _ (List.cons_ne_nil _ _))]
  simp only [h, List.getElem_append_right le_rfl, Nat.sub_self, List.getElem_cons_zero, if_true,
    List.eraseIdx_append_of_length_le le_rfl, List.eraseIdx_cons_zero]

theorem finalIdx_succ {idx n : ℕ} {before after : List ℕ}
    (h : idx % (before ++ (n + 1) :: after).length = before.length) :
    Locking.finalIdx idx (before ++ (n + 1) :: after) = Locking.finalIdx (before.length + 1) (before ++ n :: after) := by
  rw [Locking.finalIdx, dif_neg (List.append_ne_nil_of_right_ne_nil _ (List.cons_ne_nil _ _))]
  simp only [h, List.getElem_append_right le_rfl, Nat.sub_self, List.getElem_cons_zero, Nat.add_one_ne_zero,
    if_false, Nat.add_sub_cancel, List.set_append_right _ _ le_rfl, List.set_cons_zero]

/-- Two models of one loop: the index is the one that the numbers of events lead to. -/
theorem roundRobin_idx (idx : ℕ) (events : List (List α)) :
    (roundRobin idx events).2 = Locking.finalIdx idx (events.map List.length) := by
  induction idx, events using turns_induction (List.length : List α → ℕ) with
  | nil idx => rw [List.map_nil, roundRobin_nil, Locking.finalIdx, dif_pos rfl]
  | turn idx before queue after hidx hempty hshorter =>
    have hstand : idx % ((before.map List.length) ++ queue.length :: after.map List.length).length =
        (before.map List.length).length := by
      rw [List.length_map, ← hidx]
      simp only [List.length_append, List.length_cons, List.length_map]
    rw [List.map_append, List.map_cons]
    cases queue with
    | nil =>
      rw [roundRobin_empty hidx, hempty, List.map_append]
      refine Eq.trans ?_ (finalIdx_zero hstand).symm
      rw [List.length_map]
    | cons x queue =>
      rw [roundRobin_event hidx, hshorter queue (Nat.lt_succ_self _), List.map_append, List.map_cons]
      refine Eq.trans ?_ (finalIdx_succ hstand).symm
      rw [List.length_map]

/-! ## Members -/

variable [DecidableEq κ] (toKey : UInt32 → κ) (keep : Notification ℕ → Bool)

/-- The queues of the channels, taken out one after the other. -/
def collect (w : World κ α) : List ℕ → World κ α × List (List α)
  | [] => (w, [])
  | c :: cs =>
    match w.chans[c]? with
    | none => collect w cs
    | some chan =>
      let p := Evchan.getAll (w.agg.answer toKey keep) chan
      let q := collect (w.become toKey keep c p.1 p.2.1) cs
      (q.1, BoundedQueue.given p.2.2 :: q.2)

/-- `get_all`, where `m_idx` is `idx`: the events, and what `m_idx` is then. -/
def getAll (idx : ℕ) (w : World κ α) : World κ α × List α × ℕ :=
  if w.agg.channels = [] then (w, [], idx)
  else
    let p := collect toKey keep w w.agg.channels
    (p.1, roundRobin idx p.2)

omit [DecidableEq κ] in
/-- What the members have. -/
def queues (w : World κ α) : List (List α) := w.agg.channels.map fun c => (w.chans[c]?.map (·.msgs)).getD []

omit [DecidableEq κ] in
/-- The members are different channels. -/
structure Members (w : World κ α) : Prop where
  nodup : w.agg.channels.Nodup
  known : ∀ c ∈ w.agg.channels, c < w.chans.length

variable {toKey}

theorem notify_keeps_channels (agg : Aggregator κ) (key : UInt32) (events : Mask) (action : Action) :
    (agg.notify toKey keep key events action).1.1.channels = agg.channels := by
  unfold Aggregator.notify Aggregator.invokeNotifiers
  dsimp only
  split_ifs <;> rfl

theorem deliver_keeps_channels (agg : Aggregator κ) (n : List (Notification UInt32)) :
    (agg.deliver toKey keep n).1.channels = agg.channels := by
  induction n generalizing agg with
  | nil => rfl
  | cons m n ih => exact (ih ..).trans (notify_keeps_channels keep agg ..)

omit [DecidableEq κ] in
theorem Members.of_eq {w w' : World κ α} (h : Members w) (hchannels : w'.agg.channels = w.agg.channels)
    (hchans : w'.chans.length = w.chans.length) : Members w' := by
  refine ⟨?_, fun c hc => ?_⟩
  · rw [hchannels]
    exact h.nodup
  · rw [hchannels] at hc
    rw [hchans]
    exact h.known c hc

theorem Members.channel {w : World κ α} {p : World κ α × Option ℕ} {k : κ} {chancap : ℕ} (h : Members w)
    (he : channel toKey keep w k chancap = .ok p) : Members p.1 := by
  unfold EventAggregator.channel at he
  cases hk : w.agg.index k with
  | some c =>
    rw [hk] at he
    obtain rfl := Except.ok.inj he
    exact h
  | none =>
    rw [hk] at he
    dsimp only at he
    by_cases hclosed : w.agg.closed = true
    · rw [if_pos hclosed] at he
      obtain rfl := Except.ok.inj he
      exact h
    rw [if_neg hclosed] at he
    cases hnew : eventChannel (ι := UInt32) (α := α) chancap true with
    | error x =>
      rw [hnew] at he
      cases he
    | ok chan =>
      -- the new member is a channel that was not there
      have hmembers : (w.agg.channels ++ [w.chans.length]).Nodup ∧
          ∀ c ∈ w.agg.channels ++ [w.chans.length], c < w.chans.length + 1 := by
        refine ⟨List.nodup_append'.2 ⟨h.nodup, List.nodup_singleton _, ?_⟩, fun c hc => ?_⟩
        · intro c hc hnew
          obtain rfl := List.mem_singleton.1 hnew
          exact Nat.lt_irrefl _ (h.known _ hc)
        · rcases List.mem_append.1 hc with hold | hnew
          · exact Nat.lt_succ_of_lt (h.known c hold)
          · obtain rfl := List.mem_singleton.1 hnew
            exact Nat.lt_succ_self _
      rw [hnew] at he
      simp only [bind, Except.bind] at he
      split_ifs at he
      · obtain rfl := Except.ok.inj he
        refine ⟨?_, fun c hc => ?_⟩
        · unfold World.tell
          dsimp only
          rw [notify_keeps_channels]
          exact hmembers.1
        · unfold World.tell at hc ⊢
          dsimp only at hc ⊢
          rw [notify_keeps_channels] at hc
          rw [List.length_append]
          exact hmembers.2 c hc
      · obtain rfl := Except.ok.inj he
        refine ⟨hmembers.1, fun c hc => ?_⟩
        dsimp only
        rw [List.length_append]
        exact hmembers.2 c hc

/-- **Every call** leaves different channels as members. -/
theorem Members.step {w w' : World κ α} {e : Event κ α} (h : Members w) (hs : World.step toKey e w = some w') :
    Members w' := by
  cases e with
  | channel k chancap keep =>
    rcases step_channel keep hs with rfl | ⟨r, he⟩
    · exact h
    · exact h.channel keep he
  | remove k keep =>
    obtain rfl := Option.some.inj hs
    have hfilter : ∀ c, (w.agg.channels.filter (· ≠ c)).Nodup ∧
        ∀ d ∈ w.agg.channels.filter (· ≠ c), d < w.chans.length :=
      fun c => ⟨h.nodup.filter _, fun d hd => h.known d (List.mem_filter.1 hd).1⟩
    unfold EventAggregator.remove Aggregator.invokeNotifiers World.tell
    dsimp only
    split
    · exact h
    · split_ifs <;> exact ⟨(hfilter _).1, (hfilter _).2⟩
  | use c u keep =>
    obtain ⟨chan, chan', n, r, -, -, rfl⟩ := step_use keep hs
    exact h.of_eq (deliver_keeps_channels keep _ n) List.length_set
  | addMonitor states =>
    obtain rfl := Option.some.inj hs
    unfold EventAggregator.addMonitor
    split_ifs <;> exact h.of_eq rfl rfl
  | close keep =>
    obtain rfl := Option.some.inj hs
    exact ⟨List.nodup_nil, nofun⟩

/-- **What is taken out** is what the members have. -/
theorem collect_queues (w : World κ α) {cs : List ℕ} (hnodup : cs.Nodup) (hknown : ∀ c ∈ cs, c < w.chans.length) :
    (collect toKey keep w cs).2 = cs.map fun c => (w.chans[c]?.map (·.msgs)).getD [] := by
  induction cs generalizing w with
  | nil => rfl
  | cons c cs ih =>
    obtain ⟨hnot, hrest⟩ := List.nodup_cons.1 hnodup
    have hlt := hknown c (List.mem_cons_self ..)
    have hchan : w.chans[c]? = some w.chans[c] := List.getElem?_eq_getElem hlt
    rw [collect, List.map_cons, hchan]
    refine congrArg₂ List.cons rfl ((ih _ hrest fun d hd => ?_).trans ?_)
    · exact (hknown d (List.mem_cons_of_mem _ hd)).trans_eq List.length_set.symm
    · refine List.map_congr_left fun d hd => ?_
      have hne : c ≠ d := by
        rintro rfl
        exact hnot hd
      exact congrArg (fun chan : Option (EventChannel UInt32 α) => (chan.map (·.msgs)).getD [])
        (List.getElem?_set_ne hne)

/-! ## Turns -/

omit [DecidableEq κ] in
/-- The events of every channel, with its number. -/
def labelled (qs : List (List α)) : List (List (ℕ × α)) := qs.mapIdx fun d queue => tag (d, queue)

/-- The events of every channel are there, in their order, and no others. -/
def Interleaves (qs : List (List α)) (l : List (ℕ × α)) : Prop :=
  ∀ d, (l.filter (·.1 = d)).map Prod.snd = (qs[d]?).getD []

/-- The numbers of events around the ring, from where the index stands. -/
def ringOf (idx : ℕ) (sizes : List ℕ) : List (ℕ × ℕ) := (sizes.mapIdx Prod.mk).rotate idx

omit [DecidableEq κ] in
theorem map_mapIdx {γ : Type} (f : ℕ → α → β) (g : β → γ) (l : List α) :
    (l.mapIdx f).map g = l.mapIdx fun d x => g (f d x) := by
  refine List.ext_getElem ?_ fun d h h' => ?_
  · rw [List.length_map, List.length_mapIdx, List.length_mapIdx]
  · rw [List.getElem_map, List.getElem_mapIdx, List.getElem_mapIdx]

omit [DecidableEq κ] in
theorem nodup_mapIdx (qs : List (List α)) : ((qs.mapIdx Prod.mk).map Prod.fst).Nodup := by
  have hrange : (qs.mapIdx Prod.mk).map Prod.fst = List.range qs.length := by
    rw [map_mapIdx]
    refine List.ext_getElem ?_ fun d h h' => ?_
    · rw [List.length_mapIdx, List.length_range]
    · rw [List.getElem_mapIdx, List.getElem_range]
  rw [hrange]
  exact List.nodup_range

omit [DecidableEq κ] in
/-- The queue with a number. -/
theorem queueOf_mapIdx (qs : List (List α)) (d : ℕ) : queueOf (qs.mapIdx Prod.mk) d = (qs[d]?).getD [] := by
  by_cases hd : d < qs.length
  · rw [List.getElem?_eq_getElem hd]
    exact queueOf_of_mem (nodup_mapIdx qs) (List.mem_mapIdx.2 ⟨d, hd, rfl⟩)
  · rw [List.getElem?_eq_none (Nat.le_of_not_lt hd), queueOf_eq_nil]
    · rfl
    · intro hmem
      obtain ⟨p, hp, rfl⟩ := List.mem_map.1 hmem
      obtain ⟨d', hd', rfl⟩ := List.mem_mapIdx.1 hp
      exact hd hd'

omit [DecidableEq κ] in
/-- The loop on the events with the numbers of their channels. -/
theorem roundRobin_labelled (idx : ℕ) (qs : List (List α)) :
    (roundRobin idx (labelled qs)).1 = served ((qs.mapIdx Prod.mk).rotate idx) := by
  rw [← roundRobin_served, map_mapIdx]
  rfl

omit [DecidableEq κ] in
theorem map_snd_labelled (idx : ℕ) (qs : List (List α)) :
    (roundRobin idx (labelled qs)).1.map Prod.snd = (roundRobin idx qs).1 := by
  have hqs : (labelled qs).map (List.map Prod.snd) = qs := by
    unfold labelled
    rw [map_mapIdx]
    refine List.ext_getElem List.length_mapIdx fun d h h' => ?_
    rw [List.getElem_mapIdx]
    unfold tag
    rw [List.map_map]
    exact List.map_id _
  conv_rhs => rw [← hqs, roundRobin_map]

omit [DecidableEq κ] in
theorem map_snd_ringOf (idx : ℕ) (sizes : List ℕ) : (ringOf idx sizes).map Prod.snd = sizes.rotate idx := by
  unfold ringOf
  rw [List.map_rotate, map_mapIdx]
  congr 1
  exact List.ext_getElem List.length_mapIdx fun d _ _ => List.getElem_mapIdx

omit [DecidableEq κ] in
/-- The ring of the numbers of events. -/
theorem ringOf_lengths (idx : ℕ) (qs : List (List α)) :
    ((qs.mapIdx Prod.mk).rotate idx).map (fun p => (p.1, p.2.length)) = ringOf idx (qs.map List.length) := by
  unfold ringOf
  rw [List.map_rotate, map_mapIdx]
  congr 1
  refine List.ext_getElem ?_ fun d hd hd' => ?_
  · rw [List.length_mapIdx, List.length_mapIdx, List.length_map]
  · rw [List.getElem_mapIdx, List.getElem_mapIdx, List.getElem_map]

/-- **The events of all members**: those that the loop gives for the events with the numbers of their channels. They
interleave the queues, and the index is left where the numbers of events lead it. The turns are fair where these numbers
are such that no channel loses a turn, and in any case exactly where none is left out by that. -/
theorem getAll_fair_of_turnsKept {w : World κ α} (h : Reaches (World.step toKey) Free World.start w) (idx : ℕ) :
    let l := (roundRobin idx (labelled (queues w))).1
    let sizes := (queues w).map List.length
    (getAll toKey keep idx w).2 = (l.map Prod.snd, Locking.finalIdx idx sizes) ∧ Interleaves (queues w) l ∧
      (TurnsKept (sizes.rotate idx) → Fair (l.map Prod.fst)) ∧
      (TurnsKept (sizes.rotate idx) ↔ NoneLost (turns (ringOf idx sizes))) ∧
      (Fair (l.map Prod.fst) ↔ NoneLeftOut (turns (ringOf idx sizes))) := by
  have hmembers : Members w := h.invariant (fun _ _ _ hi _ hs => hi.step hs) ⟨List.nodup_nil, nofun⟩
  have hcollect : (collect toKey keep w w.agg.channels).2 = queues w := collect_queues keep w hmembers.nodup hmembers.known
  have hnodup : (((queues w).mapIdx Prod.mk).rotate idx |>.map Prod.fst).Nodup := by
    rw [List.map_rotate, List.nodup_rotate]
    exact nodup_mapIdx _
  have hring : ((ringOf idx ((queues w).map List.length)).map Prod.fst).Nodup := by
    rw [← ringOf_lengths, List.map_map]
    exact hnodup
  dsimp only
  refine ⟨?_, fun d => ?_, ?_, ?_, ?_⟩
  · rw [map_snd_labelled, ← roundRobin_idx]
    unfold getAll
    split_ifs with hnone
    · unfold queues
      rw [hnone, List.map_nil, roundRobin_nil]
    · rw [← hcollect]
  · rw [roundRobin_labelled, filter_served hnodup, queueOf_rotate (nodup_mapIdx _), queueOf_mapIdx]
  · rw [roundRobin_labelled, map_fst_served, ringOf_lengths, ← map_snd_ringOf]
    exact fair_of_turnsKept hring
  · rw [← map_snd_ringOf]
    exact turnsKept_iff hring
  · rw [roundRobin_labelled, map_fst_served, ringOf_lengths]
    exact fair_iff hring

/-- Three channels, with the numbers of events `a`, `b` and `c`. -/
def threeChannels (a b c : ℕ) : List (Event UInt32 ℕ) :=
  ((List.range 3).map fun k => .channel (UInt32.ofNat k) 4 fun _ => true) ++
    [a, b, c].zipIdx.flatMap fun p => (List.range p.1).map fun i => .use p.2 (.tryPush (10 * (p.2 + 1) + i)) fun _ => true

/-- The last channel is passed over when it is the only one with events left. -/
theorem getAll_fair_of_turnsKept_three : ∃ w : World UInt32 ℕ,
    (getAll id (fun _ => true) 0 w).2.1 = [10, 20, 30, 11, 31, 32] ∧
      Fair ((roundRobin 0 (labelled (queues w))).1.map Prod.fst) := by
  obtain ⟨w, hreach, hevents, hsizes⟩ : ∃ w : World UInt32 ℕ, Reaches (World.step id) Free World.start w ∧
      (getAll id (fun _ => true) 0 w).2.1 = [10, 20, 30, 11, 31, 32] ∧ (queues w).map List.length = [2, 1, 3] :=
    exists_of_events (threeChannels 2 1 3) (by decide +kernel)
  refine ⟨w, hevents, (getAll_fair_of_turnsKept (fun _ => true) hreach 0).2.2.1 ?_⟩
  rw [hsizes]
  decide

/-- **A channel gives two events in a row**, 11 and 12, while another one still has 31: that one is passed over when
the channel before it is erased. -/
theorem getAll_unfair : ∃ w : World UInt32 ℕ, Reaches (World.step id) Free World.start w ∧
    (getAll id (fun _ => true) 0 w).2.1 = [10, 20, 30, 11, 12, 31] ∧
    ¬Fair ((roundRobin 0 (labelled (queues w))).1.map Prod.fst) := by
  obtain ⟨w, hreach, hevents, hlabels⟩ : ∃ w : World UInt32 ℕ, Reaches (World.step id) Free World.start w ∧
      (getAll id (fun _ => true) 0 w).2.1 = [10, 20, 30, 11, 12, 31] ∧
        (roundRobin 0 (labelled (queues w))).1.map Prod.fst = [0, 1, 2, 0, 0, 2] :=
    exists_of_events (threeChannels 3 1 2) (by decide +kernel)
  refine ⟨w, hreach, hevents, fun hfair => ?_⟩
  rw [hlabels] at hfair
  have hone := hfair [0, 1, 2] 0 [] [2] rfl List.not_mem_nil 2 (by decide) (List.mem_cons_self ..)
  cases hone

end Libtarp.EventAggregator
