import Libtarp.Channel.Rendezvous

/-!
# Every interleaving of calls on a trunk

`System.outcome` is what a call has returned, or returns at its next wake-up because its
operation is done. Read this way a step of the trunk is at most two steps of the ledger.

* `Inv`: who is in a queue waits and is not done; a closed trunk has empty queues; one of the
  two queues is always empty.
* `step_spec`: one event keeps `Inv` and follows the ledger.
* `rendezvous`: what holds in every state of every interleaving.
-/

namespace Libtarp.Unbuffered

open Function Lib Relation

variable {ι α : Type} [DecidableEq ι] {s s' : System ι α} {t u : ι} {x : α}

/-- What the call has returned, or returns as soon as it wakes up. -/
def System.outcome (s : System ι α) (t : ι) : Option (Answer ι α) :=
  match s.stage t with
  | .idle => none
  | .sending _ => if (s.chan.op t).done then some (.pushed true none) else none
  | .receiving _ => if (s.chan.op t).done then some (.got (s.chan.op t).data) else none
  | .returned a => some a

def System.ledger (s : System ι α) : Ledger ι α := ⟨s.input, s.outcome⟩

/-- The invariant of a trunk and its calls. -/
structure Inv (s : System ι α) : Prop where
  closed : s.chan.closed = true → s.chan.sendWaitq = [] ∧ s.chan.recvWaitq = []
  single : s.chan.sendWaitq = [] ∨ s.chan.recvWaitq = []
  sendLine : s.senders.waiting = s.chan.sendWaitq
  recvLine : s.receivers.waiting = s.chan.recvWaitq
  sendFair : s.senders.Fair
  recvFair : s.receivers.Fair
  sender : ∀ t ∈ s.chan.sendWaitq, (∃ d, s.stage t = .sending d) ∧ (s.chan.op t).done = false
  receiver : ∀ t ∈ s.chan.recvWaitq, (∃ d, s.stage t = .receiving d) ∧ (s.chan.op t).done = false
  sending : ∀ t d, s.stage t = .sending d → ∃ x, s.input t = some x ∧ (s.chan.op t).data = some ⟨t, x⟩
  idle : ∀ t, s.stage t = .idle → s.input t = none ∧ t ∉ s.senders.joined ∧ t ∉ s.receivers.joined

omit [DecidableEq ι] in
theorem inv_start : Inv (start : System ι α) where
  closed := fun h => by cases h
  single := .inl rfl
  sendLine := rfl
  recvLine := rfl
  sendFair := ⟨List.Sublist.refl _, List.nodup_nil⟩
  recvFair := ⟨List.Sublist.refl _, List.nodup_nil⟩
  sender := fun t h => by cases h
  receiver := fun t h => by cases h
  sending := fun t d h => by cases h
  idle := fun t _ => ⟨rfl, by simp [start], by simp [start]⟩

omit [DecidableEq ι] in
/-- A call that is not waiting is in no queue. -/
theorem Inv.not_queued (h : Inv s) (hs : ∀ d, s.stage t ≠ .sending d) (hr : ∀ d, s.stage t ≠ .receiving d) :
    t ∉ s.chan.sendWaitq ∧ t ∉ s.chan.recvWaitq := by
  constructor
  · intro ht
    obtain ⟨⟨d, hd⟩, -⟩ := h.sender t ht
    exact hs d hd
  · intro ht
    obtain ⟨⟨d, hd⟩, -⟩ := h.receiver t ht
    exact hr d hd

omit [DecidableEq ι] in
theorem Inv.nodup (h : Inv s) : s.chan.sendWaitq.Nodup ∧ s.chan.recvWaitq.Nodup :=
  ⟨h.sendLine ▸ h.sendFair.nodup_waiting, h.recvLine ▸ h.recvFair.nodup_waiting⟩

theorem outcome_move_self (g : Stage ι α) : (s.move t g).outcome t =
    match g with
    | .idle => none
    | .sending _ => if (s.chan.op t).done then some (.pushed true none) else none
    | .receiving _ => if (s.chan.op t).done then some (.got (s.chan.op t).data) else none
    | .returned a => some a := by
  unfold System.outcome System.move
  simp only [update_self]

theorem outcome_move_of_ne (g : Stage ι α) (h : u ≠ t) : (s.move t g).outcome u = s.outcome u := by
  unfold System.outcome System.move
  simp only [update_of_ne h]

/-- Where an operation is not touched the outcome stays. -/
theorem outcome_become {c : Trunk ι α} (h : c.op u = s.chan.op u) : (s.become c).outcome u = s.outcome u := by
  unfold System.outcome System.become
  simp only [h]

omit [DecidableEq ι] in
theorem servedBetween_eq_false {c c' : Trunk ι α} {i : ι} (h : c'.op i = c.op i) : servedBetween c c' i = false := by
  unfold servedBetween
  rw [h]
  exact Bool.not_and_self _

/-- Nothing happens to the trunk. -/
theorem Inv.become_self (h : Inv s) : s.become s.chan = s := by
  have hnone : servedBetween s.chan s.chan = fun _ => false := funext fun i => servedBetween_eq_false rfl
  have hadv : ∀ l : Line ι, l.advance l.waiting (fun _ => false) = l := by
    intro l
    unfold Line.advance
    have hj : l.waiting.filter (· ∉ l.waiting) = [] := List.filter_eq_nil_iff.2 (by simp)
    rw [hj, List.filter_false]
    simp only [List.append_nil]
  unfold System.become
  rw [hnone, ← h.sendLine, ← h.recvLine, hadv, hadv]

/-! ## Calls that go on without touching the trunk -/

/-- A call in no queue returns. -/
theorem Inv.returned (h : Inv s) (ht : t ∉ s.chan.sendWaitq ∧ t ∉ s.chan.recvWaitq) (a : Answer ι α) :
    Inv (s.move t (.returned a)) := by
  refine ⟨h.closed, h.single, h.sendLine, h.recvLine, h.sendFair, h.recvFair, ?_, ?_, ?_, ?_⟩
  · intro u hu
    have hut : u ≠ t := fun he => ht.1 (he ▸ hu)
    show (∃ d, update s.stage t _ u = _) ∧ _
    rw [update_of_ne hut]
    exact h.sender u hu
  · intro u hu
    have hut : u ≠ t := fun he => ht.2 (he ▸ hu)
    show (∃ d, update s.stage t _ u = _) ∧ _
    rw [update_of_ne hut]
    exact h.receiver u hu
  · intro u d hu
    have hut : u ≠ t := by
      rintro rfl
      cases (update_self u _ s.stage).symm.trans hu
    exact h.sending u d ((update_of_ne hut _ _).symm.trans hu)
  · intro u hu
    have hut : u ≠ t := by
      rintro rfl
      cases (update_self u _ s.stage).symm.trans hu
    exact h.idle u ((update_of_ne hut _ _).symm.trans hu)

/-- What a call was given is noted when it is not idle any more. -/
theorem Inv.give (h : Inv s) {a : Answer ι α} (ht : s.stage t = .returned a) (x : α) : Inv (s.give t x) := by
  refine ⟨h.closed, h.single, h.sendLine, h.recvLine, h.sendFair, h.recvFair, h.sender, h.receiver, ?_, ?_⟩
  · intro u d hu
    have hut : u ≠ t := by
      rintro rfl
      cases hu.symm.trans ht
    obtain ⟨y, hy, hd⟩ := h.sending u d hu
    exact ⟨y, (update_of_ne hut _ _).trans hy, hd⟩
  · intro u hu
    have hut : u ≠ t := by
      rintro rfl
      cases hu.symm.trans ht
    obtain ⟨hi, hj⟩ := h.idle u hu
    exact ⟨(update_of_ne hut _ _).trans hi, hj⟩

/-! ## A rendezvous -/

/-- **The first receiver is served.** -/
theorem Inv.pass (h : Inv s) {r : ι} {q : List ι} (hq : s.chan.recvWaitq = r :: q) (v : Value ι α) :
    Inv (s.become (passData s.chan v)) ∧
      passData s.chan v = { s.chan with recvWaitq := q, op := update s.chan.op r ⟨some v, true⟩ } := by
  have hc : passData s.chan v = { s.chan with recvWaitq := q, op := update s.chan.op r ⟨some v, true⟩ } := by
    unfold passData
    rw [hq]
  refine ⟨?_, hc⟩
  rw [hc]
  -- only one of the two queues is ever occupied, so no sender is waiting
  have hempty : s.chan.sendWaitq = [] := h.single.resolve_right (by rw [hq]; exact List.cons_ne_nil r q)
  have hrq : r ∉ q := (List.nodup_cons.1 (hq ▸ h.nodup.2)).1
  obtain ⟨⟨d, hd⟩, hdone⟩ := h.receiver r (by rw [hq]; exact List.mem_cons_self ..)
  set c : Trunk ι α := { s.chan with recvWaitq := q, op := update s.chan.op r ⟨some v, true⟩ }
  have hother : ∀ i, i ≠ r → c.op i = s.chan.op i := fun i hi => update_of_ne hi _ _
  have hserved : servedBetween s.chan c r = true := by
    unfold servedBetween
    rw [hdone, show c.op r = ⟨some v, true⟩ from update_self ..]
    rfl
  obtain ⟨hsf, hsj⟩ := h.sendFair.leave (List.Sublist.refl s.senders.waiting) (servedBetween s.chan c)
    (by rw [h.sendLine, hempty]; simp)
  obtain ⟨hrf, hrj⟩ := h.recvFair.serve (h.recvLine.trans hq) (servedBetween s.chan c) hserved
    fun j hj => servedBetween_eq_false (hother j fun he => hrq (he ▸ hj))
  rw [h.sendLine] at hsf hsj
  refine ⟨fun hcl => ?_, .inl hempty, rfl, rfl, hsf, hrf, ?_, ?_, ?_, ?_⟩
  · exact absurd ((h.closed hcl).2.symm.trans hq) (by simp)
  · intro u hu
    exact absurd (show u ∈ s.chan.sendWaitq from hu) (by simp [hempty])
  · intro u hu
    have hur : u ≠ r := fun he => hrq (he ▸ hu)
    obtain ⟨hst, hnot⟩ := h.receiver u (by rw [hq]; exact List.mem_cons_of_mem r hu)
    exact ⟨hst, (congrArg Operation.done (hother u hur)).trans hnot⟩
  · intro u d' hu
    have hur : u ≠ r := by
      rintro rfl
      cases hd.symm.trans hu
    obtain ⟨x, hx, hdata⟩ := h.sending u d' hu
    exact ⟨x, hx, (congrArg Operation.data (hother u hur)).trans hdata⟩
  · intro u hu
    obtain ⟨hi, h1, h2⟩ := h.idle u hu
    exact ⟨hi, fun hm => h1 (hsj ▸ hm), fun hm => h2 (hrj ▸ hm)⟩

/-- **The first sender is served.** -/
theorem Inv.take (h : Inv s) {u : ι} {q : List ι} (hq : s.chan.sendWaitq = u :: q) :
    Inv (s.become (getData s.chan).1) ∧ getData s.chan =
      ({ s.chan with sendWaitq := q, op := update s.chan.op u ⟨(s.chan.op u).data, true⟩ }, (s.chan.op u).data) := by
  have hc : getData s.chan =
      ({ s.chan with sendWaitq := q, op := update s.chan.op u ⟨(s.chan.op u).data, true⟩ }, (s.chan.op u).data) := by
    unfold getData
    rw [hq]
  refine ⟨?_, hc⟩
  rw [hc]
  -- only one of the two queues is ever occupied, so no receiver is waiting
  have hempty : s.chan.recvWaitq = [] := h.single.resolve_left (by rw [hq]; exact List.cons_ne_nil u q)
  have huq : u ∉ q := (List.nodup_cons.1 (hq ▸ h.nodup.1)).1
  obtain ⟨-, hdone⟩ := h.sender u (by rw [hq]; exact List.mem_cons_self ..)
  set c : Trunk ι α := { s.chan with sendWaitq := q, op := update s.chan.op u ⟨(s.chan.op u).data, true⟩ }
  have hat : c.op u = ⟨(s.chan.op u).data, true⟩ := update_self ..
  have hother : ∀ i, i ≠ u → c.op i = s.chan.op i := fun i hi => update_of_ne hi _ _
  have hserved : servedBetween s.chan c u = true := by
    unfold servedBetween
    rw [hdone, hat]
    rfl
  -- the receivers' line stays as it is, and the senders' is served at its head
  obtain ⟨hrf, hrj⟩ := h.recvFair.leave (List.Sublist.refl s.receivers.waiting) (servedBetween s.chan c)
    (by rw [h.recvLine, hempty]; simp)
  obtain ⟨hsf, hsj⟩ := h.sendFair.serve (h.sendLine.trans hq) (servedBetween s.chan c) hserved
    fun j hj => servedBetween_eq_false (hother j fun he => huq (he ▸ hj))
  rw [h.recvLine] at hrf hrj
  refine ⟨fun hcl => ?_, .inr hempty, rfl, rfl, hsf, hrf, ?_, ?_, ?_, ?_⟩
  · exact absurd ((h.closed hcl).1.symm.trans hq) (by simp)
  · intro i hi
    have hiu : i ≠ u := fun he => huq (he ▸ hi)
    obtain ⟨hst, hnot⟩ := h.sender i (by rw [hq]; exact List.mem_cons_of_mem u hi)
    exact ⟨hst, (congrArg Operation.done (hother i hiu)).trans hnot⟩
  · intro i hi
    exact absurd (show i ∈ s.chan.recvWaitq from hi) (by simp [hempty])
  · intro i d hi
    obtain ⟨x, hx, hdata⟩ := h.sending i d hi
    refine ⟨x, hx, ?_⟩
    by_cases hiu : i = u
    · rw [hiu] at hdata ⊢
      exact (congrArg Operation.data hat).trans hdata
    · exact (congrArg Operation.data (hother i hiu)).trans hdata
  · intro i hi
    obtain ⟨hin, h1, h2⟩ := h.idle i hi
    exact ⟨hin, fun hm => h1 (hsj ▸ hm), fun hm => h2 (hrj ▸ hm)⟩

/-! ## Joining and leaving a queue -/

/-- **A sender joins its queue.** -/
theorem Inv.joinSender (h : Inv s) (ht : s.stage t = .idle) (hcl : s.chan.closed = false)
    (hempty : s.chan.recvWaitq = []) (x : α) (d : Bool) :
    Inv (((s.give t x).become (addSender s.chan t ⟨t, x⟩)).move t (.sending d)) := by
  obtain ⟨-, hns, hnr⟩ := h.idle t ht
  have hnq := (h.not_queued (t := t) (by simp [ht]) (by simp [ht])).1
  -- nobody receives, so the sender goes to the end of its line, and no other operation changes
  set c := addSender s.chan t ⟨t, x⟩
  have hat : c.op t = ⟨some ⟨t, x⟩, false⟩ := update_self ..
  have hother : ∀ i, i ≠ t → c.op i = s.chan.op i := fun i hi => update_of_ne hi _ _
  obtain ⟨hsf, hsj⟩ := h.sendFair.join hns fun i hi =>
    servedBetween_eq_false (hother i fun he => hnq (he ▸ h.sendLine ▸ hi))
  obtain ⟨hrf, hrj⟩ := h.recvFair.leave (List.Sublist.refl s.receivers.waiting) (servedBetween s.chan c)
    (by rw [h.recvLine, hempty]; simp)
  rw [h.sendLine] at hsf hsj
  rw [h.recvLine] at hrf hrj
  refine ⟨fun hcl' => absurd (hcl.symm.trans hcl') (by simp), .inr hempty, rfl, rfl, hsf, hrf, ?_, ?_, ?_, ?_⟩
  · intro i hi
    rcases List.mem_append.1 hi with hi | hi
    · have hit : i ≠ t := fun he => hnq (he ▸ hi)
      obtain ⟨⟨d', hd'⟩, hnot⟩ := h.sender i hi
      exact ⟨⟨d', (update_of_ne hit _ _).trans hd'⟩, (congrArg Operation.done (hother i hit)).trans hnot⟩
    · obtain rfl := List.mem_singleton.1 hi
      exact ⟨⟨d, update_self ..⟩, congrArg Operation.done hat⟩
  · intro i hi
    exact absurd (show i ∈ s.chan.recvWaitq from hi) (by simp [hempty])
  · intro i d' hi
    by_cases hit : i = t
    · subst hit
      exact ⟨x, update_self .., congrArg Operation.data hat⟩
    · obtain ⟨y, hy, hdata⟩ := h.sending i d' ((update_of_ne hit _ _).symm.trans hi)
      exact ⟨y, (update_of_ne hit _ _).trans hy, (congrArg Operation.data (hother i hit)).trans hdata⟩
  · intro i hi
    have hit : i ≠ t := by
      rintro rfl
      cases (update_self i _ _).symm.trans hi
    obtain ⟨hin, h1, h2⟩ := h.idle i ((update_of_ne hit _ _).symm.trans hi)
    refine ⟨(update_of_ne hit _ _).trans hin, fun hm => ?_, fun hm => h2 (hrj ▸ hm)⟩
    rcases List.mem_append.1 (hsj ▸ hm) with hm | hm
    · exact h1 hm
    · exact hit (List.mem_singleton.1 hm)

/-- **A receiver joins its queue.** -/
theorem Inv.joinReceiver (h : Inv s) (ht : s.stage t = .idle) (hcl : s.chan.closed = false)
    (hempty : s.chan.sendWaitq = []) (d : Bool) :
    Inv ((s.become (addReceiver s.chan t)).move t (.receiving d)) := by
  obtain ⟨-, hns, hnr⟩ := h.idle t ht
  have hnq := (h.not_queued (t := t) (by simp [ht]) (by simp [ht])).2
  -- nobody sends, so the receiver goes to the end of its line, and no other operation changes
  set c := addReceiver s.chan t
  have hat : c.op t = ⟨none, false⟩ := update_self ..
  have hother : ∀ i, i ≠ t → c.op i = s.chan.op i := fun i hi => update_of_ne hi _ _
  obtain ⟨hrf, hrj⟩ := h.recvFair.join hnr fun i hi =>
    servedBetween_eq_false (hother i fun he => hnq (he ▸ h.recvLine ▸ hi))
  obtain ⟨hsf, hsj⟩ := h.sendFair.leave (List.Sublist.refl s.senders.waiting) (servedBetween s.chan c)
    (by rw [h.sendLine, hempty]; simp)
  rw [h.recvLine] at hrf hrj
  rw [h.sendLine] at hsf hsj
  refine ⟨fun hcl' => absurd (hcl.symm.trans hcl') (by simp), .inl hempty, rfl, rfl, hsf, hrf, ?_, ?_, ?_, ?_⟩
  · intro i hi
    exact absurd (show i ∈ s.chan.sendWaitq from hi) (by simp [hempty])
  · intro i hi
    rcases List.mem_append.1 hi with hi | hi
    · have hit : i ≠ t := fun he => hnq (he ▸ hi)
      obtain ⟨⟨d', hd'⟩, hnot⟩ := h.receiver i hi
      exact ⟨⟨d', (update_of_ne hit _ _).trans hd'⟩, (congrArg Operation.done (hother i hit)).trans hnot⟩
    · obtain rfl := List.mem_singleton.1 hi
      exact ⟨⟨d, update_self ..⟩, congrArg Operation.done hat⟩
  · intro i d' hi
    have hit : i ≠ t := by
      rintro rfl
      cases (update_self i _ _).symm.trans hi
    obtain ⟨y, hy, hdata⟩ := h.sending i d' ((update_of_ne hit _ _).symm.trans hi)
    exact ⟨y, hy, (congrArg Operation.data (hother i hit)).trans hdata⟩
  · intro i hi
    have hit : i ≠ t := by
      rintro rfl
      cases (update_self i _ _).symm.trans hi
    obtain ⟨hin, h1, h2⟩ := h.idle i ((update_of_ne hit _ _).symm.trans hi)
    refine ⟨hin, fun hm => h1 (hsj ▸ hm), fun hm => ?_⟩
    rcases List.mem_append.1 (hrj ▸ hm) with hm | hm
    · exact h2 hm
    · exact hit (List.mem_singleton.1 hm)

/-- Waiting calls leave the queues unserved, all of them where the trunk is closed. -/
theorem Inv.dequeue (h : Inv s) {c : Trunk ι α} (hop : c.op = s.chan.op)
    (hs : c.sendWaitq.Sublist s.chan.sendWaitq) (hr : c.recvWaitq.Sublist s.chan.recvWaitq)
    (hcl : c.closed = true → c.sendWaitq = [] ∧ c.recvWaitq = []) : Inv (s.become c) := by
  have hnone : ∀ i, servedBetween s.chan c i = false := fun i => servedBetween_eq_false (by rw [hop])
  obtain ⟨hsf, hsj⟩ := h.sendFair.leave (h.sendLine ▸ hs) _ fun i _ => hnone i
  obtain ⟨hrf, hrj⟩ := h.recvFair.leave (h.recvLine ▸ hr) _ fun i _ => hnone i
  refine ⟨hcl, ?_, rfl, rfl, hsf, hrf, ?_, ?_, ?_, ?_⟩
  · rcases h.single with h0 | h0
    · exact .inl (List.sublist_nil.1 (h0 ▸ hs))
    · exact .inr (List.sublist_nil.1 (h0 ▸ hr))
  · intro u hu
    obtain ⟨hst, hnot⟩ := h.sender u (hs.subset hu)
    exact ⟨hst, by rw [← hnot, ← hop]; rfl⟩
  · intro u hu
    obtain ⟨hst, hnot⟩ := h.receiver u (hr.subset hu)
    exact ⟨hst, by rw [← hnot, ← hop]; rfl⟩
  · intro u d hu
    obtain ⟨x, hx, hdata⟩ := h.sending u d hu
    exact ⟨x, hx, by rw [← hdata, ← hop]; rfl⟩
  · intro u hu
    obtain ⟨hi, h1, h2⟩ := h.idle u hu
    exact ⟨hi, fun hm => h1 (hsj ▸ hm), fun hm => h2 (hrj ▸ hm)⟩

/-! ## The ledger -/

theorem outcome_returned (a : Answer ι α) : (s.move t (.returned a)).outcome = update s.outcome t (some a) := by
  funext u
  by_cases hu : u = t
  · rw [hu, outcome_move_self, update_self]
  · rw [outcome_move_of_ne _ hu, update_of_ne hu]

omit [DecidableEq ι] in
theorem Inv.outcome_sender (h : Inv s) (ht : t ∈ s.chan.sendWaitq) : s.outcome t = none := by
  obtain ⟨⟨d, hd⟩, hnot⟩ := h.sender t ht
  unfold System.outcome
  simp only [hd, hnot]
  rfl

omit [DecidableEq ι] in
theorem Inv.outcome_receiver (h : Inv s) (ht : t ∈ s.chan.recvWaitq) : s.outcome t = none := by
  obtain ⟨⟨d, hd⟩, hnot⟩ := h.receiver t ht
  unfold System.outcome
  simp only [hd, hnot]
  rfl

omit [DecidableEq ι] in
theorem outcome_idle (ht : s.stage t = .idle) : s.outcome t = none := by
  unfold System.outcome
  rw [ht]

theorem Inv.outcome_pass (h : Inv s) {r : ι} {q : List ι} (hq : s.chan.recvWaitq = r :: q) (v : Value ι α) :
    (s.become (passData s.chan v)).outcome = update s.outcome r (some (.got (some v))) := by
  obtain ⟨⟨d, hd⟩, -⟩ := h.receiver r (by rw [hq]; exact List.mem_cons_self ..)
  have hop : (passData s.chan v).op = update s.chan.op r ⟨some v, true⟩ := by rw [(h.pass hq v).2]
  funext u
  by_cases hu : u = r
  · have hat : (passData s.chan v).op r = ⟨some v, true⟩ := by rw [hop, update_self]
    rw [hu, update_self]
    unfold System.outcome System.become
    simp only [hd, hat]
    rfl
  · rw [outcome_become (by rw [hop, update_of_ne hu]), update_of_ne hu]

theorem Inv.outcome_take (h : Inv s) {q : List ι} (hq : s.chan.sendWaitq = u :: q) :
    (s.become (getData s.chan).1).outcome = update s.outcome u (some (.pushed true none)) := by
  obtain ⟨⟨d, hd⟩, -⟩ := h.sender u (by rw [hq]; exact List.mem_cons_self ..)
  have hop : (getData s.chan).1.op = update s.chan.op u ⟨(s.chan.op u).data, true⟩ := by rw [(h.take hq).2]
  funext i
  by_cases hi : i = u
  · have hat : (getData s.chan).1.op u = ⟨(s.chan.op u).data, true⟩ := by rw [hop, update_self]
    rw [hi, update_self]
    unfold System.outcome System.become
    simp only [hd, hat]
    rfl
  · rw [outcome_become (by rw [hop, update_of_ne hi]), update_of_ne hi]

/-! ## One event -/

/-- The step keeps the invariant and follows the ledger. -/
def Follows (s s' : System ι α) : Prop := Inv s' ∧ ReflTransGen Ledger.Step s.ledger s'.ledger

/-- A new call that sends is refused. -/
theorem Inv.refuse_spec (h : Inv s) (ht : s.stage t = .idle) (x : α) :
    Follows s (((s.give t x).become s.chan).move t (.returned (.pushed false (some ⟨t, x⟩)))) := by
  have hinv := h.returned (h.not_queued (t := t) (by simp [ht]) (by simp [ht])) (.pushed false (some ⟨t, x⟩))
  have heq : ((s.give t x).become s.chan).move t (.returned (.pushed false (some ⟨t, x⟩))) =
      (s.move t (.returned (.pushed false (some ⟨t, x⟩)))).give t x :=
    congrArg (fun s => System.give s t x) hinv.become_self
  rw [heq]
  refine ⟨hinv.give (update_self ..) x, ?_⟩
  have hgive : Ledger.Step s.ledger ⟨update s.input t (some x), s.outcome⟩ :=
    .give t x (h.idle t ht).1 (outcome_idle ht)
  refine .tail (.single hgive) ?_
  have hout : ((s.move t (.returned (.pushed false (some ⟨t, x⟩)))).give t x).ledger =
      ⟨update s.input t (some x), update s.outcome t (some (.pushed false (some ⟨t, x⟩)))⟩ :=
    Ledger.ext rfl (outcome_returned _)
  rw [hout]
  exact .refuse t x (update_self ..) (outcome_idle ht)

/-- **A new call passes its value to a receiver that waits.** -/
theorem Inv.pass_spec (h : Inv s) (ht : s.stage t = .idle) (hne : s.chan.recvWaitq ≠ []) (x : α) :
    Follows s (((s.give t x).become (passData s.chan ⟨t, x⟩)).move t (.returned (.pushed true none))) := by
  obtain ⟨r, q, hq⟩ := List.exists_cons_of_ne_nil hne
  have hr : r ∈ s.chan.recvWaitq := by rw [hq]; exact List.mem_cons_self ..
  have hnq := h.not_queued (t := t) (by simp [ht]) (by simp [ht])
  have htr : t ≠ r := fun he => hnq.2 (he ▸ hr)
  have hinv : Inv ((s.move t (.returned (.pushed true none))).give t x) :=
    (h.returned hnq _).give (update_self ..) x
  refine ⟨(hinv.pass hq ⟨t, x⟩).1, ?_⟩
  have hgive : Ledger.Step s.ledger ⟨update s.input t (some x), s.outcome⟩ :=
    .give t x (h.idle t ht).1 (outcome_idle ht)
  refine .tail (.single hgive) ?_
  have hout : (((s.give t x).become (passData s.chan ⟨t, x⟩)).move t (.returned (.pushed true none))).ledger =
      ⟨update s.input t (some x), update (update s.outcome t (some (.pushed true none))) r
        (some (.got (some ⟨t, x⟩)))⟩ := by
    refine Ledger.ext rfl ?_
    refine (hinv.outcome_pass hq ⟨t, x⟩).trans ?_
    exact congrArg (fun o => update o r _) (outcome_returned _)
  rw [hout]
  exact .exchange t r x (update_self ..) (outcome_idle ht) (h.outcome_receiver hr) htr

/-- **A new call takes the value of a sender that waits.** -/
theorem Inv.take_spec (h : Inv s) (ht : s.stage t = .idle) (hne : s.chan.sendWaitq ≠ []) :
    Follows s ((s.become (getData s.chan).1).move t (.returned (.got (getData s.chan).2))) := by
  obtain ⟨u, q, hq⟩ := List.exists_cons_of_ne_nil hne
  have hu : u ∈ s.chan.sendWaitq := by rw [hq]; exact List.mem_cons_self ..
  have hnq := h.not_queued (t := t) (by simp [ht]) (by simp [ht])
  have hut : u ≠ t := fun he => hnq.1 (he ▸ hu)
  have hinv : Inv (s.move t (.returned (.got (getData s.chan).2))) := h.returned hnq _
  refine ⟨(hinv.take hq).1, ?_⟩
  obtain ⟨⟨d, hd⟩, -⟩ := h.sender u hu
  obtain ⟨x, hx, hdata⟩ := h.sending u d hd
  have hgot : (getData s.chan).2 = some ⟨u, x⟩ := by rw [(h.take hq).2]; exact hdata
  have hout : ((s.become (getData s.chan).1).move t (.returned (.got (getData s.chan).2))).ledger =
      ⟨s.input, update (update s.outcome u (some (.pushed true none))) t (some (.got (some ⟨u, x⟩)))⟩ := by
    refine Ledger.ext rfl ?_
    refine (hinv.outcome_take hq).trans ?_
    rw [outcome_returned, hgot, update_comm hut.symm]
  rw [hout]
  exact .single (.exchange u t x hx (h.outcome_sender hu) (outcome_idle ht) hut)

/-- A new call that receives has nothing to receive. -/
theorem Inv.miss_spec (h : Inv s) (ht : s.stage t = .idle) :
    Follows s ((s.become s.chan).move t (.returned (.got none))) := by
  rw [h.become_self]
  refine ⟨h.returned (h.not_queued (by simp [ht]) (by simp [ht])) _, ?_⟩
  have hout : (s.move t (.returned (.got none))).ledger = ⟨s.input, update s.outcome t (some (.got none))⟩ :=
    Ledger.ext rfl (outcome_returned _)
  rw [hout]
  exact .single (.miss t (outcome_idle ht))

theorem Inv.joinSender_spec (h : Inv s) (ht : s.stage t = .idle) (hcl : s.chan.closed = false)
    (hempty : s.chan.recvWaitq = []) (x : α) (d : Bool) :
    Follows s (((s.give t x).become (addSender s.chan t ⟨t, x⟩)).move t (.sending d)) := by
  refine ⟨h.joinSender ht hcl hempty x d, ?_⟩
  have hout : (((s.give t x).become (addSender s.chan t ⟨t, x⟩)).move t (.sending d)).ledger =
      ⟨update s.input t (some x), s.outcome⟩ := by
    refine Ledger.ext rfl (funext fun u => ?_)
    by_cases hu : u = t
    · have hat : (addSender s.chan t ⟨t, x⟩).op t = ⟨some ⟨t, x⟩, false⟩ := update_self ..
      show System.outcome _ u = s.outcome u
      rw [hu, outcome_idle ht, outcome_move_self]
      simp only [System.become, hat]
      rfl
    · show System.outcome _ u = s.outcome u
      rw [outcome_move_of_ne _ hu, outcome_become (update_of_ne hu _ _)]
      rfl
  rw [hout]
  exact .single (.give t x (h.idle t ht).1 (outcome_idle ht))

theorem Inv.joinReceiver_spec (h : Inv s) (ht : s.stage t = .idle) (hcl : s.chan.closed = false)
    (hempty : s.chan.sendWaitq = []) (d : Bool) :
    Follows s ((s.become (addReceiver s.chan t)).move t (.receiving d)) := by
  refine ⟨h.joinReceiver ht hcl hempty d, ?_⟩
  have hout : ((s.become (addReceiver s.chan t)).move t (.receiving d)).ledger = s.ledger := by
    refine Ledger.ext rfl (funext fun u => ?_)
    by_cases hu : u = t
    · have hat : (addReceiver s.chan t).op t = ⟨none, false⟩ := update_self ..
      show System.outcome _ u = s.outcome u
      rw [hu, outcome_idle ht, outcome_move_self]
      simp only [System.become, hat]
      rfl
    · show System.outcome _ u = s.outcome u
      rw [outcome_move_of_ne _ hu, outcome_become (update_of_ne hu _ _)]
  rw [hout]

/-- A call that waits goes on waiting. -/
theorem Inv.stay_spec (h : Inv s) {g : Stage ι α} (ht : s.stage t = g) : Follows s ((s.become s.chan).move t g) := by
  have heq : (s.become s.chan).move t g = s := by
    rw [h.become_self]
    unfold System.move
    rw [← ht, update_eq_self]
  rw [heq]
  exact ⟨h, .refl⟩

/-- A call whose operation is done returns what was decided before. -/
theorem Inv.done_spec (h : Inv s) {a : Answer ι α} (hdone : (s.chan.op t).done = true)
    (ha : s.outcome t = some a) : Follows s ((s.become s.chan).move t (.returned a)) := by
  rw [h.become_self]
  have hnq : t ∉ s.chan.sendWaitq ∧ t ∉ s.chan.recvWaitq := by
    constructor
    · intro ht
      exact absurd (hdone.symm.trans (h.sender t ht).2) (by simp)
    · intro ht
      exact absurd (hdone.symm.trans (h.receiver t ht).2) (by simp)
  refine ⟨h.returned hnq a, ?_⟩
  have hout : (s.move t (.returned a)).ledger = s.ledger := by
    refine Ledger.ext rfl ?_
    refine (outcome_returned a).trans ?_
    rw [← ha, update_eq_self]
    rfl
  rw [hout]

/-- A sender that waited gives up, for a deadline or because the trunk is closed. -/
theorem Inv.giveUp_sender (h : Inv s) {d : Bool} (ht : s.stage t = .sending d) (hnot : (s.chan.op t).done = false)
    {c : Trunk ι α} (hop : c.op = s.chan.op) (hs : c.sendWaitq.Sublist s.chan.sendWaitq)
    (hr : c.recvWaitq.Sublist s.chan.recvWaitq)
    (hcl : c.closed = true → c.sendWaitq = [] ∧ c.recvWaitq = []) (htc : t ∉ c.sendWaitq) :
    Follows s ((s.become c).move t (.returned (.pushed false (s.chan.op t).data))) := by
  have htr : t ∉ c.recvWaitq := by
    intro hm
    obtain ⟨⟨d', hd'⟩, -⟩ := h.receiver t (hr.subset hm)
    cases ht.symm.trans hd'
  refine ⟨(h.dequeue hop hs hr hcl).returned ⟨htc, htr⟩ _, ?_⟩
  obtain ⟨x, hx, hdata⟩ := h.sending t d ht
  have hout : ((s.become c).move t (.returned (.pushed false (s.chan.op t).data))).ledger =
      ⟨s.input, update s.outcome t (some (.pushed false (some ⟨t, x⟩)))⟩ := by
    refine Ledger.ext rfl ?_
    refine (outcome_returned _).trans ?_
    rw [show (s.become c).outcome = s.outcome from funext fun u => outcome_become (by rw [hop]), hdata]
  have hnone : s.outcome t = none := by
    unfold System.outcome
    simp only [ht, hnot]
    rfl
  rw [hout]
  exact .single (.refuse t x hx hnone)

theorem Inv.giveUp_receiver (h : Inv s) {d : Bool} (ht : s.stage t = .receiving d)
    (hnot : (s.chan.op t).done = false) {c : Trunk ι α} (hop : c.op = s.chan.op)
    (hs : c.sendWaitq.Sublist s.chan.sendWaitq) (hr : c.recvWaitq.Sublist s.chan.recvWaitq)
    (hcl : c.closed = true → c.sendWaitq = [] ∧ c.recvWaitq = []) (htc : t ∉ c.recvWaitq) :
    Follows s ((s.become c).move t (.returned (.got none))) := by
  have hts : t ∉ c.sendWaitq := by
    intro hm
    obtain ⟨⟨d', hd'⟩, -⟩ := h.sender t (hs.subset hm)
    cases ht.symm.trans hd'
  refine ⟨(h.dequeue hop hs hr hcl).returned ⟨hts, htc⟩ _, ?_⟩
  have hout : ((s.become c).move t (.returned (.got none))).ledger =
      ⟨s.input, update s.outcome t (some (.got none))⟩ := by
    refine Ledger.ext rfl ?_
    refine (outcome_returned _).trans ?_
    rw [show (s.become c).outcome = s.outcome from funext fun u => outcome_become (by rw [hop])]
  have hnone : s.outcome t = none := by
    unfold System.outcome
    simp only [ht, hnot]
    rfl
  rw [hout]
  exact .single (.miss t hnone)

/-- A thread makes a call where it is in none. -/
theorem idle_of_call {e : Event ι α} {t : ι} (he : step e s = some s')
    (hcall : (∃ x, e = .tryPush t x) ∨ e = .tryGet t ∨ (∃ x d, e = .pushUntil t x d) ∨ ∃ d, e = .getUntil t d) :
    s.stage t = .idle := by
  cases hst : s.stage t with
  | idle => rfl
  | sending | receiving | returned =>
    obtain ⟨x, rfl⟩ | rfl | ⟨x, d, rfl⟩ | ⟨d, rfl⟩ := hcall <;> simp [step, hst] at he

/-- **One event keeps the invariant and follows the ledger.** -/
theorem step_spec {e : Event ι α} (h : Inv s) (he : step e s = some s') : Follows s s' := by
  cases e with
  | tryPush t x =>
    have hst := idle_of_call he (.inl ⟨x, rfl⟩)
    by_cases hno : (s.chan.closed || s.chan.recvWaitq.isEmpty) = true
    · simp only [step, hst, tryPush, if_pos hno] at he
      obtain rfl := Option.some.inj he
      exact h.refuse_spec hst x
    · simp only [step, hst, tryPush, if_neg hno] at he
      obtain rfl := Option.some.inj he
      exact h.pass_spec hst (by simp at hno; exact hno.2) x
  | tryGet t =>
    have hst := idle_of_call he (.inr (.inl rfl))
    simp only [step, hst, tryGet] at he
    split_ifs at he with hcl hne
    · obtain rfl := Option.some.inj he
      exact h.miss_spec hst
    · obtain rfl := Option.some.inj he
      exact h.take_spec hst (by simpa using hne)
    · obtain rfl := Option.some.inj he
      exact h.miss_spec hst
  | pushUntil t x d =>
    have hst := idle_of_call he (.inr (.inr (.inl ⟨x, d, rfl⟩)))
    simp only [step, hst, doTryPushUntil] at he
    split_ifs at he with hcl hne
    · obtain rfl := Option.some.inj he
      exact h.refuse_spec hst x
    · obtain rfl := Option.some.inj he
      exact h.pass_spec hst (by simpa using hne) x
    · obtain rfl := Option.some.inj he
      exact h.joinSender_spec hst (by simpa using hcl) (by simpa using hne) x d
  | getUntil t d =>
    have hst := idle_of_call he (.inr (.inr (.inr ⟨d, rfl⟩)))
    simp only [step, hst, doTryGetUntil] at he
    split_ifs at he with hcl hne
    · obtain rfl := Option.some.inj he
      exact h.miss_spec hst
    · obtain rfl := Option.some.inj he
      exact h.take_spec hst (by simpa using hne)
    · obtain rfl := Option.some.inj he
      exact h.joinReceiver_spec hst (by simpa using hcl) (by simpa using hne) d
  | wake t expired =>
    cases hst : s.stage t with
    | idle => simp [step, hst] at he
    | sending d =>
      -- served, or the channel is closed, or the time is up, or it goes on waiting
      simp only [step, hst, wakeSender] at he
      split_ifs at he with hdone hcl hexp
      · obtain rfl := Option.some.inj he
        exact h.done_spec hdone (by unfold System.outcome; rw [hst]; exact if_pos hdone)
      · obtain rfl := Option.some.inj he
        have hq := h.closed hcl
        exact h.giveUp_sender hst (by simpa using hdone) rfl (List.Sublist.refl _) (List.Sublist.refl _) h.closed
          (by rw [hq.1]; simp)
      · obtain rfl := Option.some.inj he
        exact h.giveUp_sender hst (by simpa using hdone) rfl List.filter_sublist (List.Sublist.refl _)
          (fun hcl' => absurd hcl' hcl) (by simp [removeSender])
      · obtain rfl := Option.some.inj he
        exact h.stay_spec hst
    | receiving d =>
      simp only [step, hst, wakeReceiver] at he
      split_ifs at he with hdone hcl hexp
      · obtain rfl := Option.some.inj he
        exact h.done_spec hdone (by unfold System.outcome; rw [hst]; exact if_pos hdone)
      · obtain rfl := Option.some.inj he
        have hq := h.closed hcl
        exact h.giveUp_receiver hst (by simpa using hdone) rfl (List.Sublist.refl _) (List.Sublist.refl _) h.closed
          (by rw [hq.2]; simp)
      · obtain rfl := Option.some.inj he
        exact h.giveUp_receiver hst (by simpa using hdone) rfl (List.Sublist.refl _) List.filter_sublist
          (fun hcl' => absurd hcl' hcl) (by simp [removeReceiver])
      · obtain rfl := Option.some.inj he
        exact h.stay_spec hst
    | returned a => simp [step, hst] at he
  | close =>
    obtain rfl := Option.some.inj he
    refine ⟨h.dequeue rfl (List.nil_sublist _) (List.nil_sublist _) fun _ => ⟨rfl, rfl⟩, ?_⟩
    have hout : (s.become (close s.chan)).ledger = s.ledger :=
      Ledger.ext rfl (funext fun u => outcome_become rfl)
    rw [hout]

/-! ## Every interleaving -/

omit [DecidableEq ι] in
theorem outcome_eq_some {a : Answer ι α} (h : s.outcome t ≠ none → ∃ a, s.stage t = .returned a) :
    s.outcome t = some a ↔ s.stage t = .returned a := by
  have hret : ∀ b, s.stage t = .returned b → s.outcome t = some b := by
    intro b hb
    unfold System.outcome
    rw [hb]
  constructor
  · intro ha
    obtain ⟨b, hb⟩ := h (by simp [ha])
    rw [hb, ← Option.some.inj ((hret b hb).symm.trans ha)]
  · exact hret a

theorem Inv.reaches (h : Inv s) (hr : Reaches step Free s s') : Inv s' :=
  hr.invariant (fun _ _ _ hi _ he => (step_spec hi he).1) h

theorem Inv.reaches_ledger (h : Inv s) (hr : Reaches step Free s s') : ReflTransGen Ledger.Step s.ledger s'.ledger :=
  hr.relate (R := fun s s' : System ι α => ReflTransGen Ledger.Step s.ledger s'.ledger) (fun _ => .refl)
    (fun _ _ _ => .trans) (fun _ _ _ hi _ he => step_spec hi he) h

theorem Ledger.settled_of_steps {l l' : Ledger ι α} (h : ReflTransGen Ledger.Step l l') {a : Answer ι α}
    (ha : l.out t = some a) : l'.out t = some a := by
  induction h with
  | refl => exact ha
  | tail _ hs ih => exact hs.settled ih

theorem Ledger.valid_of_steps {l l' : Ledger ι α} (h : ReflTransGen Ledger.Step l l') (hv : Ledger.Valid l) :
    Ledger.Valid l' := by
  induction h with
  | refl => exact hv
  | tail _ hs ih => exact hs.valid ih

/-- What holds of a trunk and of the calls made on it. -/
structure WellServed (s : System ι α) : Prop where
  /-- senders and receivers match -/
  sound : s.ledger.Sound
  /-- once all calls have returned that are to, this is what they returned -/
  returns : (∀ u, s.outcome u ≠ none → ∃ a, s.stage u = .returned a) → ∀ t x, s.input t = some x →
    ((∃ back, s.stage t = .returned (.pushed true back)) ↔ ∃! r, s.stage r = .returned (.got (some ⟨t, x⟩)))
  /-- senders are served in the order they joined their queue -/
  senders : (s.senders.served ++ s.chan.sendWaitq).Sublist s.senders.joined ∧ s.senders.joined.Nodup
  /-- and so are receivers -/
  receivers : (s.receivers.served ++ s.chan.recvWaitq).Sublist s.receivers.joined ∧ s.receivers.joined.Nodup
  /-- there are never both waiting -/
  single : s.chan.sendWaitq = [] ∨ s.chan.recvWaitq = []

/-- **In every state of every interleaving** senders and receivers match, and are served in
turn; how a call ends is never changed; and a call whose end is decided returns just that when
it wakes up. -/
theorem rendezvous (h : Reaches step Free start s) :
    WellServed s ∧ (∀ s', Reaches step Free s s' → ∀ t a, s.outcome t = some a → s'.outcome t = some a) ∧
      ∀ t a expired s', s.outcome t = some a → step (.wake t expired) s = some s' → s'.stage t = .returned a := by
  have hinv : Inv s := inv_start.reaches h
  have hvalid : Ledger.Valid (start : System ι α).ledger :=
    ⟨fun t ok back h => (by cases h), fun r v h => (by cases h), fun r r' v h => (by cases h)⟩
  have hs := (Ledger.valid_of_steps (inv_start.reaches_ledger h) hvalid).sound
  refine ⟨⟨hs, ?_, ⟨?_, hinv.sendFair.once⟩, ⟨?_, hinv.recvFair.once⟩, hinv.single⟩, ?_, ?_⟩
  · intro hall t x hx
    have hiff : ∀ u a, s.outcome u = some a ↔ s.stage u = .returned a := fun u a => outcome_eq_some (hall u)
    have := hs.succeeds t x hx
    simp only [System.ledger, hiff] at this
    exact this
  · rw [← hinv.sendLine]
    exact hinv.sendFair.order
  · rw [← hinv.recvLine]
    exact hinv.recvFair.order
  · intro s' hr t a ha
    exact Ledger.settled_of_steps (hinv.reaches_ledger hr) ha
  · intro t a expired s' ha he
    unfold System.outcome at ha
    cases hst : s.stage t with
    | idle => simp [step, hst] at he
    | returned b => simp [step, hst] at he
    | sending d =>
      simp only [hst] at ha
      split_ifs at ha with hdone
      simp only [step, hst, wakeSender, if_pos hdone] at he
      obtain rfl := Option.some.inj he
      exact (update_self ..).trans (congrArg _ (Option.some.inj ha))
    | receiving d =>
      simp only [hst] at ha
      split_ifs at ha with hdone
      simp only [step, hst, wakeReceiver, if_pos hdone] at he
      obtain rfl := Option.some.inj he
      exact (update_self ..).trans (congrArg _ (Option.some.inj ha))

theorem rendezvous_three : ∃ s : System ℕ ℕ,
    runEvents step [.getUntil 0 false, .tryPush 1 7, .wake 0 false] start = some s ∧ WellServed s ∧
      s.stage 0 = .returned (.got (some ⟨1, 7⟩)) ∧ s.stage 1 = .returned (.pushed true none) := by
  refine ⟨_, rfl, (rendezvous ?_).1, rfl, rfl⟩
  exact reaches_of_run (show runEvents step [.getUntil 0 false, .tryPush 1 7, .wake 0 false] start = _ from rfl)

end Libtarp.Unbuffered
