import Libtarp.Channel.Aggregator
import Libtarp.Channel.StateMask

/-!
# Runs of calls on an aggregator

Where a channel goes by the same key in the sets of the aggregator as another, the edges of the two cannot be told
apart. `Apart` says that this does no harm.

* `refresh_readable`: the calls a channel makes when its buffer has changed, and no one waits to write.
* `Aggregator.turn`: the set of readable channels changes, and the clients hear the edge.
* `Told`: what the clients heard.
* `Inv.step`: one call.
* `right_of_apart`: in every run whose calls keep the channels apart the aggregator is readable exactly when a member
  holds an event, and the clients heard every edge of that by turns.
* `bytes_collide`: two hundred and fifty-seven channels are too many for keys of one byte.
-/

namespace Libtarp.EventAggregator

open Function Lib Evchan

variable {κ α : Type}

/-! ## The calls of a channel -/

/-- What is done with a channel that has these events makes it readable, or unreadable. -/
def Use.Turns : Use α → List α → Prop
  | .tryPush _, msgs => msgs = []
  | .tryGet, msgs => msgs.length = 1
  | .getAll, msgs => msgs ≠ []
  | .clear, msgs => msgs ≠ []

theorem Use.run_cases {u : Use α} {keep : Notification UInt32 → Bool} {c c' : EventChannel UInt32 α}
    {n : List (Notification UInt32)} {r : Answer α} (h : u.run keep c = .ok (c', n, r)) :
    c' = c ∧ n = [] ∨ ∃ msgs, refreshChannelState keep { c with msgs := msgs } = (c', n) ∧
      (u.Turns c.msgs ↔ ¬(c.msgs = [] ↔ msgs = [])) := by
  have hpair : ∀ {p : EventChannel UInt32 α × List (Notification UInt32) × Answer α},
      Except.ok p = (.ok (c', n, r) : Except Exception _) → p.1 = c' ∧ p.2.1 = n := by
    rintro p hp
    obtain rfl := Except.ok.inj hp
    exact ⟨rfl, rfl⟩
  cases u with
  | tryPush x =>
    rcases tryPush_cases h with hstay | ⟨msgs, hr, hne⟩
    · exact .inl hstay
    · exact .inr ⟨msgs, hr, by simp [Use.Turns, hne]⟩
  | tryGet =>
    obtain ⟨hc, hn⟩ := hpair h
    rcases tryGet_cases keep c with hg | ⟨msgs, r', hg, x, hm⟩
    · rw [hg] at hc hn
      exact .inl ⟨hc.symm, hn.symm⟩
    · rw [hg] at hc hn
      exact .inr ⟨msgs, Prod.ext hc hn, by simp [Use.Turns, hm]⟩
  | getAll =>
    obtain ⟨hc, hn⟩ := hpair h
    exact .inr ⟨[], Prod.ext hc hn, by simp [Use.Turns]⟩
  | clear =>
    obtain ⟨hc, hn⟩ := hpair h
    exact .inr ⟨[], Prod.ext hc hn, by simp [Use.Turns]⟩

/-- The notifiers of a list are told of the edge from one level to another, if there is one. -/
def announce {ι : Type} (keep : Notification ι → Bool) (b b' : Bool) (ls : List ι) : List ι × List (Notification ι) :=
  match edge b b' with
  | [] => (ls, [])
  | a :: _ => notifyMonitors keep .readable a ls

theorem announce_nil {ι : Type} (keep : Notification ι → Bool) (b b' : Bool) : announce keep b b' [] = ([], []) := by
  unfold announce
  split <;> rfl

/-- A queue that is as readable as it was is not announced. -/
theorem announce_level {ι α : Type} (keep : Notification ι → Bool) {old new : List α} (h : old = [] ↔ new = []) (ls : List ι) :
    announce keep (!old.isEmpty) (!new.isEmpty) ls = (ls, []) := by
  have hlevel : (!old.isEmpty) = !new.isEmpty := by
    rw [Bool.eq_iff_iff]
    simpa using not_congr h
  rw [hlevel]
  unfold announce
  cases !new.isEmpty <;> rfl

/-- One that is not is announced to everyone. -/
theorem announce_turn {ι α : Type} (keep : Notification ι → Bool) {old new : List α} (h : ¬(old = [] ↔ new = [])) (ls : List ι) :
    ∃ action, (action = .apply ∧ old = [] ∧ new ≠ [] ∨ action = .clear ∧ old ≠ [] ∧ new = []) ∧
      announce keep (!old.isEmpty) (!new.isEmpty) ls = notifyMonitors keep .readable action ls := by
  cases old with
  | nil =>
    cases new with
    | nil => exact absurd Iff.rfl h
    | cons y l => exact ⟨.apply, .inl ⟨rfl, rfl, List.cons_ne_nil _ _⟩, rfl⟩
  | cons x l =>
    cases new with
    | nil => exact ⟨.clear, .inr ⟨rfl, List.cons_ne_nil _ _, rfl⟩, rfl⟩
    | cons y l => exact absurd (iff_of_false (List.cons_ne_nil _ _) (List.cons_ne_nil _ _)) h

/-- The two sweeps over a list that may follow on each other make one announcement. -/
theorem sweep_announce {ι : Type} (keep : Notification ι → Bool) (old new : Mask) {ls : List ι}
    {p q : List ι × List (Notification ι)}
    (hp : p = if .readable ∈ new ∧ .readable ∉ old then notifyMonitors keep .readable .apply ls else (ls, []))
    (hq : q = if .readable ∈ old ∧ .readable ∉ new then notifyMonitors keep .readable .clear p.1 else (p.1, [])) :
    (q.1, p.2 ++ q.2) = announce keep (decide (.readable ∈ old)) (decide (.readable ∈ new)) ls := by
  by_cases hold : .readable ∈ old
  · rw [if_neg fun h => h.2 hold] at hp
    by_cases hnew : .readable ∈ new
    · rw [if_neg fun h => h.2 hnew, hp] at hq
      rw [hp, hq, decide_eq_true hold, decide_eq_true hnew]
      rfl
    · rw [if_pos ⟨hold, hnew⟩, hp] at hq
      rw [hp, hq, decide_eq_true hold, decide_eq_false hnew]
      rfl
  · rw [if_neg fun h => hold h.1] at hq
    by_cases hnew : .readable ∈ new
    · rw [if_pos ⟨hnew, hold⟩] at hp
      rw [hq, hp, decide_eq_false hold, decide_eq_true hnew, List.append_nil]
      rfl
    · rw [if_neg fun h => hnew h.1] at hp
      rw [hq, hp, decide_eq_false hold, decide_eq_false hnew]
      rfl

/-- **A buffer that has changed**, in a channel where no one waits to write. -/
theorem refresh_readable (keep : Notification UInt32 → Bool) {c : EventChannel UInt32 α} (msgs : List α)
    (hs : c.sendMonitors = []) (hm : c.recvMonitors ≠ [] → (.readable ∈ c.stateMask ↔ c.msgs ≠ [])) :
    let c' := (refreshChannelState keep { c with msgs := msgs }).1
    let n := (refreshChannelState keep { c with msgs := msgs }).2
    c'.msgs = msgs ∧ c'.sendMonitors = [] ∧ (.readable ∈ c'.stateMask ↔ msgs ≠ []) ∧
      (c'.recvMonitors, n) = announce keep (!c.msgs.isEmpty) (!msgs.isEmpty) c.recvMonitors := by
  obtain ⟨circular, capacity, closed, msgs₀, send, recv, mask⟩ := c
  dsimp only at hs hm ⊢
  subst hs
  set c₁ : EventChannel UInt32 α := ⟨circular, capacity, closed, msgs, [], recv, mask⟩ with hc₁
  have hempty : ∀ l : List α, decide (l ≠ []) = !l.isEmpty := by
    intro l
    cases l <;> rfl
  have hcur : .readable ∈ currentState c₁ ↔ msgs ≠ [] := mem_currentState_readable c₁
  -- the mask tells the level before, if anyone is to hear of it
  have hlevel : announce keep (decide (.readable ∈ mask)) (decide (.readable ∈ currentState c₁)) recv =
      announce keep (!msgs₀.isEmpty) (!msgs.isEmpty) recv := by
    by_cases hrecv : recv = []
    · rw [hrecv, announce_nil, announce_nil]
    · rw [← hempty, ← hempty, decide_eq_decide.2 hcur, decide_eq_decide.2 (hm hrecv)]
  by_cases hsame : currentState c₁ = mask
  · have hstay : refreshChannelState keep c₁ = (c₁, []) := by
      unfold refreshChannelState
      exact if_pos hsame
    rw [hstay]
    refine ⟨rfl, rfl, ?_, ?_⟩
    · rw [← hcur, hsame]
    · rw [← hlevel, hsame]
      unfold announce
      cases decide (.readable ∈ mask) <;> rfl
  · obtain ⟨p, hp⟩ : ∃ p, p = if .readable ∈ currentState c₁ ∧ .readable ∉ mask then
      notifyMonitors keep .readable .apply recv else (recv, []) := ⟨_, rfl⟩
    obtain ⟨q, hq⟩ : ∃ q, q = if .readable ∈ mask ∧ .readable ∉ currentState c₁ then
      notifyMonitors keep .readable .clear p.1 else (p.1, []) := ⟨_, rfl⟩
    have hsweep := (sweep_announce keep _ _ hp hq).trans hlevel
    have hrun : refreshChannelState keep c₁ =
        ({ c₁ with
            recvMonitors := q.1
            sendMonitors := []
            stateMask := if closed then insert .closed (currentState c₁) else currentState c₁ }, p.2 ++ q.2) := by
      rw [hq, hp]
      unfold refreshChannelState
      rw [if_neg hsame]
      simp only [hc₁, notifyMonitors, List.filter_nil, List.map_nil, ite_self, List.append_nil]
    rw [hrun]
    refine ⟨rfl, rfl, ?_, hsweep⟩
    dsimp only
    split_ifs
    · rw [Finset.mem_insert, or_iff_right (by decide)]
      exact hcur
    · exact hcur

/-! ## What the clients heard -/

/-- The clients with a list of notifiers heard the edges up to a level, but for those that asked to be removed. -/
structure Told (ns : List ℕ) (closed : Bool) (registered : List Mask) (log removed : List (Notification ℕ))
    (level : Bool) : Prop where
  nodup : ns.Nodup
  known : ∀ i ∈ ns, i < registered.length
  logged : ∀ n ∈ log, n.notifier < registered.length
  kept : closed = false → ∀ i < registered.length, (∀ n ∈ removed, n.notifier ≠ i) → i ∈ ns
  heard : ∀ i m, registered[i]? = some m → (∀ n ∈ removed, n.notifier ≠ i) →
    Alternates (decide (.readable ∈ m)) (heard log i .readable) level

variable {ns : List ℕ} {closed : Bool} {registered : List Mask} {log removed : List (Notification ℕ)} {b : Bool}

/-- Who is told something is a client. -/
theorem Told.logged_append (h : Told ns closed registered log removed b) {event : ChanState}
    {action : Action} :
    ∀ n ∈ log ++ ns.map (fun i => (⟨i, event, action⟩ : Notification ℕ)), n.notifier < registered.length := by
  intro n hn
  rcases List.mem_append.1 hn with hn | hn
  · exact h.logged n hn
  · obtain ⟨i, hi, rfl⟩ := List.mem_map.1 hn
    exact h.known i hi

/-- **An announcement** is heard by all clients. -/
theorem Told.announce (h : Told ns closed registered log removed b) (hopen : closed = false)
    (keep : Notification ℕ → Bool) (b' : Bool) :
    Told (announce keep b b' ns).1 closed registered (log ++ (EventAggregator.announce keep b b' ns).2)
      (removed ++ (EventAggregator.announce keep b b' ns).2.filter (!keep ·)) b' := by
  have hedge := alternates_edge b b'
  unfold EventAggregator.announce
  cases he : edge b b' with
  | nil =>
    rw [he] at hedge
    obtain rfl : b = b' := hedge
    simpa using h
  | cons a l =>
    have hone : l = [] := by
      cases b <;> cases b' <;> simp [edge] at he <;> exact he.2
    subst hone
    rw [he] at hedge
    have hsub : (ns.filter fun i => keep ⟨i, .readable, a⟩).Sublist ns := List.filter_sublist
    -- who did not ask to be removed was in the list
    have hstay : ∀ i < registered.length, (∀ n ∈ removed ++ (ns.map fun i => (⟨i, .readable, a⟩ : Notification ℕ)).filter
        (!keep ·), n.notifier ≠ i) → i ∈ ns ∧ keep ⟨i, .readable, a⟩ = true := by
      intro i hi hno
      have hin := h.kept hopen i hi fun n hn => hno n (List.mem_append_left _ hn)
      refine ⟨hin, ?_⟩
      by_contra hk
      refine hno ⟨i, .readable, a⟩ (List.mem_append_right _ (List.mem_filter.2 ⟨List.mem_map.2 ⟨i, hin, rfl⟩, ?_⟩)) rfl
      simpa using hk
    refine ⟨hsub.nodup h.nodup, fun i hi => h.known i (hsub.subset hi), h.logged_append, ?_, ?_⟩
    · intro _ i hi hno
      exact List.mem_filter.2 (hstay i hi hno)
    · intro i m hm hno
      obtain ⟨hin, -⟩ := hstay i (List.getElem?_eq_some_iff.1 hm).1 hno
      have hbefore := h.heard i m hm fun n hn => hno n (List.mem_append_left _ hn)
      rw [heard_append]
      refine hbefore.append ?_
      dsimp only [notifyMonitors]
      rw [heard_notify h.nodup hin, if_pos rfl]
      exact hedge

/-- **A new client** has heard nothing, and was told the level. -/
theorem Told.add (h : Told ns closed registered log removed b) :
    Told (ns ++ [registered.length]) closed (registered ++ [if b then {.readable} else ∅]) log removed b := by
  have hlen : (registered ++ [if b then ({.readable} : Mask) else ∅]).length = registered.length + 1 := by
    rw [List.length_append, List.length_singleton]
  refine ⟨?_, ?_, ?_, ?_, ?_⟩
  · rw [List.nodup_append]
    refine ⟨h.nodup, List.nodup_singleton _, ?_⟩
    rintro i hi j hj rfl
    have hlt := h.known i hi
    rw [List.mem_singleton.1 hj] at hlt
    exact Nat.lt_irrefl _ hlt
  · intro i hi
    rw [hlen]
    rcases List.mem_append.1 hi with hi | hi
    · have := h.known i hi
      omega
    · rw [List.mem_singleton.1 hi]
      omega
  · intro n hn
    have := h.logged n hn
    omega
  · intro hopen i hi hno
    rw [hlen] at hi
    by_cases hold : i < registered.length
    · exact List.mem_append_left _ (h.kept hopen i hold hno)
    · obtain rfl : i = registered.length := by omega
      exact List.mem_append_right _ (List.mem_singleton_self _)
  · intro i m hm hno
    by_cases hold : i < registered.length
    · rw [List.getElem?_append_left hold] at hm
      exact h.heard i m hm hno
    · obtain rfl : i = registered.length := by
        have := (List.getElem?_eq_some_iff.1 hm).1
        omega
      rw [List.getElem?_concat_length] at hm
      obtain rfl := Option.some.inj hm
      rw [heard_of_ne _ fun n hn => (h.logged n hn).ne]
      cases b <;> rfl

/-- All clients are dropped and told so, when the level is low or there is none left. -/
theorem Told.drop (h : Told ns closed registered log removed b) (hb : b = false ∨ closed = false ∧ ns = [])
    (keep : Notification ℕ → Bool) :
    Told [] true registered (log ++ (notifyMonitors keep .closed .apply ns).2) removed false := by
  refine ⟨List.nodup_nil, nofun, h.logged_append, nofun, ?_⟩
  · intro i m hm hno
    rcases hb with rfl | ⟨hopen, hnil⟩
    · have hnone : Evchan.heard (notifyMonitors keep .closed .apply ns).2 i .readable = [] := by
        apply heard_of_event_ne
        intro n hn
        obtain ⟨j, -, rfl⟩ := List.mem_map.1 hn
        exact ChanState.noConfusion
      rw [heard_append, hnone, List.append_nil]
      exact h.heard i m hm hno
    · have hin := h.kept hopen i (List.getElem?_eq_some_iff.1 hm).1 hno
      rw [hnil] at hin
      cases hin

/-! ## The sets -/

/-- What a channel goes by in the sets of the aggregator. -/
def keyOf (toKey : UInt32 → κ) (c : ℕ) : κ := toKey (UInt32.ofNat c)

/-- The channel `c` has an event. -/
def Holds (chans : List (EventChannel UInt32 α)) (c : ℕ) : Prop := ∃ chan, chans[c]? = some chan ∧ chan.msgs ≠ []

variable {chans : List (EventChannel UInt32 α)} {chan chan' : EventChannel UInt32 α} {c : ℕ}

theorem holds_set_self (hc : chans[c]? = some chan) : Holds (chans.set c chan') c ↔ chan'.msgs ≠ [] := by
  have hlt := (List.getElem?_eq_some_iff.1 hc).1
  unfold Holds
  rw [List.getElem?_set_self hlt]
  simp

theorem holds_set_of_ne {d : ℕ} (hdc : d ≠ c) : Holds (chans.set c chan') d ↔ Holds chans d := by
  unfold Holds
  rw [List.getElem?_set_ne (Ne.symm hdc)]

/-- No one waits to write to the channel, and its one reader, if any, is the aggregator. -/
structure ChanOk (c : ℕ) (chan : EventChannel UInt32 α) : Prop where
  send : chan.sendMonitors = []
  recv : chan.recvMonitors = [] ∨ chan.recvMonitors = [UInt32.ofNat c]
  mask : chan.recvMonitors ≠ [] → (.readable ∈ chan.stateMask ↔ chan.msgs ≠ [])

/-- The sets of the aggregator are those of its members. -/
structure Sets (toKey : UInt32 → κ) (agg : Aggregator κ) (chans : List (EventChannel UInt32 α)) : Prop where
  lastKey : agg.lastKey = UInt32.ofNat chans.length
  chan : ∀ c chan, chans[c]? = some chan → ChanOk c chan
  member : ∀ c ∈ agg.channels, ∃ chan, chans[c]? = some chan ∧ chan.recvMonitors = [UInt32.ofNat c]
  index : ∀ k c, agg.index k = some c → c ∈ agg.channels ∧ agg.keyMap k = some (UInt32.ofNat c)
  once : ∀ k k' c, agg.index k = some c → agg.index k' = some c → k = k'
  subscriptions : ∀ a, a ∈ agg.subscriptions ↔ ∃ c ∈ agg.channels, keyOf toKey c = a
  readable : ∀ a, a ∈ agg.readable ↔ ∃ c ∈ agg.channels, Holds chans c ∧ keyOf toKey c = a
  shut : agg.closed = true → agg.channels = []

variable {toKey : UInt32 → κ} {agg : Aggregator κ}

theorem Sets.lt (h : Sets toKey agg chans) (hc : c ∈ agg.channels) : c < chans.length := by
  obtain ⟨chan, hchan, -⟩ := h.member c hc
  exact (List.getElem?_eq_some_iff.1 hchan).1

/-- The list of clients does not matter. -/
theorem Sets.told (h : Sets toKey agg chans) (ns : List ℕ) : Sets toKey { agg with notifiers := ns } chans :=
  ⟨h.lastKey, h.chan, h.member, h.index, h.once, h.subscriptions, h.readable, h.shut⟩

/-- One channel has changed. -/
theorem Sets.set (h : Sets toKey agg chans) (hok : ChanOk c chan')
    (hmem : c ∈ agg.channels → chan'.recvMonitors = [UInt32.ofNat c]) {R : Finset κ}
    (hR : ∀ a, a ∈ R ↔ ∃ d ∈ agg.channels, Holds (chans.set c chan') d ∧ keyOf toKey d = a) :
    Sets toKey { agg with readable := R } (chans.set c chan') := by
  refine ⟨?_, ?_, ?_, h.index, h.once, h.subscriptions, hR, h.shut⟩
  · rw [List.length_set]
    exact h.lastKey
  · intro d chan hd
    by_cases hdc : d = c
    · subst hdc
      have hlt := (List.getElem?_eq_some_iff.1 hd).1
      rw [List.length_set] at hlt
      rw [List.getElem?_set_self hlt] at hd
      obtain rfl := Option.some.inj hd
      exact hok
    · rw [List.getElem?_set_ne (Ne.symm hdc)] at hd
      exact h.chan d chan hd
  · intro d hd
    by_cases hdc : d = c
    · subst hdc
      exact ⟨chan', List.getElem?_set_self (h.lt hd), hmem hd⟩
    · rw [List.getElem?_set_ne (Ne.symm hdc)]
      exact h.member d hd

/-- A channel that holds an event as before, or is no member. -/
theorem Sets.still (h : Sets toKey agg chans) (hc : chans[c]? = some chan) (hok : ChanOk c chan')
    (hmem : c ∈ agg.channels → chan'.recvMonitors = [UInt32.ofNat c] ∧ (chan'.msgs ≠ [] ↔ chan.msgs ≠ [])) :
    Sets toKey agg (chans.set c chan') := by
  refine h.set hok (fun hm => (hmem hm).1) fun a => ?_
  rw [h.readable]
  refine exists_congr fun d => and_congr_right fun hd => and_congr_left fun _ => ?_
  by_cases hdc : d = c
  · subst hdc
    rw [holds_set_self hc, (hmem hd).2]
    unfold Holds
    rw [hc]
    simp
  · rw [holds_set_of_ne hdc]

variable [DecidableEq κ]

/-- A member gets its first event. -/
theorem Sets.rise (h : Sets toKey agg chans) (hc : chans[c]? = some chan) (hm : c ∈ agg.channels) (hok : ChanOk c chan')
    (hrecv : chan'.recvMonitors = [UInt32.ofNat c]) (hmsgs : chan'.msgs ≠ []) :
    Sets toKey { agg with readable := insert (keyOf toKey c) agg.readable } (chans.set c chan') := by
  refine h.set hok (fun _ => hrecv) fun a => ?_
  rw [Finset.mem_insert, h.readable]
  constructor
  · rintro (rfl | ⟨d, hd, hholds, hkey⟩)
    · exact ⟨c, hm, (holds_set_self hc).2 hmsgs, rfl⟩
    · refine ⟨d, hd, ?_, hkey⟩
      by_cases hdc : d = c
      · subst hdc
        exact (holds_set_self hc).2 hmsgs
      · exact (holds_set_of_ne hdc).2 hholds
  · rintro ⟨d, hd, hholds, hkey⟩
    by_cases hdc : d = c
    · exact .inl (hkey.symm.trans (congrArg (keyOf toKey) hdc))
    · exact .inr ⟨d, hd, (holds_set_of_ne hdc).1 hholds, hkey⟩

/-- A member loses its last event, and no other with an event goes by its key. -/
theorem Sets.fall (h : Sets toKey agg chans) (hc : chans[c]? = some chan) (hok : ChanOk c chan')
    (hrecv : chan'.recvMonitors = [UInt32.ofNat c]) (hmsgs : chan'.msgs = [])
    (hother : ∀ d ∈ agg.channels, d ≠ c → Holds chans d → keyOf toKey d ≠ keyOf toKey c) :
    Sets toKey { agg with readable := agg.readable.erase (keyOf toKey c) } (chans.set c chan') := by
  refine h.set hok (fun _ => hrecv) fun a => ?_
  rw [Finset.mem_erase, h.readable]
  constructor
  · rintro ⟨hne, d, hd, hholds, rfl⟩
    have hdc : d ≠ c := fun he => hne (congrArg (keyOf toKey) he)
    exact ⟨d, hd, (holds_set_of_ne hdc).2 hholds, rfl⟩
  · rintro ⟨d, hd, hholds, rfl⟩
    have hdc : d ≠ c := by
      rintro rfl
      exact (holds_set_self hc).1 hholds hmsgs
    have hold := (holds_set_of_ne hdc).1 hholds
    exact ⟨hother d hd hdc hold, d, hd, hold, rfl⟩

/-- A channel is made and becomes a member. -/
theorem Sets.add (h : Sets toKey agg chans) (hopen : agg.closed = false) {k : κ} (hk : agg.index k = none)
    (hok : ChanOk chans.length chan) (hrecv : chan.recvMonitors = [UInt32.ofNat chans.length]) (hmsgs : chan.msgs = []) :
    Sets toKey { agg with
      index := update agg.index k (some chans.length)
      lastKey := agg.lastKey + 1
      keyMap := update agg.keyMap k (some agg.lastKey)
      channels := agg.channels ++ [chans.length]
      subscriptions := insert (toKey agg.lastKey) agg.subscriptions } (chans ++ [chan]) := by
  have hold : ∀ {c}, c < chans.length → (chans ++ [chan])[c]? = chans[c]? := fun hlt => List.getElem?_append_left hlt
  have hnew : (chans ++ [chan])[chans.length]? = some chan := List.getElem?_concat_length
  have hholds : ∀ {c}, c < chans.length → (Holds (chans ++ [chan]) c ↔ Holds chans c) := by
    intro c hlt
    unfold Holds
    rw [hold hlt]
  have hnone : ¬Holds (chans ++ [chan]) chans.length := by
    rintro ⟨chan₁, hchan, hne⟩
    obtain rfl := Option.some.inj (hnew.symm.trans hchan)
    exact hne hmsgs
  have hkey : agg.lastKey = UInt32.ofNat chans.length := h.lastKey
  refine ⟨?_, ?_, ?_, ?_, ?_, ?_, ?_, ?_⟩
  · rw [List.length_append, List.length_singleton, UInt32.ofNat_add, ← hkey]
    rfl
  · intro c chan₁ hc
    by_cases hlt : c < chans.length
    · rw [hold hlt] at hc
      exact h.chan c chan₁ hc
    · obtain rfl : c = chans.length := by
        have := (List.getElem?_eq_some_iff.1 hc).1
        rw [List.length_append, List.length_singleton] at this
        omega
      obtain rfl := Option.some.inj (hnew.symm.trans hc)
      exact hok
  · intro c hc
    rcases List.mem_append.1 hc with hc | hc
    · rw [hold (h.lt hc)]
      exact h.member c hc
    · obtain rfl := List.mem_singleton.1 hc
      exact ⟨chan, hnew, hrecv⟩
  · intro k' c hc
    dsimp only at hc ⊢
    by_cases hkk : k' = k
    · subst hkk
      rw [update_self] at hc ⊢
      obtain rfl := Option.some.inj hc
      exact ⟨List.mem_append_right _ (List.mem_singleton_self _), congrArg some hkey⟩
    · rw [update_of_ne hkk] at hc ⊢
      exact ⟨List.mem_append_left _ (h.index k' c hc).1, (h.index k' c hc).2⟩
  · -- the new channel is under no other key
    have hfresh : ∀ k' c, k' ≠ k → agg.index k' = some c → c ≠ chans.length := fun k' c _ hc =>
      (h.lt (h.index k' c hc).1).ne
    intro k₁ k₂ c h₁ h₂
    dsimp only at h₁ h₂
    by_cases hk₁ : k₁ = k
    · by_cases hk₂ : k₂ = k
      · rw [hk₁, hk₂]
      · rw [hk₁, update_self] at h₁
        rw [update_of_ne hk₂] at h₂
        exact absurd (Option.some.inj h₁).symm (hfresh k₂ c hk₂ h₂)
    · rw [update_of_ne hk₁] at h₁
      by_cases hk₂ : k₂ = k
      · rw [hk₂, update_self] at h₂
        exact absurd (Option.some.inj h₂).symm (hfresh k₁ c hk₁ h₁)
      · rw [update_of_ne hk₂] at h₂
        exact h.once k₁ k₂ c h₁ h₂
  · intro a
    rw [Finset.mem_insert, h.subscriptions, hkey]
    constructor
    · rintro (rfl | ⟨c, hc, hca⟩)
      · exact ⟨chans.length, List.mem_append_right _ (List.mem_singleton_self _), rfl⟩
      · exact ⟨c, List.mem_append_left _ hc, hca⟩
    · rintro ⟨c, hc, hca⟩
      rcases List.mem_append.1 hc with hc | hc
      · exact .inr ⟨c, hc, hca⟩
      · obtain rfl := List.mem_singleton.1 hc
        exact .inl hca.symm
  · intro a
    rw [h.readable]
    constructor
    · rintro ⟨c, hc, hh, hca⟩
      exact ⟨c, List.mem_append_left _ hc, (hholds (h.lt hc)).2 hh, hca⟩
    · rintro ⟨c, hc, hh, hca⟩
      rcases List.mem_append.1 hc with hc | hc
      · exact ⟨c, hc, (hholds (h.lt hc)).1 hh, hca⟩
      · obtain rfl := List.mem_singleton.1 hc
        exact absurd hh hnone
  · intro hclosed
    cases hopen.symm.trans hclosed

/-- A member is removed, and no other goes by its key. -/
theorem Sets.remove (h : Sets toKey agg chans) {k : κ} (hk : agg.index k = some c)
    (hother : ∀ d ∈ agg.channels, d ≠ c → keyOf toKey d ≠ keyOf toKey c) :
    Sets toKey { agg with
      index := update agg.index k none
      channels := agg.channels.filter (· ≠ c)
      keyMap := update agg.keyMap k none
      subscriptions := agg.subscriptions.erase (keyOf toKey c)
      readable := agg.readable.erase (keyOf toKey c) } chans := by
  have hmem : ∀ d, d ∈ agg.channels.filter (· ≠ c) ↔ d ∈ agg.channels ∧ d ≠ c := by
    intro d
    rw [List.mem_filter, decide_eq_true_eq]
  refine ⟨h.lastKey, h.chan, ?_, ?_, ?_, ?_, ?_, ?_⟩
  · intro d hd
    exact h.member d ((hmem d).1 hd).1
  · intro k' d hd
    dsimp only at hd ⊢
    by_cases hkk : k' = k
    · rw [hkk, update_self] at hd
      cases hd
    · rw [update_of_ne hkk] at hd ⊢
      obtain ⟨hin, hkey⟩ := h.index k' d hd
      refine ⟨(hmem d).2 ⟨hin, ?_⟩, hkey⟩
      rintro rfl
      exact hkk (h.once k' k d hd hk)
  · intro k₁ k₂ d h₁ h₂
    dsimp only at h₁ h₂
    have hne : ∀ {k'}, update agg.index k none k' = some d → agg.index k' = some d := by
      intro k' hd
      by_cases hkk : k' = k
      · rw [hkk, update_self] at hd
        cases hd
      · rwa [update_of_ne hkk] at hd
    exact h.once k₁ k₂ d (hne h₁) (hne h₂)
  · intro a
    rw [Finset.mem_erase, h.subscriptions]
    constructor
    · rintro ⟨hne, d, hd, rfl⟩
      exact ⟨d, (hmem d).2 ⟨hd, fun he => hne (congrArg (keyOf toKey) he)⟩, rfl⟩
    · -- no other member has its key
      rintro ⟨d, hd, rfl⟩
      obtain ⟨hin, hdc⟩ := (hmem d).1 hd
      exact ⟨hother d hin hdc, d, hin, rfl⟩
  · intro a
    rw [Finset.mem_erase, h.readable]
    constructor
    · rintro ⟨hne, d, hd, hh, rfl⟩
      exact ⟨d, (hmem d).2 ⟨hd, fun he => hne (congrArg (keyOf toKey) he)⟩, hh, rfl⟩
    · rintro ⟨d, hd, hh, rfl⟩
      obtain ⟨hin, hdc⟩ := (hmem d).1 hd
      exact ⟨hother d hin hdc, d, hin, hh, rfl⟩
  · intro hclosed
    have hin := (h.index k c hk).1
    rw [h.shut hclosed] at hin
    cases hin

/-- The readable channels become those of `R`, and the clients hear the edge. -/
def Aggregator.turn (agg : Aggregator κ) (keep : Notification ℕ → Bool) (R : Finset κ) :
    Aggregator κ × List (Notification ℕ) :=
  let p := announce keep (decide (agg.readable ≠ ∅)) (decide (R ≠ ∅)) agg.notifiers
  ({ agg with readable := R, notifiers := p.1 }, p.2)

theorem turn_insert (agg : Aggregator κ) (keep : Notification ℕ → Bool) (a : κ) :
    agg.turn keep (insert a agg.readable) =
      if agg.readable = ∅ then { agg with readable := insert a agg.readable }.invokeNotifiers keep .readable .apply
      else ({ agg with readable := insert a agg.readable }, []) := by
  have hne : decide (insert a agg.readable ≠ ∅) = true := decide_eq_true (Finset.insert_ne_empty _ _)
  unfold Aggregator.turn
  rw [hne]
  split_ifs with hempty
  · rw [decide_eq_false (not_not.2 hempty)]
    rfl
  · rw [decide_eq_true hempty]
    rfl

theorem turn_erase (agg : Aggregator κ) (keep : Notification ℕ → Bool) (a : κ) :
    agg.turn keep (agg.readable.erase a) =
      if agg.readable ≠ ∅ ∧ agg.readable.erase a = ∅ then
        { agg with readable := agg.readable.erase a }.invokeNotifiers keep .readable .clear
      else ({ agg with readable := agg.readable.erase a }, []) := by
  unfold Aggregator.turn
  by_cases hempty : agg.readable = ∅
  · rw [if_neg fun h => h.1 hempty, hempty, Finset.erase_eq_of_notMem (Finset.notMem_empty a)]
    rfl
  · rw [decide_eq_true hempty]
    by_cases hgone : agg.readable.erase a = ∅
    · rw [if_pos ⟨hempty, hgone⟩, hgone]
      rfl
    · rw [if_neg fun h => hgone h.2, decide_eq_true hgone]
      rfl

/-- The set of the readable after an edge of a channel. -/
def Aggregator.readableAfter (agg : Aggregator κ) (a : κ) : Action → Finset κ
  | .apply => insert a agg.readable
  | .clear => agg.readable.erase a

variable (keep : Notification ℕ → Bool)

/-- **A notification of a member.** -/
theorem notify_member {key : UInt32} (hin : toKey key ∈ agg.subscriptions) (hopen : agg.closed = false)
    (action : Action) : agg.notify toKey keep key {.readable} action =
      (agg.turn keep (agg.readableAfter (toKey key) action), true) := by
  have hclosed : ¬agg.closed = true := by rw [hopen]; exact Bool.false_ne_true
  unfold Aggregator.notify
  rw [if_neg (not_not.2 hin), if_neg hclosed]
  cases action with
  | apply =>
    rw [if_pos ⟨rfl, Finset.mem_singleton_self _⟩]
    exact congrArg (·, true) (turn_insert agg keep (toKey key)).symm
  | clear =>
    rw [if_neg (by simp), if_pos ⟨rfl, Finset.mem_singleton_self _⟩]
    exact congrArg (·, true) (turn_erase agg keep (toKey key)).symm

/-- **A notification of one that is none.** -/
theorem notify_stranger {key : UInt32} (hout : toKey key ∉ agg.subscriptions ∨ agg.closed = true) (events : Mask)
    (action : Action) : agg.notify toKey keep key events action = ((agg, []), false) := by
  unfold Aggregator.notify
  by_cases hin : toKey key ∈ agg.subscriptions
  · rw [if_neg (not_not.2 hin), if_pos (hout.resolve_left (not_not.2 hin))]
  · rw [if_pos hin]

/-- No call is made. -/
theorem become_quiet (w : World κ α) (c : ℕ) (chan : EventChannel UInt32 α) :
    w.become toKey keep c chan [] = { w with chans := w.chans.set c chan } := by
  simp [World.become, Aggregator.deliver, World.tell]

/-- The one call that is made is for a stranger. -/
theorem become_stranger (w : World κ α) (c : ℕ) (chan : EventChannel UInt32 α) {n : Notification UInt32}
    (hout : toKey n.notifier ∉ w.agg.subscriptions ∨ w.agg.closed = true) :
    w.become toKey keep c chan [n] = { w with chans := w.chans.set c chan } := by
  simp [World.become, Aggregator.deliver, World.tell, notify_stranger keep hout]

/-- The one call that is made is for a member. -/
theorem become_member (w : World κ α) (c : ℕ) (chan : EventChannel UInt32 α) {key : UInt32} (action : Action)
    (hin : toKey key ∈ w.agg.subscriptions) (hopen : w.agg.closed = false) :
    w.become toKey keep c chan [⟨key, .readable, action⟩] = World.tell keep { w with chans := w.chans.set c chan }
      (w.agg.turn keep (w.agg.readableAfter (toKey key) action)) := by
  simp [World.become, Aggregator.deliver, notify_member keep hin hopen]

/-! ## The invariant -/

structure Inv (toKey : UInt32 → κ) (w : World κ α) : Prop where
  sets : Sets toKey w.agg w.chans
  clients : Told w.agg.notifiers w.agg.closed w.registered w.log w.removed (decide (w.agg.readable ≠ ∅))

/-- The sets have become those of `agg` with the readable channels `R`. -/
theorem Inv.turn {w : World κ α} (h : Inv toKey w) (hopen : w.agg.closed = false) {R : Finset κ}
    (hsame : agg.readable = w.agg.readable ∧ agg.notifiers = w.agg.notifiers ∧ agg.closed = w.agg.closed)
    (hs : Sets toKey { agg with readable := R } chans) :
    Inv toKey (World.tell keep { w with chans := chans } (agg.turn keep R)) := by
  obtain ⟨hr, hn, hc⟩ := hsame
  refine ⟨hs.told _, ?_⟩
  have ht := h.clients.announce hopen keep (decide (R ≠ ∅))
  rw [← hr, ← hn, ← hc] at ht
  exact ht

/-- The condition on a call: channels that go by the same key are not in each other's way. A member may be emptied when
no other member with an event goes by its key, and removed when no other member does; and a channel that is no member
may get its first event or lose its last when no member goes by its key. -/
def Apart (toKey : UInt32 → κ) : Event κ α → World κ α → Prop
  | .remove k _, w => ∀ c ∈ w.agg.index k, ∀ d ∈ w.agg.channels, d ≠ c → keyOf toKey d ≠ keyOf toKey c
  | .use c u _, w => ∀ chan ∈ w.chans[c]?, u.Turns chan.msgs → ∀ d ∈ w.agg.channels, d ≠ c →
      (c ∈ w.agg.channels → chan.msgs ≠ [] ∧ Holds w.chans d) → keyOf toKey d ≠ keyOf toKey c
  | _, _ => True

omit [DecidableEq κ] in
/-- The aggregator is closed when no member has an event, or when no client is left. -/
def Idle : Event κ α → World κ α → Prop
  | .close _, w => (∀ c ∈ w.agg.channels, ¬Holds w.chans c) ∨ w.agg.notifiers = []
  | _, _ => True

variable {w w' : World κ α}

/-- A channel that has changed told no one. -/
theorem Inv.still (h : Inv toKey w) (hc : w.chans[c]? = some chan) (hok : ChanOk c chan')
    (hmem : c ∈ w.agg.channels → chan'.recvMonitors = [UInt32.ofNat c] ∧ (chan'.msgs ≠ [] ↔ chan.msgs ≠ [])) :
    Inv toKey { w with chans := w.chans.set c chan' } := ⟨h.sets.still hc hok hmem, h.clients⟩

/-- **A channel is used.** -/
theorem Inv.use (h : Inv toKey w) (hc : w.chans[c]? = some chan) {u : Use α} {n : List (Notification UInt32)}
    {r : Answer α} (hrun : u.run (w.agg.answer toKey keep) chan = .ok (chan', n, r))
    (ha : Apart toKey (.use c u keep) w) : Inv toKey (w.become toKey keep c chan' n) := by
  have hok := h.sets.chan c chan hc
  have hmember : c ∈ w.agg.channels → chan.recvMonitors = [UInt32.ofNat c] := by
    intro hm
    obtain ⟨chan₁, hchan, hrecv⟩ := h.sets.member c hm
    obtain rfl := Option.some.inj (hc.symm.trans hchan)
    exact hrecv
  rcases Use.run_cases hrun with ⟨rfl, rfl⟩ | ⟨msgs, hr, hturns⟩
  · rw [become_quiet]
    exact h.still hc hok fun hm => ⟨hmember hm, Iff.rfl⟩
  · have hrefresh := refresh_readable (w.agg.answer toKey keep) msgs hok.send hok.mask
    rw [hr] at hrefresh
    obtain ⟨hmsgs, hsend, hmask, hann⟩ := hrefresh
    dsimp only at hmsgs hsend hmask hann
    rw [← hmsgs] at hmask
    rcases hok.recv with hnil | hone
    · rw [hnil, announce_nil] at hann
      obtain ⟨hrecv, rfl⟩ := Prod.mk.inj hann
      rw [become_quiet]
      refine h.still hc ⟨hsend, .inl hrecv, fun _ => hmask⟩ fun hm => ?_
      rw [hnil] at hmember
      exact absurd (hmember hm) (List.cons_ne_nil _ _).symm
    rw [hone] at hann
    by_cases hsame : chan.msgs = [] ↔ msgs = []
    · -- no one is told
      rw [announce_level _ hsame] at hann
      obtain ⟨hrecv, rfl⟩ := Prod.mk.inj hann
      rw [become_quiet]
      exact h.still hc ⟨hsend, .inr hrecv, fun _ => hmask⟩ fun _ => ⟨hrecv, by rw [hmsgs]; exact (not_congr hsame).symm⟩
    -- the aggregator is told, and stays the monitor of the channel if that is a member
    have hapart := ha chan hc (hturns.2 hsame)
    obtain ⟨action, haction, hcall⟩ := announce_turn (w.agg.answer toKey keep) hsame [UInt32.ofNat c]
    rw [hcall] at hann
    by_cases hm : c ∈ w.agg.channels
    · have hin : toKey (UInt32.ofNat c) ∈ w.agg.subscriptions := (h.sets.subscriptions _).2 ⟨c, hm, rfl⟩
      have hopen : w.agg.closed = false := by
        by_contra hclosed
        rw [h.sets.shut (by simpa using hclosed)] at hm
        cases hm
      have hstays : w.agg.answer toKey keep ⟨UInt32.ofNat c, .readable, action⟩ = true := by
        unfold Aggregator.answer
        rw [notify_member keep hin hopen]
      simp only [notifyMonitors, List.filter_singleton, hstays, List.map_cons, List.map_nil] at hann
      obtain ⟨hrecv, rfl⟩ := Prod.mk.inj hann
      rw [become_member keep w c chan' action hin hopen]
      have hok' : ChanOk c chan' := ⟨hsend, .inr hrecv, fun _ => hmask⟩
      refine h.turn keep hopen ⟨rfl, rfl, rfl⟩ ?_
      rcases haction with ⟨rfl, hold, hnew⟩ | ⟨rfl, hold, hnew⟩
      · exact h.sets.rise hc hm hok' hrecv (hmsgs ▸ hnew)
      · exact h.sets.fall hc hok' hrecv (hmsgs.trans hnew) fun d hd hdc hh => hapart d hd hdc fun _ => ⟨hold, hh⟩
    · have hout : toKey (UInt32.ofNat c) ∉ w.agg.subscriptions := by
        intro hin
        obtain ⟨d, hd, hkey⟩ := (h.sets.subscriptions _).1 hin
        have hdc : d ≠ c := fun he => hm (he ▸ hd)
        exact hapart d hd hdc (fun hc => absurd hc hm) hkey
      have hleaves : w.agg.answer toKey keep ⟨UInt32.ofNat c, .readable, action⟩ = false := by
        unfold Aggregator.answer
        rw [notify_stranger keep (.inl hout)]
      simp only [notifyMonitors, List.filter_singleton, hleaves, List.map_cons, List.map_nil] at hann
      obtain ⟨hrecv, rfl⟩ := Prod.mk.inj hann
      rw [become_stranger keep w c chan' (.inl hout)]
      exact h.still hc ⟨hsend, .inl hrecv, fun _ => hmask⟩ fun hc => absurd hc hm

/-- **`channel`.** -/
theorem Inv.channel (h : Inv toKey w) {k : κ} {chancap : ℕ} {r : Option ℕ}
    (he : channel toKey keep w k chancap = .ok (w', r)) : Inv toKey w' := by
  unfold EventAggregator.channel at he
  cases hk : w.agg.index k with
  | some c =>
    rw [hk] at he
    obtain ⟨rfl, -⟩ := Prod.mk.inj (Except.ok.inj he)
    exact h
  | none =>
    rw [hk] at he
    dsimp only at he
    by_cases hclosed : w.agg.closed = true
    · rw [if_pos hclosed] at he
      obtain ⟨rfl, -⟩ := Prod.mk.inj (Except.ok.inj he)
      exact h
    rw [if_neg hclosed] at he
    by_cases hcap : chancap = 0
    · rw [eventChannel, if_pos hcap] at he
      cases he
    rw [eventChannel, if_neg hcap] at he
    -- a new channel is writable only, so that no one is told
    have hquiet : ChanState.readable ∉ ({.writable} : Mask) := by decide
    simp only [bind, Except.bind, if_neg hquiet] at he
    obtain ⟨rfl, -⟩ := Prod.mk.inj (Except.ok.inj he)
    have hrecv : (Evchan.addMonitor (⟨true, chancap, false, [], [], [], {.writable}⟩ : EventChannel UInt32 α)
        w.agg.lastKey {.readable}).1.recvMonitors = [UInt32.ofNat w.chans.length] := by
      rw [← h.sets.lastKey]
      rfl
    have hmask : ChanState.readable ∈ ({.writable} : Mask) ↔ ([] : List α) ≠ [] :=
      ⟨fun hin => absurd hin hquiet, fun hne => absurd rfl hne⟩
    exact ⟨h.sets.add (by simpa using hclosed) hk ⟨rfl, .inr hrecv, fun _ => hmask⟩ hrecv rfl, h.clients⟩

/-- **`remove`.** -/
theorem Inv.remove (h : Inv toKey w) {k : κ} (ha : Apart toKey (.remove k keep : Event κ α) w) :
    Inv toKey (remove toKey keep w k) := by
  unfold EventAggregator.remove
  cases hk : w.agg.index k with
  | none => exact h
  | some c =>
    obtain ⟨hm, hkey⟩ := h.sets.index k c hk
    have hopen : w.agg.closed = false := by
      by_contra hclosed
      rw [h.sets.shut (by simpa using hclosed)] at hm
      cases hm
    -- the sets without the channel, the readable ones apart
    set agg₀ : Aggregator κ := { w.agg with
      index := update w.agg.index k none
      channels := w.agg.channels.filter (· ≠ c)
      keyMap := update w.agg.keyMap k none
      subscriptions := w.agg.subscriptions.erase (keyOf toKey c) } with hagg₀
    have hinv : Inv toKey (World.tell keep { w with chans := w.chans } (agg₀.turn keep (agg₀.readable.erase (keyOf toKey c)))) :=
      h.turn keep hopen ⟨rfl, rfl, rfl⟩ (h.sets.remove hk (ha c hk))
    rw [turn_erase] at hinv
    dsimp only
    rw [hkey, Option.getD_some]
    by_cases hfall : w.agg.readable ≠ ∅ ∧ w.agg.readable.erase (toKey (UInt32.ofNat c)) = ∅
    · rw [if_pos (show agg₀.readable ≠ ∅ ∧ agg₀.readable.erase (keyOf toKey c) = ∅ from hfall)] at hinv
      rw [if_pos hfall]
      exact hinv
    · rw [if_neg (show ¬(agg₀.readable ≠ ∅ ∧ agg₀.readable.erase (keyOf toKey c) = ∅) from hfall)] at hinv
      rw [if_neg hfall]
      simp only [World.tell, List.append_nil, List.filter_nil] at hinv
      exact hinv

/-- **`add_monitor`.** -/
theorem Inv.addMonitor (h : Inv toKey w) (states : Mask) : Inv toKey (addMonitor w states).1 := by
  unfold EventAggregator.addMonitor
  by_cases hstates : .readable ∉ states
  · rwa [if_pos hstates]
  rw [if_neg hstates]
  by_cases hclosed : w.agg.closed = true
  · rwa [if_pos hclosed]
  rw [if_neg hclosed]
  refine ⟨h.sets.told _, ?_⟩
  have hadd := h.clients.add
  simp only [decide_eq_true_eq] at hadd
  exact hadd

theorem deliver_closed (hclosed : agg.closed = true) (n : List (Notification UInt32)) :
    agg.deliver toKey keep n = (agg, []) := by
  induction n with
  | nil => rfl
  | cons m n ih =>
    simp only [Aggregator.deliver, notify_stranger keep (.inr hclosed), ih, List.append_nil]

/-- **The channels are closed** by an aggregator that hears nothing any more. -/
theorem closeAll_spec (toKey : UInt32 → κ) (hclosed : w.agg.closed = true) (cs : List ℕ) :
    ∃ chans', closeAll toKey keep w cs = { w with chans := chans' } ∧ chans'.length = w.chans.length ∧
      ∀ (c : ℕ) (chan' : EventChannel UInt32 α), chans'[c]? = some chan' → ∃ chan, w.chans[c]? = some chan ∧
        (chan' = chan ∨ chan'.recvMonitors = [] ∧ chan'.sendMonitors = []) := by
  induction cs generalizing w with
  | nil => exact ⟨w.chans, rfl, rfl, fun c chan' hc => ⟨chan', hc, .inl rfl⟩⟩
  | cons d cs ih =>
    unfold closeAll
    cases hd : w.chans[d]? with
    | none => exact ih hclosed
    | some chan =>
      have hbecome : w.become toKey keep d (Evchan.close chan).1 (Evchan.close chan).2.1 =
          { w with chans := w.chans.set d (Evchan.close chan).1 } := by
        simp [World.become, World.tell, deliver_closed keep hclosed]
      dsimp only
      rw [hbecome]
      obtain ⟨chans', hrun, hlen, hchans⟩ := ih (w := { w with chans := w.chans.set d (Evchan.close chan).1 }) hclosed
      refine ⟨chans', hrun, hlen.trans List.length_set, fun c chan' hc => ?_⟩
      obtain ⟨chan₁, h₁, hor⟩ := hchans c chan' hc
      by_cases hcd : c = d
      · subst hcd
        have hlt := (List.getElem?_eq_some_iff.1 hd).1
        dsimp only at h₁
        rw [List.getElem?_set_self hlt] at h₁
        obtain rfl := Option.some.inj h₁
        refine ⟨chan, hd, .inr ?_⟩
        rcases hor with rfl | hor
        · exact ⟨rfl, rfl⟩
        · exact hor
      · dsimp only at h₁
        rw [List.getElem?_set_ne (Ne.symm hcd)] at h₁
        exact ⟨chan₁, h₁, hor⟩

/-- **`close`.** -/
theorem Inv.close (h : Inv toKey w) (hi : Idle (.close keep : Event κ α) w) : Inv toKey (close toKey keep w) := by
  obtain ⟨chans', hrun, hlen, hchans⟩ := closeAll_spec keep toKey
    (w := { w with agg := { w.agg with closed := true, notifiers := [], channels := [] } }) rfl w.agg.channels
  unfold EventAggregator.close
  dsimp only
  rw [hrun]
  refine ⟨⟨?_, ?_, nofun, nofun, nofun, ?_, ?_, fun _ => rfl⟩, ?_⟩
  · dsimp only at hlen ⊢
    rw [hlen]
    exact h.sets.lastKey
  · intro c chan' hc
    obtain ⟨chan, hchan, hor⟩ := hchans c chan' hc
    rcases hor with rfl | ⟨hrecv, hsend⟩
    · exact h.sets.chan c _ hchan
    · exact ⟨hsend, .inl hrecv, fun hne => absurd hrecv hne⟩
  · intro a
    simp
  · intro a
    simp
  · have hlow : (∀ c ∈ w.agg.channels, ¬Holds w.chans c) → decide (w.agg.readable ≠ ∅) = false := by
      intro hno
      rw [decide_eq_false_iff_not, not_not, Finset.eq_empty_iff_forall_notMem]
      intro a hin
      obtain ⟨c, hc, hh, -⟩ := (h.sets.readable a).1 hin
      exact hno c hc hh
    refine h.clients.drop ?_ keep
    rcases hi with hno | hnil
    · exact .inl (hlow hno)
    · by_cases hclosed : w.agg.closed = true
      · refine .inl (hlow ?_)
        rw [h.sets.shut hclosed]
        exact nofun
      · exact .inr ⟨by simpa using hclosed, hnil⟩

theorem step_channel {k : κ} {chancap : ℕ} (hs : World.step toKey (.channel k chancap keep) w = some w') :
    w' = w ∨ ∃ r, EventAggregator.channel toKey keep w k chancap = .ok (w', r) := by
  simp only [World.step] at hs
  split at hs
  · rename_i w₁ r he
    obtain rfl := Option.some.inj hs
    exact .inr ⟨r, he⟩
  · exact .inl (Option.some.inj hs).symm

theorem step_use {u : Use α} (hs : World.step toKey (.use c u keep) w = some w') :
    ∃ chan chan' n r, w.chans[c]? = some chan ∧ u.run (w.agg.answer toKey keep) chan = .ok (chan', n, r) ∧
      w' = w.become toKey keep c chan' n := by
  obtain ⟨chan, hc, hs⟩ := Option.bind_eq_some_iff.1 hs
  split at hs
  · rename_i chan' n r he
    exact ⟨chan, chan', n, r, hc, he, (Option.some.inj hs).symm⟩
  · cases hs

/-- **One call keeps the invariant.** -/
theorem Inv.step (h : Inv toKey w) {e : Event κ α} (ha : Apart toKey e w) (hi : Idle e w)
    (hs : World.step toKey e w = some w') : Inv toKey w' := by
  cases e with
  | channel k chancap keep =>
    rcases step_channel keep hs with rfl | ⟨r, he⟩
    · exact h
    · exact h.channel keep he
  | remove k keep =>
    obtain rfl := Option.some.inj hs
    exact h.remove keep ha
  | use c u keep =>
    obtain ⟨chan, chan', n, r, hc, hrun, rfl⟩ := step_use keep hs
    exact h.use keep hc hrun ha
  | addMonitor states =>
    obtain rfl := Option.some.inj hs
    exact h.addMonitor states
  | close keep =>
    obtain rfl := Option.some.inj hs
    exact h.close keep hi

/-! ## Every run -/

theorem inv_start : Inv toKey (World.start : World κ α) := by
  refine ⟨⟨rfl, nofun, nofun, nofun, nofun, ?_, ?_, nofun⟩, ⟨List.nodup_nil, nofun, nofun, nofun, nofun⟩⟩
  · intro a
    simp [World.start]
  · intro a
    simp [World.start]

/-- The aggregator is readable when a member has an event. Every client that did not ask to be removed heard the edges
from the level it was told first to the one that it has now, rising and falling by turns. -/
structure Right (w : World κ α) : Prop where
  readable : w.agg.readable ≠ ∅ ↔ ∃ c ∈ w.agg.channels, Holds w.chans c
  edges : ∀ i m, w.registered[i]? = some m → (∀ n ∈ w.removed, n.notifier ≠ i) →
    Alternates (decide (.readable ∈ m)) (heard w.log i .readable) (decide (w.agg.readable ≠ ∅))

theorem Inv.right (h : Inv toKey w) : Right w := by
  refine ⟨?_, h.clients.heard⟩
  rw [← Finset.nonempty_iff_ne_empty]
  constructor
  · rintro ⟨a, ha⟩
    obtain ⟨c, hc, hh, -⟩ := (h.sets.readable a).1 ha
    exact ⟨c, hc, hh⟩
  · rintro ⟨c, hc, hh⟩
    exact ⟨keyOf toKey c, (h.sets.readable _).2 ⟨c, hc, hh, rfl⟩⟩

theorem notify_keeps_closed (agg : Aggregator κ) (key : UInt32) (events : Mask) (action : Action) :
    (agg.notify toKey keep key events action).1.1.closed = agg.closed := by
  unfold Aggregator.notify Aggregator.invokeNotifiers
  dsimp only
  split_ifs <;> rfl

theorem deliver_keeps_closed (n : List (Notification UInt32)) :
    (agg.deliver toKey keep n).1.closed = agg.closed := by
  induction n generalizing agg with
  | nil => rfl
  | cons m n ih => exact (ih ..).trans (notify_keeps_closed keep agg ..)

theorem channel_keeps_closed {k : κ} {chancap : ℕ} {p : World κ α × Option ℕ}
    (he : channel toKey keep w k chancap = .ok p) : p.1.agg.closed = w.agg.closed := by
  unfold EventAggregator.channel at he
  cases hk : w.agg.index k with
  | some c =>
    rw [hk] at he
    obtain rfl := Except.ok.inj he
    rfl
  | none =>
    rw [hk] at he
    dsimp only at he
    by_cases hclosed : w.agg.closed = true
    · rw [if_pos hclosed] at he
      obtain rfl := Except.ok.inj he
      rfl
    rw [if_neg hclosed] at he
    cases hnew : eventChannel (ι := UInt32) (α := α) chancap true with
    | error x =>
      rw [hnew] at he
      cases he
    | ok chan =>
      rw [hnew] at he
      simp only [bind, Except.bind] at he
      split_ifs at he
      · obtain rfl := Except.ok.inj he
        exact notify_keeps_closed keep ..
      · obtain rfl := Except.ok.inj he
        rfl

/-- An aggregator that is open was open before, and was not closed. -/
theorem open_before {e : Event κ α} (hs : World.step toKey e w = some w') (hopen : w'.agg.closed = false) :
    w.agg.closed = false ∧ Idle e w := by
  cases e with
  | channel k chancap keep =>
    refine ⟨?_, trivial⟩
    rcases step_channel keep hs with rfl | ⟨r, he⟩
    · exact hopen
    · exact (channel_keeps_closed keep he).symm.trans hopen
  | remove k keep =>
    obtain rfl := Option.some.inj hs
    refine ⟨?_, trivial⟩
    unfold EventAggregator.remove Aggregator.invokeNotifiers World.tell at hopen
    dsimp only at hopen
    split at hopen
    · exact hopen
    · split_ifs at hopen <;> exact hopen
  | use c u keep =>
    obtain ⟨chan, chan', n, r, -, -, rfl⟩ := step_use keep hs
    exact ⟨(deliver_keeps_closed keep n).symm.trans hopen, trivial⟩
  | addMonitor states =>
    obtain rfl := Option.some.inj hs
    refine ⟨?_, trivial⟩
    unfold EventAggregator.addMonitor at hopen
    split_ifs at hopen <;> exact hopen
  | close keep =>
    obtain rfl := Option.some.inj hs
    obtain ⟨chans', hrun, -, -⟩ := closeAll_spec keep toKey
      (w := { w with agg := { w.agg with closed := true, notifiers := [], channels := [] } }) rfl w.agg.channels
    unfold EventAggregator.close at hopen
    dsimp only at hopen
    rw [hrun] at hopen
    cases hopen

/-- **The readability of an aggregator, and what its clients hear of it.** -/
theorem right_of_apart (toKey : UInt32 → κ) :
    (∀ w : World κ α, Reaches (World.step toKey) (fun e w => Apart toKey e w ∧ Idle e w) World.start w → Right w) ∧
      ∀ w : World κ α, Reaches (World.step toKey) (Apart toKey) World.start w → w.agg.closed = false → Right w := by
  constructor
  · intro w h
    have hinv := h.invariant (I := Inv toKey) (fun e w w' hi hc hs => hi.step hc.1 hc.2 hs) inv_start
    exact hinv.right
  · intro w h hopen
    have hinv := h.invariant (I := fun w => w.agg.closed = false → Inv toKey w)
      (fun e w w' hi hc hs hopen => (hi (open_before hs hopen).1).step hc (open_before hs hopen).2 hs) fun _ => inv_start
    exact (hinv hopen).right

/-! ## Runs that can be evaluated -/

instance (u : Use α) (msgs : List α) : Decidable (u.Turns msgs) :=
  match u with
  | .tryPush _ => inferInstanceAs (Decidable (msgs = []))
  | .tryGet => inferInstanceAs (Decidable (msgs.length = 1))
  | .getAll => inferInstanceAs (Decidable (msgs ≠ []))
  | .clear => inferInstanceAs (Decidable (msgs ≠ []))

instance : Decidable (Holds chans c) := inferInstanceAs (Decidable (∃ chan ∈ chans[c]?, chan.msgs ≠ []))

instance (e : Event κ α) (w : World κ α) : Decidable (Apart toKey e w) :=
  match e with
  | .channel .. => isTrue trivial
  | .remove k _ => inferInstanceAs (Decidable (∀ c ∈ w.agg.index k, ∀ d ∈ w.agg.channels, d ≠ c → keyOf toKey d ≠ keyOf toKey c))
  | .use c u _ => inferInstanceAs (Decidable (∀ chan ∈ w.chans[c]?, u.Turns chan.msgs → ∀ d ∈ w.agg.channels, d ≠ c →
      (c ∈ w.agg.channels → chan.msgs ≠ [] ∧ Holds w.chans d) → keyOf toKey d ≠ keyOf toKey c))
  | .addMonitor _ => isTrue trivial
  | .close _ => isTrue trivial

omit [DecidableEq κ] in
instance (e : Event κ α) (w : World κ α) : Decidable (Idle e w) :=
  match e with
  | .channel .. => isTrue trivial
  | .remove .. => isTrue trivial
  | .use .. => isTrue trivial
  | .addMonitor _ => isTrue trivial
  | .close _ => inferInstanceAs (Decidable ((∀ c ∈ w.agg.channels, ¬Holds w.chans c) ∨ w.agg.notifiers = []))

/-- Two channels, one of them removed with an event in it, and a client. -/
def removal (keep : Notification ℕ → Bool) : List (Event UInt32 ℕ) :=
  [.channel 5 4 keep, .channel 9 4 keep, .addMonitor {.readable}, .use 0 (.tryPush 7) keep, .use 1 (.tryPush 8) keep,
    .use 0 .tryGet keep, .remove 9 keep]

theorem right_of_apart_seven :
    (∃ w : World UInt32 ℕ, w.agg.closed = true ∧ w.log.length = 3 ∧ Right w) ∧
      ∃ w : World UInt32 ℕ, w.agg.closed = false ∧ w.agg.channels = [0] ∧ Right w := by
  constructor
  · obtain ⟨w, hreach, hclosed, hlog⟩ : ∃ w : World UInt32 ℕ,
        Reaches (World.step id) (fun e w => Apart id e w ∧ Idle e w) World.start w ∧
          w.agg.closed = true ∧ w.log.length = 3 :=
      exists_of_checked (removal (fun _ => true) ++ [.close fun _ => true]) (by decide +kernel)
    exact ⟨w, hclosed, hlog, (right_of_apart id).1 w hreach⟩
  · obtain ⟨w, hreach, hopen, hchannels⟩ : ∃ w : World UInt32 ℕ,
        Reaches (World.step id) (Apart id) World.start w ∧ w.agg.closed = false ∧ w.agg.channels = [0] :=
      exists_of_checked (removal fun _ => true) (by decide +kernel)
    exact ⟨w, hopen, hchannels, (right_of_apart id).2 w hreach hopen⟩

/-- With keys of one byte the 257th channel goes by the key of the first. -/
theorem bytes_collide : ∃ w : World UInt8 ℕ, Reaches (World.step UInt32.toUInt8) Free World.start w ∧
    w.agg.readable = ∅ ∧ ∃ c ∈ w.agg.channels, Holds w.chans c :=
  exists_of_events
    ([.channel 0 4 fun _ => true] ++
      (List.replicate 255 [.channel 1 4 fun _ => true, .remove 1 fun _ => true]).flatten ++
      [.channel 2 4 fun _ => true, .use 0 (.tryPush 7) fun _ => true, .use 256 (.tryPush 8) fun _ => true,
        .use 0 .tryGet fun _ => true])
    (by decide +kernel)

end Libtarp.EventAggregator
