import Libtarp.Lib.Run
import Libtarp.Signal.Count

/-!
# Monosignals

A `monosignal` has one observer at most. It looks at the token of its observer whenever it is used, and removes an
observer whose token is gone.

* `Monosignal.exec`: the calls, with what they return.
* `tally`: the callbacks that are connected, by what the calls returned.
* `Monosignal.Single`: no more than one of them is, the monosignal accepts another when none is, and it calls the one
  that is.
* `counts_iff`: this for monosignals, and for signals when they count their callbacks right.
-/

namespace Libtarp.Signal

open Function Lib

variable {A R O : Type}

/-- `monosignal`, with the tokens and the connections it gave. -/
structure Monosignal where
  observer : Option Observer
  count : ℕ
  valid : ℕ → Bool
  /-- `m_token` of the connection is not null. -/
  linked : ℕ → Bool

namespace Monosignal

def new : Monosignal where
  observer := none
  count := 0
  valid _ := false
  linked _ := false

/-- `check`, with the validity of the token that it gives. The one of a detached observer is a new one. -/
def check (m : Monosignal) (it : Observer) : Option Bool :=
  if it.detached then some true
  else if m.linked it.number then some (m.valid it.number)
  else none

/-- The observer is removed if the link to it is broken, or its token is not valid. -/
def removeBroken (m : Monosignal) : Monosignal :=
  match m.observer with
  | none => m
  | some it => if m.check it = some true then m else { m with observer := none }

/-- `register_observer`: the number of the connection. -/
def registerObserver (detached : Bool) (m : Monosignal) : Monosignal × Except String ℕ :=
  let m := m.removeBroken
  if m.observer.isSome then (m, .error "Illegal attempt at more than 1 connection to monosignal")
  else
    ({ observer := some ⟨m.count, detached⟩
       count := m.count + 1
       valid := update m.valid m.count true
       linked := update m.linked m.count true }, .ok m.count)

/-- `connection::disconnect`. -/
def disconnect (number : ℕ) (m : Monosignal) : Monosignal :=
  if m.linked number then { m with valid := update m.valid number false, linked := update m.linked number false } else m

/-- `connect`. -/
def connect (m : Monosignal) : Monosignal × Except String ℕ := m.registerObserver false

/-- `connect_detached`. The connection that is made is disconnected at once. -/
def connectDetached (m : Monosignal) : Monosignal × Except String ℕ :=
  match m.registerObserver true with
  | (m, .error what) => (m, .error what)
  | (m, .ok number) => (m.disconnect number, .ok number)

/-- `connected`. -/
def connected (m : Monosignal) : Monosignal × Bool := (m.removeBroken, m.removeBroken.observer.isSome)

end Monosignal

/-- `tarp::reduce::last`. -/
def last [Inhabited O] : Reducer O O O where
  initial := default
  process _ value := value
  get value := value

/-- `emit`: the call of the callback, which returns `result`, and the output. -/
def Monosignal.emit [Inhabited O] (convert : R → O) (params : A) (result : R) (m : Monosignal) :
    Monosignal × Option (Call A R) × O :=
  let m := m.removeBroken
  match m.observer with
  | none => (m, none, last.get last.initial)
  | some it => (m, some ⟨it.number, params, result⟩, convert result)

/-- The calls to a monosignal and its connections. -/
inductive Ask (A R : Type)
  | connect
  | connectDetached
  | disconnect (number : ℕ)
  | emit (params : A) (result : R)
  | connected

/-- What they return. Also the connection of a detached callback has a number. -/
inductive Answer (A R O : Type)
  | registered (number : ℕ)
  | threw (what : String)
  | disconnected
  | emitted (call : Option (Call A R)) (output : O)
  | connected (answer : Bool)

def Answer.ofRegistered : Except String ℕ → Answer A R O
  | .ok number => .registered number
  | .error what => .threw what

/-- No call faults: an exception is an answer. -/
def Monosignal.exec [Inhabited O] (convert : R → O) (ask : Ask A R) (m : Monosignal) :
    Except Empty (Monosignal × Answer A R O) :=
  match ask with
  | .connect => .ok (m.connect.1, .ofRegistered m.connect.2)
  | .connectDetached => .ok (m.connectDetached.1, .ofRegistered m.connectDetached.2)
  | .disconnect number => .ok (m.disconnect number, .disconnected)
  | .emit params result =>
    let (m, call, output) := m.emit convert params result
    .ok (m, .emitted call output)
  | .connected => .ok (m.connected.1, .connected m.connected.2)

/-- The callbacks that are connected: from when they are registered until their connection is disconnected. -/
def tally (ask : Ask A R) (answer : Answer A R O) (live : List Observer) : List Observer :=
  match ask, answer with
  | .connect, .registered number => live ++ [⟨number, false⟩]
  | .connectDetached, .registered number => live ++ [⟨number, true⟩]
  | .disconnect number, _ => live.filter (· ≠ ⟨number, false⟩)
  | _, _ => live

/-- One callback is connected at most. While one is, connecting another throws and changes nothing; while none is, it
succeeds. `connected` tells whether `emit` would call one. -/
structure Monosignal.Single (m : Monosignal) (live : List Observer) : Prop where
  atMostOne : live.length ≤ 1
  throws : live ≠ [] → ∀ detached,
    m.registerObserver detached = (m, .error "Illegal attempt at more than 1 connection to monosignal")
  succeeds : live = [] → ∀ detached, (m.registerObserver detached).2 = .ok m.count
  connected : m.connected.2 = !live.isEmpty
  emit {A R O : Type} [Inhabited O] (convert : R → O) (params : A) (result : R) :
    (m.emit convert params result).2.1 = live.head?.map fun it => ⟨it.number, params, result⟩

/-- What the tokens say of the callbacks that are connected. -/
structure Monosignal.Holds (m : Monosignal) (live : List Observer) : Prop where
  observer : m.removeBroken.observer.toList = live
  linked : ∀ n, m.linked n = true ↔ ⟨n, false⟩ ∈ live
  valid : ∀ n, m.linked n = true → m.valid n = true

variable {m : Monosignal} {live : List Observer}

/-! ## The calls -/

namespace Monosignal

/-- The tokens are left alone. -/
theorem removeBroken_eq (m : Monosignal) : m.removeBroken = { m with observer := m.removeBroken.observer } := by
  unfold removeBroken
  split
  · rfl
  · split_ifs <;> rfl

theorem check_linked {n : ℕ} (hlinked : m.linked n = true) (hvalid : m.valid n = true) :
    m.check ⟨n, false⟩ = some true := by
  unfold check
  rw [if_neg Bool.false_ne_true, if_pos hlinked, hvalid]

theorem check_gone {n : ℕ} (hgone : m.linked n = false) : m.check ⟨n, false⟩ = none := by
  unfold check
  rw [if_neg Bool.false_ne_true, if_neg (Bool.eq_false_iff.mp hgone)]

theorem removeBroken_of_none (h : m.observer = none) : m.removeBroken = m := by
  unfold removeBroken
  rw [h]

theorem removeBroken_of_check {it : Observer} (h : m.observer = some it) (hcheck : m.check it = some true) :
    m.removeBroken = m := by
  unfold removeBroken
  rw [h]
  exact if_pos hcheck

theorem removeBroken_of_broken {it : Observer} (h : m.observer = some it) (hcheck : m.check it ≠ some true) :
    m.removeBroken.observer = none := by
  unfold removeBroken
  rw [h]
  dsimp only
  rw [if_neg hcheck]

/-- An observer that is left was there before. -/
theorem removeBroken_of_some {it : Observer} (h : m.removeBroken.observer = some it) : m.removeBroken = m := by
  unfold removeBroken at h ⊢
  split
  · rfl
  · rename_i hobserver
    rw [hobserver] at h
    dsimp only at h
    split_ifs at h ⊢
    rfl

/-- Nothing more is removed the second time. -/
theorem removeBroken_removeBroken (m : Monosignal) : m.removeBroken.removeBroken = m.removeBroken := by
  cases h : m.removeBroken.observer with
  | none => exact removeBroken_of_none h
  | some it =>
    have hsame := removeBroken_of_some h
    rw [hsame, hsame]

theorem Holds.removeBroken (h : m.Holds live) : m.removeBroken.Holds live := by
  refine ⟨by rw [removeBroken_removeBroken]; exact h.observer, ?_, ?_⟩
  · rw [removeBroken_eq]
    exact h.linked
  · rw [removeBroken_eq]
    exact h.valid

theorem Holds.none (h : m.Holds []) : m.removeBroken.observer = none := Option.toList_eq_nil_iff.mp h.observer

theorem Holds.some {it : Observer} (h : m.Holds [it]) : m.removeBroken.observer = some it :=
  Option.toList_eq_singleton_iff.mp h.observer

/-- No callback is connected, or one is. -/
theorem Holds.eq_nil_or (h : m.Holds live) : live = [] ∨ ∃ it, live = [it] := by
  rw [← h.observer]
  cases m.removeBroken.observer with
  | none => exact Or.inl rfl
  | some it => exact Or.inr ⟨it, rfl⟩

theorem Holds.register_nil (h : m.Holds []) (detached : Bool) : m.registerObserver detached =
    ({ observer := Option.some ⟨m.count, detached⟩
       count := m.count + 1
       valid := update m.valid m.count true
       linked := update m.linked m.count true }, .ok m.count) := by
  unfold registerObserver
  dsimp only
  rw [h.none, if_neg (by decide), removeBroken_eq]

theorem Holds.register_cons {it : Observer} (h : m.Holds [it]) (detached : Bool) :
    m.registerObserver detached = (m, .error "Illegal attempt at more than 1 connection to monosignal") := by
  unfold registerObserver
  dsimp only
  rw [h.some, removeBroken_of_some h.some]
  rfl

theorem Holds.single (h : m.Holds live) : m.Single live := by
  rcases h.eq_nil_or with rfl | ⟨it, rfl⟩
  · refine ⟨Nat.zero_le _, fun hne => absurd rfl hne, fun _ detached => ?_, ?_, fun convert params result => ?_⟩
    · rw [h.register_nil]
    · unfold connected
      rw [h.none]
      rfl
    · unfold emit
      dsimp only
      rw [h.none]
      rfl
  · refine ⟨Nat.le_refl _, fun _ => h.register_cons, nofun, ?_, fun convert params result => ?_⟩
    · unfold connected
      rw [h.some]
      rfl
    · unfold emit
      dsimp only
      rw [h.some]
      rfl

/-- A callback is connected. -/
theorem Holds.connect (h : m.Holds []) : (m.registerObserver false).1.Holds [⟨m.count, false⟩] := by
  rw [h.register_nil]
  have hlinked : ∀ n, update m.linked m.count true n = true ↔ n = m.count := by
    intro n
    by_cases hn : n = m.count
    · rw [hn, update_self, eq_self, eq_self]
    · rw [update_of_ne hn, h.linked]
      exact iff_of_false List.not_mem_nil hn
  refine ⟨?_, fun n => ?_, fun n hn => ?_⟩
  · rw [removeBroken_of_check rfl (check_linked (update_self ..) (update_self ..))]
    rfl
  · rw [List.mem_singleton, Observer.mk.injEq, and_iff_left rfl]
    exact hlinked n
  · rw [(hlinked n).mp hn]
    exact update_self ..

/-- A callback is connected for good: its token is given up, and none is needed. -/
theorem Holds.connectDetached (h : m.Holds []) :
    ((m.registerObserver true).1.disconnect m.count).Holds [⟨m.count, true⟩] := by
  have hgiven : (m.registerObserver true).1.linked m.count = true := by
    rw [h.register_nil]
    exact update_self ..
  unfold Monosignal.disconnect
  rw [if_pos hgiven, h.register_nil]
  dsimp only
  rw [update_idem, update_idem]
  -- an observer that is detached is kept although no token is linked any more
  have hlinked : ∀ n, update m.linked m.count false n = false := by
    intro n
    by_cases hn : n = m.count
    · rw [hn, update_self]
    · rw [update_of_ne hn, Bool.eq_false_iff, ne_eq, h.linked]
      exact List.not_mem_nil
  refine ⟨rfl, fun n => ?_, fun n hn => ?_⟩
  · dsimp only
    rw [hlinked, List.mem_singleton, Observer.mk.injEq]
    exact iff_of_false Bool.false_ne_true fun heq => Bool.false_ne_true heq.2
  · dsimp only at hn
    rw [hlinked] at hn
    cases hn

/-- The callback of the connection is not connected any more. -/
theorem Holds.disconnect (h : m.Holds live) (n : ℕ) : (m.disconnect n).Holds (live.filter (· ≠ ⟨n, false⟩)) := by
  unfold Monosignal.disconnect
  cases hlinked : m.linked n with
  | false =>
    rw [if_neg Bool.false_ne_true, List.filter_eq_self.mpr]
    · exact h
    · intro it hit
      rw [decide_eq_true_iff]
      rintro rfl
      rw [(h.linked n).mpr hit] at hlinked
      cases hlinked
  | true =>
    have hmem := (h.linked n).mp hlinked
    -- the connection is that of the only callback there is
    obtain rfl : live = [⟨n, false⟩] := by
      rcases h.eq_nil_or with rfl | ⟨it, rfl⟩
      · exact absurd hmem List.not_mem_nil
      · rw [List.mem_singleton.mp hmem]
    have hother : ∀ k, update m.linked n false k = false := by
      intro k
      by_cases hk : k = n
      · rw [hk, update_self]
      · rw [update_of_ne hk, Bool.eq_false_iff, ne_eq, h.linked, List.mem_singleton]
        exact fun heq => hk (Observer.mk.inj heq).1
    have hobserver : m.observer = Option.some ⟨n, false⟩ := by
      rw [← removeBroken_of_some h.some]
      exact h.some
    rw [if_pos rfl]
    refine ⟨?_, fun k => ?_, fun k hk => ?_⟩
    · rw [removeBroken_of_broken (m := { m with valid := update m.valid n false, linked := update m.linked n false })
        hobserver (by rw [check_gone (hother n)]; exact nofun)]
      refine (List.filter_eq_nil_iff.mpr fun it hit => ?_).symm
      rw [List.mem_singleton.mp hit, decide_eq_true_iff, not_not]
    · dsimp only
      rw [hother]
      refine iff_of_false Bool.false_ne_true fun hk => ?_
      obtain ⟨hk, hne⟩ := List.mem_filter.mp hk
      exact of_decide_eq_true hne (List.mem_singleton.mp hk)
    · dsimp only at hk
      rw [hother] at hk
      cases hk

variable [Inhabited O]

theorem emit_eq (convert : R → O) (params : A) (result : R) : ∃ (call : Option (Call A R)) (output : O),
    m.emit convert params result = (m.removeBroken, call, output) := by
  unfold emit
  dsimp only
  split <;> exact ⟨_, _, rfl⟩

/-- A call keeps what the tokens say of the callbacks that are connected. -/
theorem Holds.exec (h : m.Holds live) (convert : R → O) (ask : Ask A R) : ∃ m' answer,
    Monosignal.exec convert ask m = .ok (m', answer) ∧ m'.Holds (tally ask answer live) := by
  cases ask with
  | connect =>
    refine ⟨_, _, rfl, ?_⟩
    unfold Monosignal.connect
    rcases h.eq_nil_or with rfl | ⟨it, rfl⟩
    · have hregistered := Holds.connect h
      rw [h.register_nil] at hregistered ⊢
      exact hregistered
    · rw [h.register_cons]
      exact h
  | connectDetached =>
    refine ⟨_, _, rfl, ?_⟩
    unfold Monosignal.connectDetached
    rcases h.eq_nil_or with rfl | ⟨it, rfl⟩
    · have hregistered := Holds.connectDetached h
      rw [h.register_nil] at hregistered ⊢
      exact hregistered
    · rw [h.register_cons]
      exact h
  | disconnect n => exact ⟨_, _, rfl, h.disconnect n⟩
  | emit params result =>
    obtain ⟨call, output, hemit⟩ := emit_eq (m := m) convert params result
    refine ⟨m.removeBroken, .emitted call output, ?_, h.removeBroken⟩
    unfold Monosignal.exec
    dsimp only
    rw [hemit]
  | connected => exact ⟨_, _, rfl, h.removeBroken⟩

theorem holds_new : new.Holds [] := ⟨rfl, fun _ => iff_of_false Bool.false_ne_true List.not_mem_nil, nofun⟩

/-- **Monosignals**: in every run, as the callbacks stand that the calls so far connected. -/
theorem single (convert : R → O) (asks : List (Ask A R)) :
    Simulates (Monosignal.exec convert) (fun ask live (answer : Answer A R O) live' => live' = tally ask answer live)
      Single asks new [] := by
  have hfree : Meets (Monosignal.exec convert) (fun _ _ => True) asks new := meets_free asks new
  refine simulates_of_step (fun _ => Holds) ?_ (fun _ _ _ h => h.single) holds_new hfree
  intro _ ask m live _ h _
  obtain ⟨m', answer, hexec, hholds⟩ := h.exec convert ask
  exact ⟨m', answer, _, hexec, rfl, hholds⟩

end Monosignal

/-- **Callbacks that are connected**: what a signal counts after the calls `h` is what its next `emit` calls if each
connection that was given up was given up before an `emit`, and then only; a monosignal knows in every run whether a
callback is connected. -/
theorem counts_iff [Inhabited A] [Inhabited R] [Inhabited O] {ρ : Type} (r : Reducer ρ R O) (moved : A → A)
    (convert : R → O) {h : List (Action A)} {s : World ρ A R O} (hdoes : Does r moved h s) :
    (s.CountRight r moved ↔ Swept h) ∧ ∀ asks : List (Ask A R), Simulates (Monosignal.exec convert)
      (fun ask live (answer : Answer A R O) live' => live' = tally ask answer live) Monosignal.Single asks
      Monosignal.new [] :=
  ⟨hdoes.count_right_iff, Monosignal.single convert⟩

theorem counts_iff_swept : ∃ s : World ℕ Unit ℕ ℕ, Does sum id [.connect, .disconnect 0, .emit ()] s ∧
    s.callbackCount = 0 ∧ (s.CountRight sum id ↔ Swept [.connect, .disconnect 0, .emit ()]) ∧
      ∀ asks : List (Ask Unit ℕ), Simulates (Monosignal.exec id)
        (fun ask live (answer : Answer Unit ℕ ℕ) live' => live' = tally ask answer live) Monosignal.Single asks
        Monosignal.new [] := by
  obtain ⟨s₁, h₁⟩ : ∃ s, Performs sum id .connect (World.new : World ℕ Unit ℕ ℕ) s := ⟨_, rfl⟩
  obtain ⟨s₂, h₂⟩ : ∃ s, Performs sum id (.disconnect 0) s₁ s := by
    obtain rfl := Option.some.inj h₁
    exact ⟨_, rfl⟩
  obtain ⟨s, h, hsize⟩ : ∃ s, Performs sum id (.emit ()) s₂ s ∧ s.callbackCount = 0 := by
    obtain rfl := Option.some.inj h₁
    obtain rfl := Option.some.inj h₂
    exact ⟨_, ⟨[0, 0], rfl, rfl⟩, rfl⟩
  have hdoes : Does sum id [.connect, .disconnect 0, .emit ()] s := .next (.next (.next .start h₁) h₂) h
  exact ⟨s, hdoes, hsize, counts_iff sum id id hdoes⟩

/-- A callback that is disconnected is counted, and is not called. -/
theorem disconnected_counted : ∃ s s' : World ℕ Unit ℕ ℕ, Does sum id [.connect, .disconnect 0] s ∧
    Performs sum id (.emit ()) s s' ∧ s.callbackCount = 1 ∧ s.empty = false ∧ s'.received = [] ∧
    ¬ s.CountRight sum id := by
  obtain ⟨s₁, h₁⟩ : ∃ s, Performs sum id .connect (World.new : World ℕ Unit ℕ ℕ) s := ⟨_, rfl⟩
  obtain ⟨s, h, hsize, s', hemit, hreceived⟩ : ∃ s, Performs sum id (.disconnect 0) s₁ s ∧ s.callbackCount = 1 ∧
      ∃ s', Performs sum id (.emit ()) s s' ∧ s'.received = [] := by
    obtain rfl := Option.some.inj h₁
    exact ⟨_, rfl, rfl, _, ⟨[0, 0], rfl, rfl⟩, rfl⟩
  have hempty : s.empty = false := by
    unfold World.empty
    rw [hsize]
    rfl
  refine ⟨s, s', .next (.next .start h₁) h, hemit, hsize, hempty, hreceived, fun hright => ?_⟩
  obtain ⟨hcount, -⟩ := hright () s' hemit
  rw [hsize, hreceived] at hcount
  cases hcount

end Libtarp.Signal
