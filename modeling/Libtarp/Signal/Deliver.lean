import Libtarp.Signal.EmitRuns
import Mathlib.Algebra.BigOperators.Group.List.Basic
import Mathlib.Algebra.GroupWithZero.Nat
import Mathlib.Data.List.Perm.Subperm

/-!
# What the callbacks of a signal are called with

`emit` forwards its parameters to every callback, and a callback that takes them by value leaves of them what moving
does.

* `Emission.Delivering`: the `i`-th callback is called with what is left after `i` moves.
* `World.Kept.calls`: every observer whose token is there and valid can be called.
* `same_args_iff`: the callbacks are all called with what was passed to `emit` if there is one of them at most, or moving
  leaves the parameters as they were.
-/

namespace Libtarp.Signal

open Function Lib

variable {ρ A R O : Type} {r : Reducer ρ R O} {moved : A → A}

/-- What the callback that runs was called with. -/
def Phase.args : Phase A → List A
  | .top | .holding _ => []
  | .calling _ args => [args]

def Phase.numbers : Phase A → List ℕ
  | .top | .holding _ => []
  | .calling it _ => [it.number]

/-- What the callbacks were called with so far. -/
def Emission.received (e : Emission ρ A R) : List A := e.calls.map Call.args ++ e.phase.args

def Emission.numbers (e : Emission ρ A R) : List ℕ := e.calls.map Call.number ++ e.phase.numbers

/-- What the callbacks were called with by the `emit` that is going on, or else by the last one. -/
def World.received (s : World ρ A R O) : List A :=
  match s.emission with
  | some e => e.received
  | none => (s.returned.getLast?.map fun f => f.calls.map Call.args).getD []

/-- The observer is connected: its token, if it needs one, is there and valid. -/
def World.connected (s : World ρ A R O) (it : Observer) : Bool :=
  it.detached || (s.alive it.number && s.valid it.number)

def World.live (s : World ρ A R O) : List Observer := s.observers.filter s.connected

/-- Another `emit` does not begin. -/
def NoEmit (event : Event A R) (_ : World ρ A R O) : Prop :=
  match event with
  | .emit _ => False
  | _ => True

/-- What is left of the parameters after so many moves, one after the other. -/
def leftovers (moved : A → A) (p : A) (n : ℕ) : List A := (List.range n).map fun i => moved^[i] p

/-! ## What is delivered -/

/-- How far the `emit` that began in `start` has come. -/
structure Emission.Delivering (moved : A → A) (p : A) (start s : World ρ A R O) (e : Emission ρ A R) : Prop where
  params : e.params = moved^[e.received.length] p
  args : e.received = leftovers moved p e.received.length
  numbers : ∀ n ∈ e.numbers, n ∈ start.live.map Observer.number
  observers : ∀ it ∈ s.observers, it ∈ start.observers
  valid : ∀ n, s.valid n = true → start.valid n = true
  alive : ∀ n, s.alive n = true → start.alive n = true
  holding : ∀ it, e.phase = .holding it → it ∈ s.observers ∧ (it.detached = true ∨ start.alive it.number = true)

/-- It goes on, or has returned. -/
def World.Delivering (moved : A → A) (p : A) (start s : World ρ A R O) : Prop :=
  match s.emission with
  | some e => e.Delivering moved p start s
  | none => ∃ f, s.returned.getLast? = some f ∧ f.calls.map Call.args = leftovers moved p f.calls.length ∧
      ∀ n ∈ f.calls.map Call.number, n ∈ start.live.map Observer.number

theorem leftovers_succ (p : A) (n : ℕ) : leftovers moved p (n + 1) = leftovers moved p n ++ [moved^[n] p] := by
  unfold leftovers
  rw [List.range_succ, List.map_append, List.map_singleton]

variable {start s s' : World ρ A R O} {e : Emission ρ A R} {p : A}

/-- Steps of `disconnect` make no token valid, and bring none back. -/
theorem Emission.Delivering.of_disconnect (h : e.Delivering moved p start s) (hobservers : s'.observers = s.observers)
    (hvalid : ∀ n, s'.valid n = true → s.valid n = true) (halive : ∀ n, s'.alive n = true → s.alive n = true) :
    e.Delivering moved p start s' where
  params := h.params
  args := h.args
  numbers := h.numbers
  observers := by rw [hobservers]; exact h.observers
  valid n hn := h.valid n (hvalid n hn)
  alive n hn := h.alive n (halive n hn)
  holding := by rw [hobservers]; exact h.holding

theorem alive_iff (s : World ρ A R O) (n : ℕ) :
    s.alive n = true ↔ s.linked n = true ∨ ∃ stage, (n, stage) ∈ s.pending := by
  unfold World.alive
  rw [Bool.or_eq_true, List.any_eq_true]
  refine or_congr_right ⟨?_, ?_⟩
  · rintro ⟨⟨m, stage⟩, hmem, hm⟩
    obtain rfl : m = n := of_decide_eq_true hm
    exact ⟨stage, hmem⟩
  · rintro ⟨stage, hmem⟩
    exact ⟨(n, stage), hmem, decide_eq_true rfl⟩

/-- A stage that is reached keeps a token that was there. -/
theorem alive_advance {number n : ℕ} {stage : Stage} (stage' : Stage) (hcall : (number, stage) ∈ s.pending)
    (h : (s.advance number stage stage').alive n = true) : s.alive n = true := by
  rw [alive_iff] at h ⊢
  refine h.imp_right fun ⟨st, hst⟩ => ?_
  rcases mem_advance hst with heq | hold
  · obtain ⟨rfl, -⟩ := Prod.mk.inj heq
    exact ⟨stage, hcall⟩
  · exact ⟨st, hold⟩

/-- A callback is called with the parameters as they are. -/
theorem Emission.Delivering.call {it : Observer} (h : e.Delivering moved p start s) (hphase : e.phase = .holding it)
    (hvalid : it.detached = true ∨ s.valid it.number = true) (trace : List Occurrence) :
    Emission.Delivering moved p start
      { s with emission := some { e with phase := .calling it e.params, params := moved e.params }, trace := trace }
      { e with phase := .calling it e.params, params := moved e.params } := by
  have hreceived : e.received = e.calls.map Call.args := by
    unfold Emission.received
    rw [hphase]
    exact List.append_nil _
  have hlength : (e.calls.map Call.args ++ [e.params]).length = e.received.length + 1 := by
    rw [hreceived, List.length_append, List.length_singleton]
  obtain ⟨hmem, hthere⟩ := h.holding it hphase
  refine ⟨?_, ?_, ?_, h.observers, h.valid, h.alive, nofun⟩
  · unfold Emission.received Phase.args
    rw [hlength, iterate_succ_apply', ← h.params]
  · unfold Emission.received Phase.args
    rw [hlength, leftovers_succ, ← h.args, ← h.params, hreceived]
  · have hnumbers := h.numbers
    unfold Emission.numbers at hnumbers ⊢
    rw [hphase] at hnumbers
    rw [List.forall_mem_append] at hnumbers ⊢
    refine ⟨hnumbers.1, List.forall_mem_singleton.mpr (List.mem_map_of_mem ?_)⟩
    refine List.mem_filter.mpr ⟨h.observers it hmem, ?_⟩
    unfold World.connected
    rcases hvalid with hdetached | hvalid
    · rw [hdetached, Bool.true_or]
    · rcases hthere with hdetached | halive
      · rw [hdetached, Bool.true_or]
      · rw [halive, h.valid _ hvalid, Bool.and_true, Bool.or_true]

/-- The loop goes on without a call. -/
theorem Emission.Delivering.next {e' : Emission ρ A R} (h : e.Delivering moved p start s) (hparams : e'.params = e.params)
    (hreceived : e'.received = e.received) (hnumbers : e'.numbers = e.numbers)
    (hholding : ∀ it, e'.phase = .holding it → it ∈ s.observers ∧ (it.detached = true ∨ start.alive it.number = true)) :
    e'.Delivering moved p start { s with emission := some e' } where
  params := by rw [hparams, hreceived]; exact h.params
  args := by rw [hreceived]; exact h.args
  numbers := by rw [hnumbers]; exact h.numbers
  observers := h.observers
  valid := h.valid
  alive := h.alive
  holding := hholding

theorem Emission.Delivering.emitStep (h : e.Delivering moved p start s) (he : s.emission = some e) (result : R) :
    World.Delivering moved p start (s.emitStep r moved result e) := by
  have hsame : ∀ phase : Phase A, phase.args = [] → phase.numbers = [] → e.phase.args = [] → e.phase.numbers = [] →
      ({ e with phase := phase } : Emission ρ A R).received = e.received ∧
        ({ e with phase := phase } : Emission ρ A R).numbers = e.numbers := by
    intro phase h1 h2 h3 h4
    unfold Emission.received Emission.numbers
    rw [h3, h4]
    exact ⟨congrArg _ h1, congrArg _ h2⟩
  have hloop := looped r moved result e s
  generalize s.emitStep r moved result e = s' at hloop ⊢
  cases hloop with
  | returns top last =>
    have hreceived : e.received = e.calls.map Call.args := by
      unfold Emission.received
      rw [top]
      exact List.append_nil _
    refine ⟨_, List.getLast?_concat .., ?_, fun n hn => h.numbers n (List.mem_append_left _ hn)⟩
    dsimp only
    rw [← hreceived, h.args, hreceived, List.length_map]
  | holds top found there =>
    obtain ⟨hreceived, hnumbers⟩ := hsame (.holding _) rfl rfl (by rw [top]; rfl) (by rw [top]; rfl)
    refine h.next rfl hreceived hnumbers ?_
    rintro _ ⟨rfl⟩
    rw [Bool.or_eq_true] at there
    exact ⟨List.mem_of_getElem? found, there.imp_right (h.alive _)⟩
  | erases top =>
    unfold World.Delivering
    dsimp only
    rw [he]
    -- nothing was received, and one observer less is left
    refine ⟨h.params, h.args, h.numbers, fun o ho => h.observers o (List.mem_of_mem_eraseIdx ho), h.valid, h.alive, ?_⟩
    rw [top]
    exact nofun
  | calls holding valid =>
    rw [Bool.or_eq_true] at valid
    exact h.call holding valid _
  | skips holding =>
    obtain ⟨hreceived, hnumbers⟩ := hsame .top rfl rfl (by rw [holding]; rfl) (by rw [holding]; rfl)
    exact h.next rfl hreceived hnumbers nofun
  | called calling =>
    refine h.next rfl ?_ ?_ nofun
    · unfold Emission.received
      rw [calling, List.map_append]
      exact List.append_nil _
    · unfold Emission.numbers
      rw [calling, List.map_append]
      exact List.append_nil _

theorem World.Delivering.of_disconnect (h : World.Delivering moved p start s) (hemission : s'.emission = s.emission)
    (hreturned : s'.returned = s.returned) (hobservers : s'.observers = s.observers)
    (hvalid : ∀ n, s'.valid n = true → s.valid n = true) (halive : ∀ n, s'.alive n = true → s.alive n = true) :
    World.Delivering moved p start s' := by
  unfold World.Delivering at h ⊢
  rw [hemission, hreturned]
  cases he : s.emission with
  | none =>
    rw [he] at h
    exact h
  | some e =>
    rw [he] at h
    exact Emission.Delivering.of_disconnect h hobservers hvalid halive

theorem World.Delivering.step {event : Event A R} (h : World.Delivering moved p start s) (hevent : NoEmit event s)
    (hs : World.step r moved event s = some s') : World.Delivering moved p start s' := by
  cases event with
  | connect detached =>
    obtain ⟨hnone, hs⟩ := Option.ite_none_right_eq_some.1 hs
    obtain rfl := Option.some.inj hs
    have hemission : s.emission = none := Option.isNone_iff_eq_none.mp hnone
    unfold World.Delivering at h ⊢
    unfold World.connect
    rw [hemission] at h ⊢
    exact h
  | copy number =>
    obtain ⟨-, hs⟩ := Option.ite_none_right_eq_some.1 hs
    dsimp only at hs
    split_ifs at hs with hlinked
    · obtain rfl := Option.some.inj hs
      -- a call in progress keeps the copy it was made from
      refine h.of_disconnect rfl rfl rfl (fun _ hn => hn) fun n hn => ?_
      rw [alive_iff] at hn ⊢
      rcases hn with hn | ⟨stage, hmem⟩
      · exact Or.inl hn
      · rcases List.mem_cons.mp hmem with heq | hmem
        · exact Or.inl ((Prod.mk.inj heq).1 ▸ hlinked)
        · exact Or.inr ⟨stage, hmem⟩
    · obtain rfl := Option.some.inj hs
      exact h.of_disconnect rfl rfl rfl (fun _ hn => hn) fun _ hn => hn
  | invalidate number =>
    obtain ⟨⟨hcall, -⟩, hs⟩ := Option.ite_none_right_eq_some.1 hs
    obtain rfl := Option.some.inj hs
    refine h.of_disconnect rfl rfl rfl (fun n hn => ?_) fun n hn => alive_advance .invalidated hcall hn
    by_cases hnumber : n = number
    · rw [hnumber] at hn
      dsimp only at hn
      rw [update_self] at hn
      cases hn
    · dsimp only at hn
      rwa [update_of_ne hnumber] at hn
  | reset number =>
    obtain ⟨hcall, hs⟩ := Option.ite_none_right_eq_some.1 hs
    obtain rfl := Option.some.inj hs
    refine h.of_disconnect rfl rfl rfl (fun _ hn => hn) fun n hn => alive_advance .reset hcall ?_
    rw [alive_iff] at hn ⊢
    refine hn.imp_left fun hlinked => ?_
    dsimp only at hlinked
    rw [update_apply] at hlinked
    split_ifs at hlinked
    exact hlinked
  | finish number =>
    obtain ⟨-, hs⟩ := Option.ite_none_right_eq_some.1 hs
    obtain rfl := Option.some.inj hs
    refine h.of_disconnect rfl rfl rfl (fun _ hn => hn) fun n hn => ?_
    rw [alive_iff] at hn ⊢
    exact hn.imp_right fun ⟨stage, hmem⟩ => ⟨stage, List.mem_of_mem_erase hmem⟩
  | emit params => exact absurd hevent not_false
  | nest =>
    obtain ⟨e, he, -, rfl⟩ := nest_iff.1 hs
    unfold World.Delivering at h
    rw [he] at h
    exact ⟨h.params, h.args, h.numbers, h.observers, h.valid, h.alive, h.holding⟩
  | emitStep result =>
    obtain ⟨e, he, -, rfl⟩ := emitStep_iff.1 hs
    unfold World.Delivering at h
    rw [he] at h
    exact Emission.Delivering.emitStep h he result

theorem World.Delivering.received_eq (h : World.Delivering moved p start s) :
    s.received = leftovers moved p s.received.length := by
  unfold World.Delivering at h
  unfold World.received
  cases he : s.emission with
  | some e =>
    rw [he] at h
    exact h.args
  | none =>
    rw [he] at h
    obtain ⟨f, hf, hargs, -⟩ := h
    dsimp only
    rw [hf]
    dsimp only [Option.map_some, Option.getD_some]
    rw [List.length_map, hargs]

/-- The callbacks that are called are different ones. -/
theorem Emission.numbers_nodup (hkept : s.Kept r) (he : s.emission = some e) : e.numbers.Nodup := by
  have hrunning := hkept.emission e he
  have hnumbers : ∃ n, e.numbers = (s.observers.take n).map Observer.number := by
    unfold Emission.numbers
    rw [← hrunning.called]
    cases hphase : e.phase with
    | top => exact ⟨e.it, List.append_nil _⟩
    | holding it => exact ⟨e.it, List.append_nil _⟩
    | calling it args =>
      obtain ⟨hit, -⟩ := hrunning.calling it args hphase
      refine ⟨e.it + 1, ?_⟩
      rw [List.take_add_one, hit, List.map_append]
      rfl
  obtain ⟨n, hn⟩ := hnumbers
  rw [hn]
  exact (hkept.listed.sorted.sublist ((List.take_sublist ..).map _)).imp fun hlt => hlt.ne

/-- No more callbacks are called than were connected. -/
theorem World.Delivering.length_le (hkept : s.Kept r) (h : World.Delivering moved p start s) :
    s.received.length ≤ start.live.length := by
  rw [← List.length_map (f := Observer.number)]
  unfold World.Delivering at h
  unfold World.received
  cases he : s.emission with
  | some e =>
    rw [he] at h
    have hlength : e.received.length = e.numbers.length := by
      unfold Emission.received Emission.numbers
      rw [List.length_append, List.length_append, List.length_map, List.length_map]
      cases e.phase <;> rfl
    dsimp only
    rw [hlength]
    exact (List.subperm_of_subset (Emission.numbers_nodup hkept he) h.numbers).length_le
  | none =>
    rw [he] at h
    obtain ⟨f, hf, -, hnumbers⟩ := h
    have hnodup : (f.calls.map Call.number).Nodup :=
      (hkept.returned f (List.mem_of_getLast? hf)).inOrder.imp fun hlt => hlt.ne
    have hle := (List.subperm_of_subset hnodup hnumbers).length_le
    dsimp only
    rw [hf]
    dsimp only [Option.map_some, Option.getD_some]
    rwa [List.length_map] at hle ⊢

/-! ## What can be called -/

/-- How much is left of a call of `disconnect`. -/
def Stage.weight : Stage → ℕ
  | .copied => 3
  | .invalidated => 2
  | .reset => 1

/-- How much is left of the calls of `disconnect` on a connection. -/
def World.weight (s : World ρ A R O) (number : ℕ) : ℕ :=
  (s.pending.map fun call => if call.1 = number then call.2.weight else 0).sum

theorem weight_erase {number : ℕ} {stage : Stage} (hcall : (number, stage) ∈ s.pending) :
    stage.weight + ((s.pending.erase (number, stage)).map fun call => if call.1 = number then call.2.weight else 0).sum =
      s.weight number := by
  have hperm := (List.perm_cons_erase hcall).map fun call => if call.1 = number then call.2.weight else 0
  rw [List.map_cons, if_pos rfl] at hperm
  exact (hperm.sum_eq.trans List.sum_cons).symm

/-- A call of `disconnect` that goes on concerns its own connection only. -/
theorem alive_of_ne {number n : ℕ} {stage : Stage} (pending : List (ℕ × Stage)) (hn : n ≠ number)
    (hlinked : s'.linked n = s.linked n) (hpending : s'.pending = pending ++ s.pending.erase (number, stage))
    (hnumber : ∀ call ∈ pending, call.1 = number) : s'.alive n = s.alive n := by
  rw [Bool.eq_iff_iff, alive_iff, alive_iff, hlinked, hpending]
  refine or_congr_right (exists_congr fun st => ?_)
  rw [List.mem_append, List.mem_erase_of_ne fun heq => hn (Prod.mk.inj heq).1]
  exact or_iff_right fun hmem => hn (hnumber _ hmem)

/-- A call of `disconnect` on a token that is not valid goes on. -/
theorem settle_step (moved : A → A) {number : ℕ} {stage : Stage} (hcall : (number, stage) ∈ s.pending)
    (hinvalid : s.valid number = false) (hunlocked : s.locked number = false) : ∃ (event : Event A R) (s₁ : World ρ A R O), NoEmit event s ∧
      World.step r moved event s = some s₁ ∧ s₁.weight number < s.weight number ∧ s₁.observers = s.observers ∧
      s₁.emission = s.emission ∧ s₁.valid = s.valid ∧ ∀ n ≠ number, s₁.alive n = s.alive n := by
  have hweight := weight_erase hcall
  have hadvance : ∀ stage', stage'.weight < stage.weight →
      (s.advance number stage stage').weight number < s.weight number := by
    intro stage' hlt
    rw [← hweight]
    unfold World.weight World.advance
    rw [List.map_cons, List.sum_cons, if_pos rfl]
    exact Nat.add_lt_add_right hlt _
  cases stage with
  | copied =>
    refine ⟨.invalidate number, _, trivial, if_pos ⟨hcall, hunlocked⟩, hadvance .invalidated (by decide), rfl, rfl,
      ?_, ?_⟩
    · dsimp only
      rw [← hinvalid, update_eq_self]
    · exact fun n hn => alive_of_ne [(number, .invalidated)] hn rfl rfl fun call hmem => by
        rw [List.mem_singleton.mp hmem]
  | invalidated =>
    refine ⟨.reset number, _, trivial, if_pos hcall, hadvance .reset (by decide), rfl, rfl, rfl, fun n hn => ?_⟩
    exact alive_of_ne [(number, .reset)] hn (update_of_ne hn ..) rfl fun call hmem => by
      rw [List.mem_singleton.mp hmem]
  | reset =>
    refine ⟨.finish number, _, trivial, if_pos hcall, ?_, rfl, rfl, rfl, fun n hn => ?_⟩
    · rw [← hweight]
      exact Nat.lt_add_of_pos_left (by decide)
    · exact alive_of_ne [] hn rfl rfl fun call hmem => absurd hmem List.not_mem_nil

/-- An unlocked token that is not valid is given up by the calls of `disconnect` that go on. -/
theorem World.Kept.settle {number : ℕ} (hkept : s.Kept r) (hinvalid : s.valid number = false)
    (hunlocked : s.locked number = false) : ∃ s', Reaches (World.step r moved) NoEmit s s' ∧ s'.Kept r ∧
      s'.alive number = false ∧ s'.observers = s.observers ∧ s'.emission = s.emission ∧ s'.valid = s.valid ∧
      ∀ n ≠ number, s'.alive n = s.alive n := by
  induction hw : s.weight number using Nat.strongRecOn generalizing s with
  | _ w ih =>
    by_cases hpending : ∃ stage, (number, stage) ∈ s.pending
    · obtain ⟨stage, hcall⟩ := hpending
      obtain ⟨event, s₁, hevent, hs₁, hlt, hobservers, hemission, hvalid, halive⟩ :=
        settle_step (r := r) moved hcall hinvalid hunlocked
      have hunlocked₁ : s₁.locked number = false := by
        unfold World.locked at hunlocked ⊢
        rwa [hemission]
      obtain ⟨s', hreach, hkept', hgone, h1, h2, h3, h4⟩ :=
        ih _ (hw ▸ hlt) (hkept.step hs₁) (by rw [hvalid]; exact hinvalid) hunlocked₁ rfl
      refine ⟨s', (reaches_of_step hevent hs₁).trans hreach, hkept', hgone, h1.trans hobservers, h2.trans hemission,
        h3.trans hvalid, fun n hn => (h4 n hn).trans (halive n hn)⟩
    · refine ⟨s, .start, hkept, ?_, rfl, rfl, rfl, fun _ _ => rfl⟩
      rw [Bool.eq_false_iff]
      intro halive
      rcases (alive_iff s number).mp halive with hlinked | hmem
      · exact hpending ⟨.invalidated, hkept.tokens.linked number hlinked hinvalid⟩
      · exact hpending hmem

theorem noEmit_emitStep (result : R) (s : World ρ A R O) : NoEmit (.emitStep result) s := trivial

/-- A step of the loop of `emit`. -/
theorem step_emitStep {result : R} (he : s.emission = some e) (hfree : e.nested = false)
    (hstep : s.emitStep r moved result e = s') : World.step r moved (.emitStep result) s = some s' :=
  emitStep_iff.2 ⟨e, he, hfree, hstep⟩

/-- An observer that is connected is called. -/
theorem World.Kept.call_next [Inhabited R] {it : Observer} (hkept : s.Kept r) (moved : A → A) (he : s.emission = some e)
    (hphase : e.phase = .top) (hit : s.observers[e.it]? = some it) (hconnected : s.connected it = true) :
    ∃ s' e', Reaches (World.step r moved) NoEmit s s' ∧ s'.Kept r ∧ s'.emission = some e' ∧ e'.phase = .top ∧
      e'.it = e.it + 1 ∧ e'.calls.length = e.calls.length + 1 ∧ s'.observers = s.observers ∧
      s'.connected = s.connected := by
  have hboth : (it.detached || s.alive it.number) = true ∧ (it.detached || s.valid it.number) = true := by
    unfold World.connected at hconnected
    rwa [Bool.or_and_distrib_left, Bool.and_eq_true] at hconnected
  have hfree := (hkept.emission e he).free (by rw [hphase]; rfl)
  have hholding : World.step r moved (.emitStep default) s = _ :=
    step_emitStep he hfree (emitStep_holds hphase hit hboth.1)
  have hcalling : World.step r moved (.emitStep default)
      { s with emission := some { e with phase := .holding it } } = _ :=
    step_emitStep rfl hfree (emitStep_calls rfl hboth.2)
  have hcalled : World.step r moved (.emitStep default) { s with
      emission := some { e with phase := .calling it e.params, params := moved e.params }
      trace := s.trace ++ [.called it.number] } = _ :=
    step_emitStep rfl hfree (emitStep_called rfl)
  have hreach := ((reaches_of_step trivial hholding).next (noEmit_emitStep ..) hcalling).next (noEmit_emitStep ..) hcalled
  refine ⟨_, _, hreach, ((hkept.step hholding).step hcalling).step hcalled, rfl, rfl, rfl, ?_, rfl, rfl⟩
  exact List.length_append

/-- One that is not is erased, after its token is gone. -/
theorem World.Kept.erase_next [Inhabited R] {it : Observer} (hkept : s.Kept r) (moved : A → A) (he : s.emission = some e)
    (hphase : e.phase = .top) (hit : s.observers[e.it]? = some it) (hconnected : s.connected it = false) :
    ∃ s', Reaches (World.step r moved) NoEmit s s' ∧ s'.Kept r ∧ s'.emission = some e ∧
      s'.observers = s.observers.eraseIdx e.it ∧
      ∀ o : Observer, o.number ≠ it.number → s'.connected o = s.connected o := by
  obtain ⟨hdetached, hgone⟩ := Bool.or_eq_false_iff.mp hconnected
  have hfree := (hkept.emission e he).free (by rw [hphase]; rfl)
  obtain ⟨s₁, hreach, hkept₁, halive, hobservers, hemission, hvalid, hothers⟩ : ∃ s₁,
      Reaches (World.step r moved) NoEmit s s₁ ∧ s₁.Kept r ∧ s₁.alive it.number = false ∧ s₁.observers = s.observers ∧ s₁.emission = s.emission ∧
      s₁.valid = s.valid ∧ ∀ n ≠ it.number, s₁.alive n = s.alive n := by
    cases halive : s.alive it.number with
    | false => exact ⟨s, .start, hkept, halive, rfl, rfl, rfl, fun _ _ => rfl⟩
    | true =>
      -- the loop tries it again and again until `disconnect` has gone on
      rw [halive, Bool.true_and] at hgone
      refine hkept.settle hgone ?_
      unfold World.locked
      rw [he]
      dsimp only
      rw [hphase]
  have hstep : World.step r moved (.emitStep default) s₁ = some { s₁ with observers := s₁.observers.eraseIdx e.it } :=
    step_emitStep (hemission.trans he) hfree (emitStep_erases hphase (hobservers ▸ hit) (by rw [hdetached, halive]; rfl))
  refine ⟨_, hreach.next (noEmit_emitStep ..) hstep, hkept₁.step hstep, hemission.trans he, by rw [← hobservers],
    fun o ho => ?_⟩
  unfold World.connected
  rw [← hvalid, ← hothers _ ho]
  rfl

/-- **Every observer that is connected can be called**: an `emit` at the top of its loop comes to call as many of those in
front of it as one likes. -/
theorem World.Kept.calls [Inhabited R] {m : ℕ} (hkept : s.Kept r) (he : s.emission = some e) (hphase : e.phase = .top)
    (hm : m ≤ ((s.observers.drop e.it).filter s.connected).length) : ∃ s' e', Reaches (World.step r moved) NoEmit s s' ∧
      s'.emission = some e' ∧ e'.calls.length = e.calls.length + m := by
  -- on the observers from the iterator on
  induction hn : s.observers.length - e.it generalizing s e m with
  | zero =>
    rw [List.drop_of_length_le (by omega)] at hm
    obtain rfl : m = 0 := Nat.le_zero.mp hm
    exact ⟨s, e, .start, he, rfl⟩
  | succ n ih =>
    have hlt : e.it < s.observers.length := by omega
    have hit : s.observers[e.it]? = some s.observers[e.it] := List.getElem?_eq_getElem hlt
    rw [List.drop_eq_getElem_cons hlt, List.filter_cons] at hm
    cases hconnected : s.connected s.observers[e.it] with
    | true =>
      cases m with
      | zero => exact ⟨s, e, .start, he, rfl⟩
      | succ m =>
        rw [if_pos hconnected, List.length_cons] at hm
        obtain ⟨s₁, e₁, hreach₁, hkept₁, he₁, hphase₁, hit₁, hcalls₁, hobservers₁, hconnected₁⟩ :=
          hkept.call_next moved he hphase hit hconnected
        have hlength : s₁.observers.length - e₁.it = n := by
          rw [hobservers₁, hit₁]
          omega
        obtain ⟨s', e', hreach, he', hcalls⟩ := ih (m := m) hkept₁ he₁ hphase₁
          (by rw [hobservers₁, hit₁, hconnected₁]; exact Nat.le_of_succ_le_succ hm) hlength
        exact ⟨s', e', hreach₁.trans hreach, he', by omega⟩
    | false =>
      rw [if_neg (by rw [hconnected]; exact Bool.false_ne_true)] at hm
      obtain ⟨s₁, hreach₁, hkept₁, he₁, hobservers₁, hconnected₁⟩ :=
        hkept.erase_next moved he hphase hit hconnected
      have hdrop : s₁.observers.drop e.it = s.observers.drop (e.it + 1) := by
        rw [hobservers₁, drop_eraseIdx hlt]
      have hsame : (s.observers.drop (e.it + 1)).filter s₁.connected =
          (s.observers.drop (e.it + 1)).filter s.connected := by
        refine List.filter_congr fun o ho => hconnected₁ o ?_
        -- the numbers grow along the list
        have hsorted := (List.pairwise_map.mp hkept.listed.sorted).sublist (List.drop_sublist e.it s.observers)
        rw [List.drop_eq_getElem_cons hlt] at hsorted
        exact ((List.pairwise_cons.mp hsorted).1 o ho).ne'
      have hlength : s₁.observers.length = s.observers.length - 1 := by
        rw [hobservers₁, List.length_eraseIdx_of_lt hlt]
      obtain ⟨s', e', hreach, he', hcalls⟩ := ih (m := m) hkept₁ he₁ hphase (by rw [hdrop, hsame]; exact hm) (by omega)
      exact ⟨s', e', hreach₁.trans hreach, he', hcalls⟩

/-! ## The arguments -/

/-- An `emit` begins. -/
theorem delivering_emit (hs : World.step r moved (.emit p) start = some s) :
    World.Delivering moved p start s ∧ ∃ e, s.emission = some e ∧ e.phase = .top ∧ e.it = 0 ∧ e.calls = [] ∧
      s.observers = start.observers ∧ s.connected = start.connected := by
  obtain ⟨-, hs⟩ := Option.ite_none_right_eq_some.1 hs
  obtain rfl := Option.some.inj hs
  refine ⟨⟨rfl, rfl, fun n hn => absurd hn List.not_mem_nil, fun _ h => h, fun _ h => h, fun _ h => h, nofun⟩, ?_⟩
  exact ⟨_, rfl, rfl, rfl, rfl, rfl, rfl⟩

/-- **The callbacks are called with what was passed** to `emit`, in every run of it, if no more than one is connected or
moving leaves the parameters as they were; and then only. -/
theorem same_args_iff [Inhabited R] (r : Reducer ρ R O) (moved : A → A) {s : World ρ A R O}
    (hreach : Reaches (World.step r moved) Free World.new s) (hidle : s.emission = none) (p : A) :
    (∀ s₁ s', World.step r moved (.emit p) s = some s₁ → Reaches (World.step r moved) NoEmit s₁ s' →
      ∀ a ∈ s'.received, a = p) ↔ s.live.length ≤ 1 ∨ moved p = p := by
  have hkept := kept_of_reaches hreach
  have hrun : ∀ s₁ s', World.step r moved (.emit p) s = some s₁ → Reaches (World.step r moved) NoEmit s₁ s' →
      s'.Kept r ∧ World.Delivering moved p s s' := by
    intro s₁ s' hs₁ hs'
    exact hs'.invariant (I := fun t => t.Kept r ∧ World.Delivering moved p s t)
      (fun event t t' ht hevent hstep => ⟨ht.1.step hstep, ht.2.step hevent hstep⟩)
      ⟨hkept.step hs₁, (delivering_emit hs₁).1⟩
  constructor
  · intro hsame
    by_contra hnot
    obtain ⟨hmany, hmoved⟩ := not_or.mp hnot
    obtain ⟨s₁, hs₁⟩ : ∃ s₁, World.step r moved (.emit p) s = some s₁ := by
      unfold World.step
      dsimp only
      rw [hidle]
      exact ⟨_, rfl⟩
    obtain ⟨-, e, he, hphase, hit, hcalls, hobservers, hconnected⟩ := delivering_emit hs₁
    have htwo : 2 ≤ ((s₁.observers.drop e.it).filter s₁.connected).length := by
      rw [hobservers, hconnected, hit, List.drop_zero]
      exact Nat.lt_of_not_le hmany
    obtain ⟨s', e', hs', he', hlength⟩ := (hkept.step hs₁).calls he hphase htwo
    -- the second call is made with what the first one left
    have hreceived : moved p ∈ s'.received := by
      rw [(hrun s₁ s' hs₁ hs').2.received_eq]
      refine List.mem_map.mpr ⟨1, List.mem_range.mpr ?_, rfl⟩
      unfold World.received Emission.received
      rw [he']
      dsimp only
      rw [List.length_append, List.length_map, hlength, hcalls, List.length_nil]
      omega
    exact hmoved (hsame s₁ s' hs₁ hs' _ hreceived)
  · intro hcond s₁ s' hs₁ hs' a ha
    obtain ⟨hkept', hdelivering⟩ := hrun s₁ s' hs₁ hs'
    have hle := hdelivering.length_le hkept'
    rw [hdelivering.received_eq] at ha
    obtain ⟨i, hi, rfl⟩ := List.mem_map.mp ha
    rcases hcond with hone | hfixed
    · obtain rfl : i = 0 := by
        have := List.mem_range.mp hi
        omega
      rfl
    · exact iterate_fixed hfixed i

theorem same_args_iff_two : ∃ s : World ℕ ℕ ℕ ℕ, Reaches (World.step sum fun _ => 0) Free World.new s ∧
    (s.emission = none ∧ s.live.length = 2) ∧
    ((∀ s₁ s', World.step sum (fun _ => 0) (.emit 7) s = some s₁ → Reaches (World.step sum fun _ => 0) NoEmit s₁ s' →
      ∀ a ∈ s'.received, a = 7) ↔ s.live.length ≤ 1 ∨ 0 = 7) := by
  obtain ⟨s, hreach, hcount⟩ : ∃ s : World ℕ ℕ ℕ ℕ, Reaches (World.step sum fun _ => 0) Free World.new s ∧
      (s.emission.isNone = true ∧ s.live.length = 2) :=
    exists_of_events [.connect true, .connect false] (by decide +kernel)
  have hidle : s.emission = none := Option.isNone_iff_eq_none.mp hcount.1
  exact ⟨s, hreach, ⟨hidle, hcount.2⟩, same_args_iff sum (fun _ => 0) hreach hidle 7⟩

/-- Two callbacks that take a string by value, of which nothing is left when it is moved: the second is called with an
empty one. -/
theorem second_empty : ∃ s : World ℕ String ℕ ℕ, runEvents (World.step sum fun _ => "")
    [.connect true, .connect true, .emit "abc", .emitStep 0, .emitStep 0, .emitStep 1, .emitStep 0, .emitStep 0,
      .emitStep 2, .emitStep 0] World.new = some s ∧ s.received = ["abc", ""] ∧ ¬ ∀ a ∈ s.received, a = "abc" := by
  refine ⟨_, rfl, rfl, fun hsame => ?_⟩
  exact absurd (hsame "" (List.mem_cons_of_mem _ List.mem_cons_self)) (by decide)

end Libtarp.Signal
