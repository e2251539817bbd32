import Libtarp.Signal.Emit
import Mathlib.Data.List.InsertIdx
import Mathlib.Data.List.Nodup
import Mathlib.Order.Nat

/-!
# Runs of a signal

* `World.EmitsRight`: what holds of the calls of every `emit`, and of `disconnect`.
* `World.Ends`: an `emit` comes to its end by its own steps.
* `emits_right`: both hold in every state that is reached, the second where no `disconnect` is going on and no handler
  has emitted the signal.
* `nests_for_ever`: an `emit` whose handler has emitted the signal never returns.
-/

namespace Libtarp.Signal

open Function Lib

variable {ρ A R O : Type} {r : Reducer ρ R O} {moved : A → A}

/-- What the calls of an `emit` are like, and its output. -/
structure Returned.Right (r : Reducer ρ R O) (f : Returned A R O) : Prop where
  /-- A callback that stays connected is called once. -/
  once : ∀ number < f.count, number ∉ f.begun → (f.calls.map Call.number).count number = 1
  inOrder : (f.calls.map Call.number).Pairwise (· < ·)
  output : f.output = r.get ((f.calls.map Call.result).foldl r.process r.initial)

/-- No callback is called after a `disconnect` of it has returned. -/
def QuietAfter (trace : List Occurrence) : Prop :=
  trace.Pairwise fun a b => ∀ number, a = .disconnected number → b ≠ .called number

/-- Every `emit` is right, and a callback is neither called nor going on once a `disconnect` has returned. -/
structure World.EmitsRight (r : Reducer ρ R O) (s : World ρ A R O) : Prop where
  returned : ∀ f ∈ s.returned, f.Right r
  called : QuietAfter s.trace
  calling : ∀ e it args, s.emission = some e → e.phase = .calling it args → .disconnected it.number ∉ s.trace

/-- A callback of the `emit` that goes on has emitted the signal. -/
def World.nests (s : World ρ A R O) : Bool := s.emission.any Emission.nested

/-- The `emit` that goes on comes to its end by its own steps, whatever the callbacks return. -/
def World.Ends (r : Reducer ρ R O) (moved : A → A) (s : World ρ A R O) : Prop :=
  ∀ results : ℕ → R, ∃ n s', runEvents (World.step r moved) ((List.range n).map fun i => .emitStep (results i)) s = some s' ∧
    s'.emission = none

/-! ## A step of the loop -/

section Step

variable {s : World ρ A R O} {e : Emission ρ A R} {it : Observer} {args : A} {result : R}

theorem emitStep_returns (htop : e.phase = .top) (hover : s.observers[e.it]? = none) :
    s.emitStep r moved result e = { s with
      emission := none
      returned := s.returned ++ [⟨e.count, e.calls, r.get e.reducer, s.begun⟩] } := by
  unfold World.emitStep
  rw [htop]
  dsimp only
  rw [hover]

theorem emitStep_holds (htop : e.phase = .top) (hit : s.observers[e.it]? = some it)
    (hthere : (it.detached || s.alive it.number) = true) :
    s.emitStep r moved result e = { s with emission := some { e with phase := .holding it } } := by
  unfold World.emitStep
  rw [htop]
  dsimp only
  rw [hit]
  exact if_pos hthere

theorem emitStep_erases (htop : e.phase = .top) (hit : s.observers[e.it]? = some it)
    (hgone : (it.detached || s.alive it.number) = false) :
    s.emitStep r moved result e = { s with observers := s.observers.eraseIdx e.it } := by
  unfold World.emitStep
  rw [htop]
  dsimp only
  rw [hit]
  exact if_neg (Bool.eq_false_iff.1 hgone)

theorem emitStep_calls (hholding : e.phase = .holding it) (hvalid : (it.detached || s.valid it.number) = true) :
    s.emitStep r moved result e = { s with
      emission := some { e with phase := .calling it e.params, params := moved e.params }
      trace := s.trace ++ [.called it.number] } := by
  unfold World.emitStep
  rw [hholding]
  exact if_pos hvalid

theorem emitStep_skips (hholding : e.phase = .holding it) (hinvalid : (it.detached || s.valid it.number) = false) :
    s.emitStep r moved result e = { s with emission := some { e with phase := .top } } := by
  unfold World.emitStep
  rw [hholding]
  exact if_neg (Bool.eq_false_iff.1 hinvalid)

theorem emitStep_called (hcalling : e.phase = .calling it args) :
    s.emitStep r moved result e = { s with emission := some { e with
      it := e.it + 1
      phase := .top
      reducer := r.process e.reducer result
      calls := e.calls ++ [⟨it.number, args, result⟩] } } := by
  unfold World.emitStep
  rw [hcalling]

end Step

/-- The loop goes on unless the callback waits. -/
theorem emitStep_iff {s s' : World ρ A R O} {result : R} : World.step r moved (.emitStep result) s = some s' ↔
    ∃ e, s.emission = some e ∧ e.nested = false ∧ s.emitStep r moved result e = s' := by
  unfold World.step
  rw [Option.bind_eq_some_iff]
  refine exists_congr fun e => and_congr_right fun _ => ?_
  cases e.nested <;> simp

/-- A callback that runs emits the signal. -/
theorem nest_iff {s s' : World ρ A R O} : World.step r moved .nest s = some s' ↔
    ∃ e, s.emission = some e ∧ e.phase.runs = true ∧ { s with emission := some { e with nested := true } } = s' := by
  unfold World.step
  cases s.emission with
  | none => simp
  | some e => simp

/-- What a step of the loop can do. -/
inductive Looped (r : Reducer ρ R O) (moved : A → A) (result : R) (e : Emission ρ A R) (s : World ρ A R O) :
    World ρ A R O → Prop
  | returns (top : e.phase = .top) (last : s.observers[e.it]? = none) :
    Looped r moved result e s { s with
      emission := none
      returned := s.returned ++ [⟨e.count, e.calls, r.get e.reducer, s.begun⟩] }
  | holds {it : Observer} (top : e.phase = .top) (found : s.observers[e.it]? = some it)
      (there : (it.detached || s.alive it.number) = true) :
    Looped r moved result e s { s with emission := some { e with phase := .holding it } }
  | erases {it : Observer} (top : e.phase = .top) (found : s.observers[e.it]? = some it)
      (gone : (it.detached || s.alive it.number) = false) :
    Looped r moved result e s { s with observers := s.observers.eraseIdx e.it }
  | calls {it : Observer} (holding : e.phase = .holding it) (valid : (it.detached || s.valid it.number) = true) :
    Looped r moved result e s { s with
      emission := some { e with phase := .calling it e.params, params := moved e.params }
      trace := s.trace ++ [.called it.number] }
  | skips {it : Observer} (holding : e.phase = .holding it) (invalid : (it.detached || s.valid it.number) = false) :
    Looped r moved result e s { s with emission := some { e with phase := .top } }
  | called {it : Observer} {args : A} (calling : e.phase = .calling it args) :
    Looped r moved result e s { s with emission := some { e with
      it := e.it + 1
      phase := .top
      reducer := r.process e.reducer result
      calls := e.calls ++ [⟨it.number, args, result⟩] } }

theorem looped (r : Reducer ρ R O) (moved : A → A) (result : R) (e : Emission ρ A R) (s : World ρ A R O) :
    Looped r moved result e s (s.emitStep r moved result e) := by
  cases hphase : e.phase with
  | top =>
    cases hit : s.observers[e.it]? with
    | none =>
      rw [emitStep_returns hphase hit]
      exact .returns hphase hit
    | some it =>
      cases hthere : it.detached || s.alive it.number with
      | true =>
        rw [emitStep_holds hphase hit hthere]
        exact .holds hphase hit hthere
      | false =>
        rw [emitStep_erases hphase hit hthere]
        exact .erases hphase hit hthere
  | holding it =>
    cases hvalid : it.detached || s.valid it.number with
    | true =>
      rw [emitStep_calls hphase hvalid]
      exact .calls hphase hvalid
    | false =>
      rw [emitStep_skips hphase hvalid]
      exact .skips hphase hvalid
  | calling it args =>
    rw [emitStep_called hphase]
    exact .called hphase

/-- Behind an element that is erased nothing changes. -/
theorem drop_eraseIdx {l : List Observer} {i : ℕ} (hi : i < l.length) : (l.eraseIdx i).drop i = l.drop (i + 1) := by
  rw [List.eraseIdx_eq_take_drop_succ]
  exact List.drop_left' (List.length_take_of_le hi.le)

/-! ## Tokens -/

/-- What is known of the tokens and of the calls of `disconnect`. -/
structure World.Tokens (s : World ρ A R O) : Prop where
  connections : ∀ number ∈ s.connections, number < s.count
  linked : ∀ number, s.linked number = true → s.valid number = false → (number, .invalidated) ∈ s.pending
  given : ∀ number ∈ s.connections, s.linked number = true ∨ s.valid number = false
  pending : ∀ call ∈ s.pending, call.1 ∈ s.connections ∧ (call.2 ≠ .copied → s.valid call.1 = false)
  begun : ∀ number ∈ s.begun, number ∈ s.connections
  trace : ∀ number, .disconnected number ∈ s.trace → number ∈ s.connections ∧ s.valid number = false

/-- Steps that leave the tokens and their connections alone. -/
theorem World.Tokens.of_eq {s s' : World ρ A R O} (h : s.Tokens) (hcount : s'.count = s.count)
    (hvalid : s'.valid = s.valid) (hconnections : s'.connections = s.connections) (hlinked : s'.linked = s.linked)
    (hpending : s'.pending = s.pending) (hbegun : s'.begun = s.begun)
    (htrace : ∀ number, .disconnected number ∈ s'.trace → .disconnected number ∈ s.trace) : s'.Tokens where
  connections := by rw [hconnections, hcount]; exact h.connections
  linked := by rw [hlinked, hvalid, hpending]; exact h.linked
  given := by rw [hconnections, hlinked, hvalid]; exact h.given
  pending := by rw [hpending, hconnections, hvalid]; exact h.pending
  begun := by rw [hbegun, hconnections]; exact h.begun
  trace number hmem := by rw [hconnections, hvalid]; exact h.trace number (htrace number hmem)

theorem World.Tokens.connect {s : World ρ A R O} (h : s.Tokens) (detached : Bool) : (s.connect detached).Tokens := by
  -- the new connection gets a number that no other has
  have hold : ∀ number ∈ s.connections, number ≠ s.count := fun number hmem => (h.connections number hmem).ne
  have hsub : ∀ number ∈ s.connections, number ∈ (s.connect detached).connections := by
    intro number hmem
    unfold World.connect
    dsimp only
    split_ifs
    · exact hmem
    · exact List.mem_cons_of_mem _ hmem
  refine ⟨fun number hmem => ?_, fun number hlinked hvalid => ?_, fun number hmem => ?_, fun call hmem => ?_,
    fun number hmem => hsub number (h.begun number hmem), fun number hmem => ?_⟩
  · unfold World.connect at hmem ⊢
    dsimp only at hmem ⊢
    split_ifs at hmem
    · exact (h.connections number hmem).trans (Nat.lt_succ_self _)
    · rcases List.mem_cons.1 hmem with rfl | hmem
      · exact Nat.lt_succ_self _
      · exact (h.connections number hmem).trans (Nat.lt_succ_self _)
  · unfold World.connect at hlinked hvalid ⊢
    dsimp only at hlinked hvalid ⊢
    by_cases hnumber : number = s.count
    · rw [hnumber, update_self] at hvalid
      cases hvalid
    · rw [update_of_ne hnumber] at hlinked hvalid
      exact h.linked number hlinked hvalid
  · unfold World.connect at hmem ⊢
    dsimp only at hmem ⊢
    by_cases hnumber : number = s.count
    · subst hnumber
      split_ifs at hmem with hdetached
      · exact absurd rfl (hold _ hmem)
      · rw [update_self, Bool.eq_false_iff.2 hdetached]
        exact .inl rfl
    · rw [update_of_ne hnumber, update_of_ne hnumber]
      refine h.given number ?_
      split_ifs at hmem
      · exact hmem
      · exact (List.mem_cons.1 hmem).resolve_left hnumber
  · obtain ⟨hconnection, hinvalid⟩ := h.pending call hmem
    refine ⟨hsub _ hconnection, fun hstage => ?_⟩
    unfold World.connect
    dsimp only
    rw [update_of_ne (hold _ hconnection)]
    exact hinvalid hstage
  · obtain ⟨hconnection, hinvalid⟩ := h.trace number hmem
    refine ⟨hsub _ hconnection, ?_⟩
    unfold World.connect
    dsimp only
    rw [update_of_ne (hold _ hconnection)]
    exact hinvalid

/-- A stage that is reached is one that was reached before, or the new one. -/
theorem mem_advance {s : World ρ A R O} {number : ℕ} {stage stage' : Stage} {call : ℕ × Stage}
    (h : call ∈ (s.advance number stage stage').pending) : call = (number, stage') ∨ call ∈ s.pending :=
  (List.mem_cons.1 h).imp_right List.mem_of_mem_erase

theorem World.Tokens.invalidate {s : World ρ A R O} (h : s.Tokens) {number : ℕ} (hcall : (number, .copied) ∈ s.pending) :
    World.Tokens { s.advance number .copied .invalidated with valid := update s.valid number false } := by
  have hstays : ∀ n, s.valid n = false → update s.valid number false n = false := by
    intro n hn
    rw [update_apply]
    split_ifs
    · rfl
    · exact hn
  refine ⟨h.connections, fun n hlinked hvalid => ?_, fun n hmem => (h.given n hmem).imp_right (hstays n), fun call hmem => ?_,
    h.begun, fun n hmem => (h.trace n hmem).imp_right (hstays n)⟩
  · dsimp only at hvalid
    by_cases hn : n = number
    · rw [hn]
      exact List.mem_cons_self
    · rw [update_of_ne hn] at hvalid
      have hold := h.linked n hlinked hvalid
      exact List.mem_cons_of_mem _ ((List.mem_erase_of_ne (by simp)).2 hold)
  · rcases mem_advance hmem with rfl | hold
    · exact ⟨(h.pending _ hcall).1, fun _ => update_self ..⟩
    · exact (h.pending call hold).imp_right fun hinvalid hstage => hstays _ (hinvalid hstage)

theorem World.Tokens.reset {s : World ρ A R O} (h : s.Tokens) {number : ℕ}
    (hcall : (number, .invalidated) ∈ s.pending) :
    World.Tokens { s.advance number .invalidated .reset with linked := update s.linked number false } := by
  obtain ⟨hconnection, hinvalid⟩ := h.pending _ hcall
  have hinvalid := hinvalid nofun
  refine ⟨h.connections, fun n hlinked hvalid => ?_, fun n hmem => ?_, fun call hmem => ?_, h.begun, h.trace⟩
  · dsimp only at hlinked
    have hn : n ≠ number := by
      rintro rfl
      rw [update_self] at hlinked
      cases hlinked
    rw [update_of_ne hn] at hlinked
    refine List.mem_cons_of_mem _ ((List.mem_erase_of_ne ?_).2 (h.linked n hlinked hvalid))
    exact fun heq => hn (Prod.mk.inj heq).1
  · by_cases hn : n = number
    · rw [hn]
      exact .inr hinvalid
    · dsimp only
      rw [update_of_ne hn]
      exact h.given n hmem
  · rcases mem_advance hmem with rfl | hold
    · exact ⟨hconnection, fun _ => hinvalid⟩
    · exact h.pending call hold

theorem World.Tokens.finish {s : World ρ A R O} (h : s.Tokens) {number : ℕ} (hcall : (number, .reset) ∈ s.pending) :
    World.Tokens { s with
      pending := s.pending.erase (number, .reset)
      trace := s.trace ++ [.disconnected number] } := by
  refine ⟨h.connections, fun n hlinked hvalid => ?_, h.given, fun call hmem => h.pending call (List.mem_of_mem_erase hmem),
    h.begun, fun n hmem => ?_⟩
  · exact (List.mem_erase_of_ne (by simp)).2 (h.linked n hlinked hvalid)
  · rcases List.mem_append.1 hmem with hold | hnew
    · exact h.trace n hold
    · obtain ⟨rfl⟩ := Occurrence.disconnected.inj (List.mem_singleton.1 hnew)
      obtain ⟨hconnection, hinvalid⟩ := h.pending _ hcall
      exact ⟨hconnection, hinvalid nofun⟩

theorem World.Tokens.copy {s s' : World ρ A R O} (h : s.Tokens) {number : ℕ}
    (hs : World.step r moved (.copy number) s = some s') : s'.Tokens := by
  obtain ⟨hconnection, hs⟩ := Option.ite_none_right_eq_some.1 hs
  have hbegun : ∀ n ∈ number :: s.begun, n ∈ s.connections := List.forall_mem_cons.2 ⟨hconnection, h.begun⟩
  dsimp only at hs
  split_ifs at hs with hlinked
  · obtain rfl := Option.some.inj hs
    refine ⟨h.connections, fun n hl hv => List.mem_cons_of_mem _ (h.linked n hl hv), h.given, ?_, hbegun, h.trace⟩
    exact List.forall_mem_cons.2 ⟨⟨hconnection, fun hstage => absurd rfl hstage⟩, h.pending⟩
  · obtain rfl := Option.some.inj hs
    refine ⟨h.connections, h.linked, h.given, h.pending, hbegun, fun n hmem => ?_⟩
    rcases List.mem_append.1 hmem with hold | hnew
    · exact h.trace n hold
    · obtain ⟨rfl⟩ := Occurrence.disconnected.inj (List.mem_singleton.1 hnew)
      exact ⟨hconnection, (h.given _ hconnection).resolve_left hlinked⟩

/-- The loop of `emit` leaves the tokens alone. -/
theorem emitStep_tokens (r : Reducer ρ R O) (moved : A → A) (s : World ρ A R O) (result : R) (e : Emission ρ A R)
    (h : s.Tokens) : (s.emitStep r moved result e).Tokens := by
  have hloop := looped r moved result e s
  generalize s.emitStep r moved result e = s' at hloop ⊢
  cases hloop with
  | calls =>
    refine h.of_eq rfl rfl rfl rfl rfl rfl fun number hmem => ?_
    exact (List.mem_append.1 hmem).resolve_right fun hnew => Occurrence.noConfusion (List.mem_singleton.1 hnew)
  | _ => exact h.of_eq rfl rfl rfl rfl rfl rfl fun _ hmem => hmem

theorem World.Tokens.step {event : Event A R} {s s' : World ρ A R O} (h : s.Tokens)
    (hs : World.step r moved event s = some s') : s'.Tokens := by
  cases event with
  | connect detached =>
    obtain ⟨-, hs⟩ := Option.ite_none_right_eq_some.1 hs
    obtain rfl := Option.some.inj hs
    exact h.connect detached
  | copy number => exact h.copy hs
  | invalidate number =>
    obtain ⟨⟨hcall, -⟩, hs⟩ := Option.ite_none_right_eq_some.1 hs
    obtain rfl := Option.some.inj hs
    exact h.invalidate hcall
  | reset number =>
    obtain ⟨hcall, hs⟩ := Option.ite_none_right_eq_some.1 hs
    obtain rfl := Option.some.inj hs
    exact h.reset hcall
  | finish number =>
    obtain ⟨hcall, hs⟩ := Option.ite_none_right_eq_some.1 hs
    obtain rfl := Option.some.inj hs
    exact h.finish hcall
  | emit params =>
    obtain ⟨-, hs⟩ := Option.ite_none_right_eq_some.1 hs
    obtain rfl := Option.some.inj hs
    exact h.of_eq rfl rfl rfl rfl rfl rfl fun _ hmem => hmem
  | nest =>
    obtain ⟨e, -, -, rfl⟩ := nest_iff.1 hs
    exact h.of_eq rfl rfl rfl rfl rfl rfl fun _ hmem => hmem
  | emitStep result =>
    obtain ⟨e, -, -, rfl⟩ := emitStep_iff.1 hs
    exact emitStep_tokens r moved s result e h

/-! ## Observers -/

/-- What is known of the observers: who is not among them, `disconnect` was called for. -/
structure World.Listed (s : World ρ A R O) : Prop where
  sorted : (s.observers.map Observer.number).Pairwise (· < ·)
  lt : ∀ it ∈ s.observers, it.number < s.count
  present : ∀ number < s.count, number ∈ s.observers.map Observer.number ∨ number ∈ s.begun
  detached : ∀ it ∈ s.observers, it.detached = true → it.number ∉ s.connections
  attached : ∀ it ∈ s.observers, it.detached = false → s.linked it.number = true ∨ it.number ∈ s.begun
  pending : ∀ call ∈ s.pending, call.1 ∈ s.begun

theorem World.Listed.connect {s : World ρ A R O} (h : s.Listed) (ht : s.Tokens) (detached : Bool) :
    (s.connect detached).Listed := by
  unfold World.connect
  refine ⟨?_, ?_, fun number hlt => ?_, ?_, ?_, h.pending⟩
  · dsimp only
    rw [List.map_append, List.pairwise_append]
    refine ⟨h.sorted, List.pairwise_singleton .., fun n hn m hm => ?_⟩
    obtain ⟨it, hit, rfl⟩ := List.mem_map.1 hn
    rw [List.map_singleton, List.mem_singleton] at hm
    rw [hm]
    exact h.lt it hit
  · rw [List.forall_mem_append]
    exact ⟨fun it hit => (h.lt it hit).trans (Nat.lt_succ_self _), List.forall_mem_singleton.2 (Nat.lt_succ_self _)⟩
  · dsimp only
    rw [List.map_append, List.mem_append, List.map_singleton, List.mem_singleton]
    rcases Nat.lt_succ_iff_lt_or_eq.1 hlt with hold | hnew
    · exact (h.present number hold).imp_left .inl
    · exact .inl (.inr hnew)
  · rw [List.forall_mem_append, List.forall_mem_singleton]
    refine ⟨fun it hit hdetached hmem => h.detached it hit hdetached ?_, fun hdetached => ?_⟩
    · dsimp only at hmem
      split_ifs at hmem
      · exact hmem
      · exact (List.mem_cons.1 hmem).resolve_left (h.lt it hit).ne
    · dsimp only at hdetached ⊢
      rw [if_pos hdetached]
      exact fun hmem => (ht.connections _ hmem).false
  · rw [List.forall_mem_append, List.forall_mem_singleton]
    refine ⟨fun it hit hdetached => ?_, fun hdetached => .inl ?_⟩
    · dsimp only
      rw [update_of_ne (h.lt it hit).ne]
      exact h.attached it hit hdetached
    · dsimp only at hdetached ⊢
      rw [update_self, hdetached]
      rfl

/-- The steps of `disconnect` leave the observers alone. -/
theorem World.Listed.of_disconnect {s s' : World ρ A R O} (h : s.Listed) (hobservers : s'.observers = s.observers)
    (hcount : s'.count = s.count) (hconnections : s'.connections = s.connections)
    (hbegun : ∀ number ∈ s.begun, number ∈ s'.begun)
    (hlinked : ∀ number, s.linked number = true → s'.linked number = true ∨ number ∈ s'.begun)
    (hpending : ∀ call ∈ s'.pending, call.1 ∈ s'.begun) : s'.Listed where
  sorted := by rw [hobservers]; exact h.sorted
  lt := by rw [hobservers, hcount]; exact h.lt
  present number hlt := by
    rw [hobservers]
    exact (h.present number (hcount ▸ hlt)).imp_right (hbegun number)
  detached := by rw [hobservers, hconnections]; exact h.detached
  attached it hit hdetached := by
    rcases h.attached it (hobservers ▸ hit) hdetached with hold | hmem
    · exact hlinked _ hold
    · exact .inr (hbegun _ hmem)
  pending := hpending

/-- An observer whose token is gone has been disconnected. -/
theorem World.Listed.erase {s : World ρ A R O} (h : s.Listed) {i : ℕ} {it : Observer} (hit : s.observers[i]? = some it)
    (hdetached : it.detached = false) (halive : s.alive it.number = false) :
    World.Listed { s with observers := s.observers.eraseIdx i } := by
  have hsub : ∀ o ∈ s.observers.eraseIdx i, o ∈ s.observers := fun o ho => List.mem_of_mem_eraseIdx ho
  refine ⟨?_, fun o ho => h.lt o (hsub o ho), fun number hlt => ?_, fun o ho => h.detached o (hsub o ho),
    fun o ho => h.attached o (hsub o ho), h.pending⟩
  · exact h.sorted.sublist ((List.eraseIdx_sublist ..).map _)
  · rcases h.present number hlt with hmem | hbegun
    · obtain ⟨o, ho, rfl⟩ := List.mem_map.1 hmem
      obtain ⟨j, hj⟩ := List.mem_iff_getElem?.1 ho
      by_cases hji : j = i
      · obtain rfl : it = o := by
          rw [hji, hit] at hj
          exact Option.some.inj hj
        refine .inr ((h.attached it ho hdetached).resolve_left fun hlinked => ?_)
        unfold World.alive at halive
        rw [hlinked, Bool.true_or] at halive
        cases halive
      · exact .inl (List.mem_map_of_mem (List.mem_eraseIdx_iff_getElem?.2 ⟨j, hji, hj⟩))
    · exact .inr hbegun

/-! ## The loop -/

/-- How far an `emit` has come. -/
structure Emission.Running (r : Reducer ρ R O) (s : World ρ A R O) (e : Emission ρ A R) : Prop where
  count : e.count = s.count
  called : (s.observers.take e.it).map Observer.number = e.calls.map Call.number
  reducer : e.reducer = (e.calls.map Call.result).foldl r.process r.initial
  holding : ∀ it, e.phase = .holding it → s.observers[e.it]? = some it
  calling : ∀ it args, e.phase = .calling it args →
    s.observers[e.it]? = some it ∧ (it.detached = true ∨ s.valid it.number = true)
  nested : e.nested = true → e.phase.runs = true

/-- The steps of `disconnect` leave the loop alone. -/
theorem Emission.Running.of_eq {s s' : World ρ A R O} {e : Emission ρ A R} (h : e.Running r s)
    (hobservers : s'.observers = s.observers) (hcount : s'.count = s.count) (hvalid : s'.valid = s.valid) :
    e.Running r s' where
  count := h.count.trans hcount.symm
  called := by rw [hobservers]; exact h.called
  reducer := h.reducer
  holding := by rw [hobservers]; exact h.holding
  calling := by rw [hobservers, hvalid]; exact h.calling
  nested := h.nested

/-- Only a callback that runs has emitted the signal. -/
theorem Emission.Running.free {s : World ρ A R O} {e : Emission ρ A R} (h : e.Running r s)
    (hphase : e.phase.runs = false) : e.nested = false := by
  rw [Bool.eq_false_iff]
  intro hnested
  rw [h.nested hnested] at hphase
  cases hphase

/-- When the loop is over, every callback that stayed connected has been called. -/
theorem Emission.Running.right {s : World ρ A R O} {e : Emission ρ A R} (h : e.Running r s) (hl : s.Listed)
    (hover : s.observers[e.it]? = none) : Returned.Right r ⟨e.count, e.calls, r.get e.reducer, s.begun⟩ := by
  have hall : s.observers.map Observer.number = e.calls.map Call.number := by
    rw [← h.called, List.take_of_length_le (List.getElem?_eq_none_iff.1 hover)]
  have hsorted := hl.sorted
  rw [hall] at hsorted
  refine ⟨fun number hlt hbegun => ?_, hsorted, by dsimp only; rw [h.reducer]⟩
  dsimp only at hlt hbegun ⊢
  have hmem := (hl.present number (h.count ▸ hlt)).resolve_right hbegun
  rw [hall] at hmem
  exact List.count_eq_one_of_mem (hsorted.imp fun hlt => hlt.ne) hmem

/-- What every reached state has. -/
structure World.Kept (r : Reducer ρ R O) (s : World ρ A R O) : Prop where
  tokens : s.Tokens
  listed : s.Listed
  emission : ∀ e, s.emission = some e → e.Running r s
  returned : ∀ f ∈ s.returned, f.Right r
  called : QuietAfter s.trace

theorem World.Kept.emitsRight {s : World ρ A R O} (h : s.Kept r) : s.EmitsRight r where
  returned := h.returned
  called := h.called
  calling e it args he hphase hmem := by
    obtain ⟨hit, hvalid⟩ := (h.emission e he).calling it args hphase
    obtain ⟨hconnection, hinvalid⟩ := h.tokens.trace it.number hmem
    rcases hvalid with hdetached | hvalid
    · exact h.listed.detached it (List.mem_of_getElem? hit) hdetached hconnection
    · rw [hinvalid] at hvalid
      cases hvalid

/-- The trace goes on with a callback whose token is valid. -/
theorem World.Kept.call {s : World ρ A R O} (h : s.Kept r) {it : Observer} (hit : it ∈ s.observers)
    (hvalid : it.detached = true ∨ s.valid it.number = true) :
    QuietAfter (s.trace ++ [.called it.number]) := by
  refine List.pairwise_append.2 ⟨h.called, List.pairwise_singleton .., fun a ha b hb number hdisconnected hcalled => ?_⟩
  rw [List.mem_singleton.1 hb] at hcalled
  obtain ⟨rfl⟩ := Occurrence.called.inj hcalled
  obtain ⟨hconnection, hinvalid⟩ := h.tokens.trace it.number (hdisconnected ▸ ha)
  rcases hvalid with hdetached | hvalid
  · exact h.listed.detached it hit hdetached hconnection
  · rw [hinvalid] at hvalid
    cases hvalid

/-- The trace goes on with the return of a `disconnect`. -/
theorem QuietAfter.disconnected {trace : List Occurrence} {number : ℕ} (h : QuietAfter trace) :
    QuietAfter (trace ++ [.disconnected number]) := by
  refine List.pairwise_append.2 ⟨h, List.pairwise_singleton .., fun a _ b hb n _ hcalled => ?_⟩
  rw [List.mem_singleton.1 hb] at hcalled
  cases hcalled

theorem World.Kept.emitStep {s : World ρ A R O} {e : Emission ρ A R} (h : s.Kept r) (he : s.emission = some e)
    (hfree : e.nested = false) (moved : A → A) (result : R) : (s.emitStep r moved result e).Kept r := by
  have htokens := emitStep_tokens r moved s result e h.tokens
  -- a step of the emission connects and disconnects nothing
  have hlisted : ∀ emission trace returned,
      World.Listed { s with emission := emission, trace := trace, returned := returned } := fun _ _ _ =>
    h.listed.of_disconnect rfl rfl rfl (fun _ hb => hb) (fun _ hk => .inl hk) h.listed.pending
  obtain ⟨hcount, hcalled, hreducer, hholding, hcalling, hruns⟩ := h.emission e he
  have hnested : ∀ phase : Phase A, e.nested = true → phase.runs = true := by
    rw [hfree]
    exact nofun
  have hloop := looped r moved result e s
  generalize s.emitStep r moved result e = s' at htokens hloop ⊢
  cases hloop with
  | returns top last =>
    refine ⟨htokens, hlisted .., nofun, ?_, h.called⟩
    rw [List.forall_mem_append, List.forall_mem_singleton]
    exact ⟨h.returned, (h.emission e he).right h.listed last⟩
  | holds top found there =>
    refine ⟨htokens, hlisted .., ?_, h.returned, h.called⟩
    rintro _ ⟨rfl⟩
    refine ⟨hcount, hcalled, hreducer, ?_, nofun, hnested _⟩
    rintro _ ⟨rfl⟩
    exact found
  | erases top found gone =>
    obtain ⟨hdetached, halive⟩ := Bool.or_eq_false_iff.1 gone
    refine ⟨htokens, h.listed.erase found hdetached halive, fun e' he' => ?_, h.returned, h.called⟩
    obtain rfl : e = e' := Option.some.inj (he.symm.trans he')
    refine ⟨hcount, ?_, hreducer, by rw [top]; exact nofun, by rw [top]; exact nofun, hruns⟩
    dsimp only
    -- what stands before the index is called already
    rw [List.take_eraseIdx_eq_take_of_le _ _ _ le_rfl, hcalled]
  | calls holding valid =>
    rw [Bool.or_eq_true] at valid
    have hit := hholding _ holding
    refine ⟨htokens, hlisted .., ?_, h.returned, h.call (List.mem_of_getElem? hit) valid⟩
    rintro _ ⟨rfl⟩
    refine ⟨hcount, hcalled, hreducer, nofun, ?_, hnested _⟩
    rintro _ _ ⟨rfl, rfl⟩
    exact ⟨hit, valid⟩
  | skips =>
    refine ⟨htokens, hlisted .., ?_, h.returned, h.called⟩
    rintro _ ⟨rfl⟩
    exact ⟨hcount, hcalled, hreducer, nofun, nofun, hnested _⟩
  | called calling =>
    obtain ⟨hit, -⟩ := hcalling _ _ calling
    refine ⟨htokens, hlisted .., ?_, h.returned, h.called⟩
    rintro _ ⟨rfl⟩
    refine ⟨hcount, ?_, ?_, nofun, nofun, hnested _⟩
    · dsimp only
      rw [List.take_add_one, hit, List.map_append, List.map_append, hcalled]
      rfl
    · dsimp only
      rw [List.map_append, List.foldl_append, ← hreducer]
      rfl

theorem World.Kept.step {event : Event A R} {s s' : World ρ A R O} (h : s.Kept r)
    (hs : World.step r moved event s = some s') : s'.Kept r := by
  have htokens := h.tokens.step hs
  cases event with
  | connect detached =>
    obtain ⟨hnone, hs⟩ := Option.ite_none_right_eq_some.1 hs
    obtain rfl := Option.some.inj hs
    refine ⟨htokens, h.listed.connect h.tokens detached, fun e he => ?_, h.returned, h.called⟩
    rw [show s.emission = some e from he] at hnone
    cases hnone
  | copy number =>
    obtain ⟨-, hs⟩ := Option.ite_none_right_eq_some.1 hs
    have hbegun : ∀ n ∈ s.begun, n ∈ number :: s.begun := fun n hn => List.mem_cons_of_mem _ hn
    dsimp only at hs
    split_ifs at hs with hlinked
    · obtain rfl := Option.some.inj hs
      refine ⟨htokens, ?_, fun e he => (h.emission e he).of_eq rfl rfl rfl, h.returned, h.called⟩
      refine h.listed.of_disconnect rfl rfl rfl hbegun (fun _ hk => .inl hk) ?_
      exact List.forall_mem_cons.2 ⟨List.mem_cons_self, fun call hcall => hbegun _ (h.listed.pending call hcall)⟩
    · obtain rfl := Option.some.inj hs
      refine ⟨htokens, ?_, fun e he => (h.emission e he).of_eq rfl rfl rfl, h.returned, h.called.disconnected⟩
      exact h.listed.of_disconnect rfl rfl rfl hbegun (fun _ hk => .inl hk) fun call hcall =>
        hbegun _ (h.listed.pending call hcall)
  | invalidate number =>
    obtain ⟨⟨hcall, hunlocked⟩, hs⟩ := Option.ite_none_right_eq_some.1 hs
    obtain rfl := Option.some.inj hs
    refine ⟨htokens, ?_, fun e he => ?_, h.returned, h.called⟩
    · refine h.listed.of_disconnect rfl rfl rfl (fun _ hb => hb) (fun _ hk => .inl hk) fun call hmem => ?_
      have hbegun : number ∈ s.begun := h.listed.pending _ hcall
      rcases mem_advance hmem with rfl | hold
      · exact hbegun
      · exact h.listed.pending call hold
    · obtain ⟨hcount, hcalled, hreducer, hholding, hcalling, hruns⟩ := h.emission e he
      refine ⟨hcount, hcalled, hreducer, hholding, fun it args hphase => ?_, hruns⟩
      obtain ⟨hit, hvalid⟩ := hcalling it args hphase
      refine ⟨hit, ?_⟩
      -- the token of a callback that runs is locked
      by_cases hdetached : it.detached = true
      · exact .inl hdetached
      · refine .inr ?_
        have hne : it.number ≠ number := by
          intro heq
          unfold World.locked at hunlocked
          rw [show s.emission = some e from he] at hunlocked
          simp [hphase, hdetached, heq] at hunlocked
        dsimp only
        rw [update_of_ne hne]
        exact hvalid.resolve_left hdetached
  | reset number =>
    obtain ⟨hcall, hs⟩ := Option.ite_none_right_eq_some.1 hs
    obtain rfl := Option.some.inj hs
    refine ⟨htokens, ?_, fun e he => (h.emission e he).of_eq rfl rfl rfl, h.returned, h.called⟩
    have hbegun : number ∈ s.begun := h.listed.pending _ hcall
    refine h.listed.of_disconnect rfl rfl rfl (fun _ hb => hb) (fun n hk => ?_) fun call hmem => ?_
    · by_cases hn : n = number
      · rw [hn]
        exact .inr hbegun
      · dsimp only
        rw [update_of_ne hn]
        exact .inl hk
    · rcases mem_advance hmem with rfl | hold
      · exact hbegun
      · exact h.listed.pending call hold
  | finish number =>
    obtain ⟨hcall, hs⟩ := Option.ite_none_right_eq_some.1 hs
    obtain rfl := Option.some.inj hs
    refine ⟨htokens, ?_, fun e he => (h.emission e he).of_eq rfl rfl rfl, h.returned, h.called.disconnected⟩
    exact h.listed.of_disconnect rfl rfl rfl (fun _ hb => hb) (fun _ hk => .inl hk) fun call hmem =>
      h.listed.pending call (List.mem_of_mem_erase hmem)
  | emit params =>
    obtain ⟨-, hs⟩ := Option.ite_none_right_eq_some.1 hs
    obtain rfl := Option.some.inj hs
    refine ⟨htokens, h.listed.of_disconnect rfl rfl rfl (fun _ hb => hb) (fun _ hk => .inl hk) h.listed.pending, ?_,
      h.returned, h.called⟩
    rintro _ ⟨rfl⟩
    exact ⟨rfl, rfl, rfl, nofun, nofun, nofun⟩
  | nest =>
    obtain ⟨e, he, hruns, rfl⟩ := nest_iff.1 hs
    refine ⟨htokens, h.listed.of_disconnect rfl rfl rfl (fun _ hb => hb) (fun _ hk => .inl hk) h.listed.pending, ?_,
      h.returned, h.called⟩
    rintro _ ⟨rfl⟩
    obtain ⟨hcount, hcalled, hreducer, hholding, hcalling, -⟩ := h.emission e he
    exact ⟨hcount, hcalled, hreducer, hholding, hcalling, fun _ => hruns⟩
  | emitStep result =>
    obtain ⟨e, he, hfree, rfl⟩ := emitStep_iff.1 hs
    exact h.emitStep he hfree moved result

/-! ## The end of an `emit` -/

theorem World.Ends.next {s : World ρ A R O} {e : Emission ρ A R} (he : s.emission = some e) (hfree : e.nested = false)
    (h : ∀ result, (s.emitStep r moved result e).Ends r moved) : s.Ends r moved := by
  intro results
  obtain ⟨n, s', hrun, hnone⟩ := h (results 0) fun i => results (i + 1)
  refine ⟨n + 1, s', ?_, hnone⟩
  rw [List.range_succ_eq_map, List.map_cons, List.map_map]
  exact Option.bind_eq_some_iff.2 ⟨s.emitStep r moved (results 0) e, emitStep_iff.2 ⟨e, he, hfree, rfl⟩, hrun⟩

/-- Where no `disconnect` is going on, a token that something holds is valid. -/
theorem World.Tokens.valid_of_alive {s : World ρ A R O} (h : s.Tokens) (hpending : s.pending = []) {number : ℕ}
    (halive : s.alive number = true) : s.valid number = true := by
  unfold World.alive at halive
  rw [hpending, List.any_nil, Bool.or_false] at halive
  by_contra hinvalid
  have hmem := h.linked number halive (Bool.eq_false_iff.2 hinvalid)
  rw [hpending] at hmem
  cases hmem

/-- From the top of the loop every round calls a callback or erases an observer. -/
theorem World.Kept.ends_top {k : ℕ} {s : World ρ A R O} {e : Emission ρ A R} (h : s.Kept r) (hpending : s.pending = [])
    (he : s.emission = some e) (hphase : e.phase = .top) (hk : s.observers.length - e.it ≤ k) : s.Ends r moved := by
  induction k generalizing s e with
  | zero =>
    have hfree := (h.emission e he).free (by rw [hphase]; rfl)
    refine .next he hfree fun result => ?_
    rw [emitStep_returns hphase (List.getElem?_eq_none_iff.2 (by omega))]
    exact fun results => ⟨0, _, rfl, rfl⟩
  | succ k ih =>
    have hfree := (h.emission e he).free (by rw [hphase]; rfl)
    refine .next he hfree fun result => ?_
    have hkept := h.emitStep he hfree moved result
    cases hit : s.observers[e.it]? with
    | none =>
      rw [emitStep_returns hphase hit]
      exact fun results => ⟨0, _, rfl, rfl⟩
    | some it =>
      have hlt := (List.getElem?_eq_some_iff.1 hit).1
      cases hthere : it.detached || s.alive it.number with
      | true =>
        -- the token is there, and so it is valid
        have hvalid : (it.detached || s.valid it.number) = true := by
          rw [Bool.or_eq_true] at hthere ⊢
          exact hthere.imp_right (h.tokens.valid_of_alive hpending)
        rw [emitStep_holds hphase hit hthere] at hkept ⊢
        refine .next rfl hfree fun result => ?_
        have hkept := hkept.emitStep rfl hfree moved result
        rw [emitStep_calls (e := { e with phase := .holding it })
          (s := { s with emission := some { e with phase := .holding it } }) rfl hvalid] at hkept ⊢
        refine .next rfl hfree fun result => ?_
        have hkept := hkept.emitStep rfl hfree moved result
        rw [emitStep_called (e := { e with phase := .calling it e.params, params := moved e.params }) rfl] at hkept ⊢
        refine ih hkept hpending rfl rfl ?_
        dsimp only
        omega
      | false =>
        rw [emitStep_erases hphase hit hthere] at hkept ⊢
        refine ih hkept hpending he hphase ?_
        dsimp only
        rw [List.length_eraseIdx_of_lt hlt]
        omega

/-- A callback that runs returns. -/
theorem World.Kept.ends_calling {s : World ρ A R O} {e : Emission ρ A R} {it : Observer} {args : A} (h : s.Kept r)
    (hpending : s.pending = []) (he : s.emission = some e) (hfree : e.nested = false)
    (hphase : e.phase = .calling it args) : s.Ends r moved := by
  refine .next he hfree fun result => ?_
  have hkept := h.emitStep he hfree moved result
  rw [emitStep_called hphase] at hkept ⊢
  exact hkept.ends_top hpending rfl rfl le_rfl

theorem World.Kept.ends {s : World ρ A R O} (h : s.Kept r) (hpending : s.pending = []) (hnests : s.nests = false) :
    s.Ends r moved := by
  cases he : s.emission with
  | none => exact fun results => ⟨0, s, rfl, he⟩
  | some e =>
    have hfree : e.nested = false := by
      unfold World.nests at hnests
      rwa [he] at hnests
    cases hphase : e.phase with
    | top => exact h.ends_top hpending he hphase le_rfl
    | holding it =>
      refine .next he hfree fun result => ?_
      have hkept := h.emitStep he hfree moved result
      cases hvalid : it.detached || s.valid it.number with
      | true =>
        rw [emitStep_calls hphase hvalid] at hkept ⊢
        exact hkept.ends_calling hpending rfl hfree rfl
      | false =>
        rw [emitStep_skips hphase hvalid] at hkept ⊢
        exact hkept.ends_top hpending rfl rfl le_rfl
    | calling it args => exact h.ends_calling hpending he hfree hphase

theorem kept_of_reaches {s : World ρ A R O} (h : Reaches (World.step r moved) Free World.new s) : s.Kept r := by
  refine h.invariant (fun _ _ _ hk _ hs => hk.step hs) ⟨?_, ?_, nofun, nofun, List.Pairwise.nil⟩
  · exact ⟨nofun, nofun, nofun, nofun, nofun, nofun⟩
  · exact ⟨List.Pairwise.nil, nofun, fun number hlt => absurd hlt (Nat.not_lt_zero number), nofun, nofun, nofun⟩

/-- A handler that has emitted the signal waits in every state from then on: the `emit` it waits for does not go on. -/
theorem nests_for_ever {s s' : World ρ A R O} (hnests : s.nests = true) (h : Reaches (World.step r moved) Free s s') :
    s'.nests = true := by
  refine h.invariant (I := fun t => t.nests = true) (fun event t t' ht _ hs => ?_) hnests
  obtain ⟨e, he, hnested⟩ := (Option.any_eq_true ..).1 ht
  have hgoing : ¬t.emission.isNone = true := by
    rw [he]
    exact Bool.false_ne_true
  cases event with
  | connect detached => exact absurd (Option.ite_none_right_eq_some.1 hs).1 hgoing
  | copy number =>
    obtain ⟨-, hs⟩ := Option.ite_none_right_eq_some.1 hs
    dsimp only at hs
    split_ifs at hs
    all_goals
      obtain rfl := Option.some.inj hs
      exact ht
  | invalidate number =>
    obtain ⟨-, hs⟩ := Option.ite_none_right_eq_some.1 hs
    obtain rfl := Option.some.inj hs
    exact ht
  | reset number =>
    obtain ⟨-, hs⟩ := Option.ite_none_right_eq_some.1 hs
    obtain rfl := Option.some.inj hs
    exact ht
  | finish number =>
    obtain ⟨-, hs⟩ := Option.ite_none_right_eq_some.1 hs
    obtain rfl := Option.some.inj hs
    exact ht
  | emit params => exact absurd (Option.ite_none_right_eq_some.1 hs).1 hgoing
  | nest =>
    obtain ⟨e', -, -, rfl⟩ := nest_iff.1 hs
    rfl
  | emitStep result =>
    obtain ⟨e', he', hfree, -⟩ := emitStep_iff.1 hs
    obtain rfl := Option.some.inj (he.symm.trans he')
    rw [hfree] at hnested
    cases hnested

/-- **Signals**: in every state that is reached, every `emit` was right; and where no `disconnect` is going on, the one
that is comes to its end, unless one of its handlers has emitted the signal. -/
theorem emits_right (r : Reducer ρ R O) (moved : A → A) {s : World ρ A R O}
    (h : Reaches (World.step r moved) Free World.new s) :
    s.EmitsRight r ∧ (s.pending = [] → s.nests = false → s.Ends r moved) :=
  ⟨(kept_of_reaches h).emitsRight, (kept_of_reaches h).ends⟩

/-- `tarp::reduce::sum`. -/
def sum : Reducer ℕ ℕ ℕ where
  initial := 0
  process := (· + ·)
  get m_sum := m_sum

/-- The second of three callbacks is disconnected while the first one runs. -/
theorem emits_right_three : ∃ s : World ℕ Unit ℕ ℕ, Reaches (World.step sum id) Free World.new s ∧
    s.returned.map Returned.output = [30] ∧ s.EmitsRight sum ∧ (s.pending = [] → s.nests = false → s.Ends sum id) := by
  obtain ⟨s, hreach, houtput⟩ : ∃ s : World ℕ Unit ℕ ℕ, Reaches (World.step sum id) Free World.new s ∧
      s.returned.map Returned.output = [30] :=
    exists_of_events [.connect true, .connect false, .connect false, .emit (), .emitStep 0, .emitStep 0, .copy 1,
      .invalidate 1, .emitStep 10, .emitStep 0, .emitStep 0, .reset 1, .finish 1, .emitStep 0, .emitStep 0, .emitStep 0,
      .emitStep 20, .emitStep 0] (by decide +kernel)
  exact ⟨s, hreach, houtput, emits_right sum id hreach⟩

/-- **A handler that emits the signal waits for ever**: with one callback, which calls `emit`, no run comes to the end of
the `emit` that called it, and no `disconnect` is going on. -/
theorem nested_emit : ∃ s : World ℕ Unit ℕ ℕ, Reaches (World.step sum id) Free World.new s ∧ s.pending = [] ∧
    (∀ s', Reaches (World.step sum id) Free s s' → s'.emission ≠ none) ∧ ¬s.Ends sum id := by
  obtain ⟨s, hreach, hpending, hnests⟩ : ∃ s : World ℕ Unit ℕ ℕ, Reaches (World.step sum id) Free World.new s ∧
      s.pending = [] ∧ s.nests = true :=
    exists_of_events [.connect true, .emit (), .emitStep 0, .emitStep 0, .nest] (by decide +kernel)
  have hnever : ∀ s', Reaches (World.step sum id) Free s s' → s'.emission ≠ none := by
    intro s' hs' hnone
    have hwaits := nests_for_ever hnests hs'
    unfold World.nests at hwaits
    rw [hnone] at hwaits
    cases hwaits
  refine ⟨s, hreach, hpending, hnever, fun hends => ?_⟩
  obtain ⟨n, s', hrun, hnone⟩ := hends fun _ => 0
  exact hnever s' (reaches_of_run hrun) hnone

end Libtarp.Signal
