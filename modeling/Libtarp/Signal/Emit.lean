import Libtarp.Lib.Transition
import Mathlib.Logic.Function.Basic

/-!
# Signals (`signal.hxx`)

A connection and its observer share a token. `disconnect` makes the token invalid and drops it; `emit` goes
through the observers, asks each one for its token, and erases those whose token is gone. The mutex of the signal
is held for as long as an `emit` takes, and the mutex of a token while its validity is looked at and its callback
runs. A handler may emit the signal itself: it waits for the mutex that is held until it returns. Handlers connect and
disconnect nothing.

Tokens, observers and connections are numbered in the order of connection. A token is there as long as something
holds a shared pointer to it: its connection, or a call of `disconnect` that has made a copy.
-/

namespace Libtarp.Signal

open Function

/-- A reducer class. -/
structure Reducer (ρ R O : Type) where
  initial : ρ
  process : ρ → R → ρ
  get : ρ → O

/-- `observer`, without its callback. -/
structure Observer where
  number : ℕ
  detached : Bool
  deriving DecidableEq

/-- How far a call of `disconnect` has come. -/
inductive Stage
  | copied
  | invalidated
  | reset
  deriving DecidableEq

/-- A call of a callback: what it was called with, and its result. -/
structure Call (A R : Type) where
  number : ℕ
  args : A
  result : R

/-- Where the loop of `emit` is. -/
inductive Phase (A : Type)
  | top
  /-- It has the token of the observer, and is about to lock it. -/
  | holding (it : Observer)
  /-- The callback runs, with the token locked. -/
  | calling (it : Observer) (args : A)

def Phase.runs {A : Type} : Phase A → Bool
  | .top | .holding _ => false
  | .calling _ _ => true

/-- An `emit` that is going on; `it` is the index of the iterator. The connections that there were when it began
are those below `count`. -/
structure Emission (ρ A R : Type) where
  it : ℕ
  phase : Phase A
  /-- The callback that runs has called `emit`, and waits for the mutex of the signal. -/
  nested : Bool
  params : A
  reducer : ρ
  count : ℕ
  calls : List (Call A R)

/-- An `emit` that has returned, and the connections on which `disconnect` had been called by then. -/
structure Returned (A R O : Type) where
  count : ℕ
  calls : List (Call A R)
  output : O
  begun : List ℕ

inductive Occurrence
  | called (number : ℕ)
  /-- A `disconnect` has returned. -/
  | disconnected (number : ℕ)

/-- A signal, its tokens and its connections. `begun`, `trace` and `returned` say what happened. -/
structure World (ρ A R O : Type) where
  observers : List Observer
  count : ℕ
  valid : ℕ → Bool
  /-- The connections that `connect` has given to consumers. -/
  connections : List ℕ
  /-- `m_token` of the connection is not null. -/
  linked : ℕ → Bool
  /-- The calls of `disconnect` that go on. -/
  pending : List (ℕ × Stage)
  emission : Option (Emission ρ A R)
  begun : List ℕ
  trace : List Occurrence
  returned : List (Returned A R O)

/-- The steps of the threads. `copy`, `invalidate`, `reset` and `finish` are those of `disconnect`. -/
inductive Event (A R : Type)
  | connect (detached : Bool)
  | copy (number : ℕ)
  | invalidate (number : ℕ)
  | reset (number : ℕ)
  | finish (number : ℕ)
  | emit (params : A)
  /-- The callback that runs calls `emit` of the signal. -/
  | nest
  /-- The loop of `emit` goes on; where a callback runs, it returns `result`. -/
  | emitStep (result : R)

variable {ρ A R O : Type}

/-- `register_observer`. The token of a detached observer is given up at once. -/
def World.connect (detached : Bool) (s : World ρ A R O) : World ρ A R O :=
  { s with
    observers := s.observers ++ [⟨s.count, detached⟩]
    count := s.count + 1
    valid := update s.valid s.count true
    connections := if detached then s.connections else s.count :: s.connections
    linked := update s.linked s.count !detached }

/-- Something holds the token. -/
def World.alive (s : World ρ A R O) (number : ℕ) : Bool :=
  s.linked number || s.pending.any fun call => call.1 = number

/-- The token is locked by the `emit` that is going on. -/
def World.locked (s : World ρ A R O) (number : ℕ) : Bool :=
  match s.emission with
  | some e =>
    match e.phase with
    | .calling it _ => !it.detached && it.number = number
    | .top | .holding _ => false
  | none => false

/-- A call of `disconnect` goes from one stage to the next. -/
def World.advance (s : World ρ A R O) (number : ℕ) (stage stage' : Stage) : World ρ A R O :=
  { s with pending := (number, stage') :: s.pending.erase (number, stage) }

/-- One step of the loop of `emit`. `moved` is what forwarding leaves of the parameters. -/
def World.emitStep (r : Reducer ρ R O) (moved : A → A) (result : R) (e : Emission ρ A R) (s : World ρ A R O) :
    World ρ A R O :=
  match e.phase with
  | .top =>
    match s.observers[e.it]? with
    | none =>
      { s with
        emission := none
        returned := s.returned ++ [⟨e.count, e.calls, r.get e.reducer, s.begun⟩] }
    | some it =>
      -- the token that a detached observer gives is a new one
      if it.detached || s.alive it.number then { s with emission := some { e with phase := .holding it } }
      else { s with observers := s.observers.eraseIdx e.it }
  | .holding it =>
    if it.detached || s.valid it.number then
      { s with
        emission := some { e with phase := .calling it e.params, params := moved e.params }
        trace := s.trace ++ [.called it.number] }
    else { s with emission := some { e with phase := .top } }
  | .calling it args =>
    { s with emission := some { e with
        it := e.it + 1
        phase := .top
        reducer := r.process e.reducer result
        calls := e.calls ++ [⟨it.number, args, result⟩] } }

def World.step (r : Reducer ρ R O) (moved : A → A) (event : Event A R) (s : World ρ A R O) : Option (World ρ A R O) :=
  match event with
  | .connect detached => if s.emission.isNone then some (s.connect detached) else none
  | .copy number =>
    if number ∈ s.connections then
      let s := { s with begun := number :: s.begun }
      if s.linked number then some { s with pending := (number, .copied) :: s.pending }
      else some { s with trace := s.trace ++ [.disconnected number] }
    else none
  | .invalidate number =>
    if (number, .copied) ∈ s.pending ∧ s.locked number = false then
      some { s.advance number .copied .invalidated with valid := update s.valid number false }
    else none
  | .reset number =>
    if (number, .invalidated) ∈ s.pending then
      some { s.advance number .invalidated .reset with linked := update s.linked number false }
    else none
  | .finish number =>
    if (number, .reset) ∈ s.pending then
      some { s with
        pending := s.pending.erase (number, .reset)
        trace := s.trace ++ [.disconnected number] }
    else none
  | .emit params =>
    if s.emission.isNone then
      let e := {
        it := 0, phase := .top, nested := false, params := params, reducer := r.initial, count := s.count, calls := [] }
      some { s with emission := some e }
    else none
  | .nest =>
    match s.emission with
    | some e => if e.phase.runs then some { s with emission := some { e with nested := true } } else none
    | none => none
  | .emitStep result => s.emission.bind fun e => if e.nested then none else some (s.emitStep r moved result e)

/-- A new signal. -/
def World.new : World ρ A R O where
  observers := []
  count := 0
  valid _ := false
  connections := []
  linked _ := false
  pending := []
  emission := none
  begun := []
  trace := []
  returned := []

end Libtarp.Signal
