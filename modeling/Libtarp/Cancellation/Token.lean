import Libtarp.Lib.Transition
import Mathlib.Algebra.Group.Nat.Defs
import Mathlib.Logic.Function.Basic

/-!
# Cancellation tokens (`cancellation_token.hxx`)

Copies of a `cancellation_token` share a `token`, which has the notifiers in a map; each copy remembers the id that
its notifier has there. Every source has a token of its own, and the copy that the source keeps holds no notifier.

`wanted` says, for every copy, which notifier it should have: the one that was added last through it, with its id,
until it is removed, or the copy refers to another token, or its notifier is moved to another copy.
-/

namespace Libtarp.Cancellation

open Function

/-- `token`. The map is a list in the order of the ids. -/
structure Token (N : Type) where
  canceled : Bool
  observers : List (ℕ × N)
  lastId : ℕ

/-- `cancellation_token`: a copy, or one that was moved from, with no token. -/
structure Copy (S : Type) where
  token : Option S
  observerId : Option ℕ

variable {C S N : Type}

/-- `add_observer`; the id is a `uint32_t`. -/
def addObserver (f : N) (t : Token N) : Token N × Option ℕ :=
  if t.canceled then (t, none)
  else
    let observerId := (t.lastId + 1) % 2 ^ 32
    ({ t with
        observers := t.observers.filter (·.1 < observerId) ++ (observerId, f) :: t.observers.filter (observerId < ·.1)
        lastId := observerId }, some observerId)

/-- `remove_observer`. -/
def removeObserver (observerId : ℕ) (t : Token N) : Token N :=
  { t with observers := t.observers.filter (·.1 ≠ observerId) }

/-- `token::cancel`, with the notifiers that it invokes. -/
def cancel (t : Token N) : Token N × List N :=
  ({ t with canceled := true }, if t.canceled then [] else t.observers.map Prod.snd)

/-- The tokens of all sources, the copies that are alive, and what they should have. -/
structure World (C S N : Type) where
  token : S → Token N
  alive : List C
  copy : C → Copy S
  wanted : C → Option (ℕ × N)

inductive Op (C S N : Type)
  /-- `cancellation_token_source::token`. -/
  | fromSource (c : C) (source : S)
  | copyConstruct (c rhs : C)
  | moveConstruct (c rhs : C)
  | copyAssign (c rhs : C)
  | moveAssign (c rhs : C)
  | addNotifier (c : C) (f : N)
  | removeNotifier (c : C)
  | destroy (c : C)

variable [DecidableEq C] [DecidableEq S]

/-- The member initialisers: no token yet, and the id 0. -/
def Copy.initial : Copy S where
  token := none
  observerId := some 0

/-- `operator=(const cancellation_token &)`. -/
def World.copyAssign (c rhs : C) (w : World C S N) : World C S N :=
  { w with
    copy := update w.copy c { w.copy c with token := (w.copy rhs).token }
    wanted := if (w.copy c).token = (w.copy rhs).token then w.wanted else update w.wanted c none }

/-- `operator=(cancellation_token &&)`. A token that is moved onto itself stays. -/
def World.moveAssign (c rhs : C) (w : World C S N) : World C S N :=
  let token := (w.copy rhs).token
  let copy := update w.copy c { w.copy c with observerId := (w.copy rhs).observerId }
  let copy := update copy rhs { copy rhs with observerId := none }
  let copy := if c = rhs then copy else update copy rhs { copy rhs with token := none }
  { w with
    copy := update copy c { copy c with token := token }
    wanted := if c = rhs then w.wanted else update (update w.wanted c (w.wanted rhs)) rhs none }

/-- A copy that is being constructed. -/
def World.construct (c : C) (w : World C S N) : World C S N :=
  { w with
    alive := c :: w.alive
    copy := update w.copy c .initial
    wanted := update w.wanted c none }

/-- `m_token->remove_observer(*m_observer_id)`, where there is an id. -/
def World.removeObserver (c : C) (source : S) (w : World C S N) : World C S N :=
  match (w.copy c).observerId with
  | some observerId => { w with token := update w.token source (Cancellation.removeObserver observerId (w.token source)) }
  | none => w

/-- The copy has no notifier any more. -/
def World.forget (c : C) (w : World C S N) : World C S N := { w with wanted := update w.wanted c none }

/-- One operation. A copy that is constructed is a new one; others are alive. With no token, `add_notifier` and
`remove_notifier` of a copy with an id are undefined. -/
def World.step (op : Op C S N) (w : World C S N) : Option (World C S N) :=
  match op with
  | .fromSource c source =>
    if c ∈ w.alive then none
    else
      let w := w.construct c
      some { w with copy := update w.copy c { w.copy c with token := some source } }
  | .copyConstruct c rhs => if c ∉ w.alive ∧ rhs ∈ w.alive then some ((w.construct c).copyAssign c rhs) else none
  | .moveConstruct c rhs => if c ∉ w.alive ∧ rhs ∈ w.alive then some ((w.construct c).moveAssign c rhs) else none
  | .copyAssign c rhs => if c ∈ w.alive ∧ rhs ∈ w.alive then some (w.copyAssign c rhs) else none
  | .moveAssign c rhs => if c ∈ w.alive ∧ rhs ∈ w.alive then some (w.moveAssign c rhs) else none
  | .addNotifier c f =>
    if c ∈ w.alive then
      (w.copy c).token.map fun source =>
        let added := addObserver f (w.token source)
        { w with
          token := update w.token source added.1
          copy := update w.copy c { w.copy c with observerId := added.2 }
          wanted := update w.wanted c (added.2.map fun observerId => (observerId, f)) }
    else none
  | .removeNotifier c =>
    if c ∈ w.alive then
      match (w.copy c).token with
      | some source => some ((w.removeObserver c source).forget c)
      | none => if (w.copy c).observerId = none then some w else none
    else none
  | .destroy c =>
    if c ∈ w.alive then
      let destroyed := match (w.copy c).token with
        | some source => w.removeObserver c source
        | none => w
      some { destroyed.forget c with alive := destroyed.alive.erase c }
    else none

/-- The sources, with no copies. -/
def World.new : World C S N where
  token _ := { canceled := false, observers := [], lastId := 0 }
  alive := []
  copy _ := .initial
  wanted _ := none

/-- The notifiers that the copies of a token should have. -/
def World.expected (source : S) (w : World C S N) : List N :=
  w.alive.filterMap fun c => if (w.copy c).token = some source then (w.wanted c).map Prod.snd else none

end Libtarp.Cancellation
