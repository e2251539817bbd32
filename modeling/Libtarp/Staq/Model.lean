import Libtarp.Common
import Libtarp.Lib.Run
import Mathlib.Logic.Function.Basic

/-!
# The stack and queue in one (`staq.c`)

A singly linked list with a pointer to either end. The links of all nodes are kept apart from the head of the list, so
that nodes can be in no list. Of the destructor only whether there is one is kept. The loop of `Staq_upend` takes a
number of rounds.
-/

namespace Libtarp

open Function

/-- `struct staq`. -/
structure Staq (ν : Type) where
  count : ℕ
  front : Option ν
  back : Option ν
  dtor : Bool

namespace Staq

variable {ν : Type} [DecidableEq ν]

/-- A staq, and the `next` of every node. -/
structure State (ν : Type) where
  staq : Staq ν
  next : ν → Option ν

/-- `STAQ_INITIALIZER`. -/
def initializer (dtor : Bool) : Staq ν := { count := 0, front := none, back := none, dtor := dtor }

/-- The node a pointer leads to; without one the process ends. -/
def nonNull (fault : Fault) : Option ν → Except Fault ν
  | some node => .ok node
  | none => .error fault

/-! ## Both ends -/

/-- `Staq_pushback`. -/
def pushback (sq : Staq ν) (next : ν → Option ν) (node : ν) : Except Fault (State ν) :=
  let next := update next node none
  if sq.count > 0 then do
    let back ← nonNull .nullPointer sq.back
    pure ⟨{ sq with back := some node, count := sq.count + 1 }, update next back (some node)⟩
  else .ok ⟨{ sq with front := some node, back := some node, count := sq.count + 1 }, next⟩

/-- `Staq_popfront`. -/
def popfront (sq : Staq ν) (next : ν → Option ν) : Except Fault (State ν × Option ν) :=
  if sq.count = 0 then .ok (⟨sq, next⟩, none)
  else do
    let node ← nonNull .nullPointer sq.front
    let count := sq.count - 1
    let back := if count = 0 then none else sq.back
    pure (⟨{ sq with front := next node, back := back, count := count }, next⟩, some node)

/-- `Staq_pushfront`. -/
def pushfront (sq : Staq ν) (next : ν → Option ν) (node : ν) : State ν :=
  let back := if sq.count = 0 then some node else sq.back
  ⟨{ sq with front := some node, back := back, count := sq.count + 1 }, update next node sq.front⟩

/-! ## The order of the nodes -/

/-- The loop of `find_nth`, and the assertion after it. -/
def findNthLoop (next : ν → Option ν) : ℕ → Option ν → Except Fault ν
  | 0, node => nonNull .assertion node
  | n + 1, node => do
    let node ← nonNull .nullPointer node
    let node ← nonNull .assertion (next node)
    findNthLoop next n (some node)

/-- `find_nth`. -/
def findNth (sq : Staq ν) (next : ν → Option ν) (n : ℕ) : Except Fault ν :=
  if sq.count = 0 ∨ n = 0 then .error .assertion else findNthLoop next (n % sq.count) sq.front

/-- The node that `Staq_rotate` makes the last. -/
def newBack (sq : Staq ν) (next : ν → Option ν) (numRotations : ℕ) : Except Fault ν :=
  let n := numRotations - 1
  if n = 0 then nonNull .assertion sq.front else findNth sq next n

/-- `Staq_rotate`. -/
def rotate (sq : Staq ν) (next : ν → Option ν) (dir : ℤ) (numRotations : ℕ) : Except Fault (State ν) :=
  if dir ≠ 1 ∧ dir ≠ -1 then .error .assertion
  else if sq.count < 2 ∨ numRotations = 0 then .ok ⟨sq, next⟩
  else
    let remainder := numRotations % sq.count
    if remainder = 0 then .ok ⟨sq, next⟩
    else do
      let pre ← newBack sq next (if dir < 0 then sq.count - remainder else remainder)
      let back ← nonNull .nullPointer sq.back
      -- the circle is closed, and opened again behind `pre`
      let next := update next back sq.front
      pure ⟨{ sq with back := some pre, front := next pre }, update next pre none⟩

/-- The loop of `Staq_upend`; `c` is the front of what was turned round so far, and `b` is `c` again from the first
round on. -/
def upendLoop (a : ν) : ℕ → (ν → Option ν) → ν → ν → Except Fault ((ν → Option ν) × ν)
  | rounds, next, b, c =>
    match next a with
    | none => .ok (next, b)
    | some b =>
      match rounds with
      | 0 => .error .rounds
      | rounds + 1 =>
        let next := update next a (next b)
        upendLoop a rounds (update next b (some c)) b b

/-- `Staq_upend`. -/
def upend (rounds : ℕ) (sq : Staq ν) (next : ν → Option ν) : Except Fault (State ν) :=
  if sq.count < 2 then .ok ⟨sq, next⟩
  else
    match sq.front with
    | none => .ok ⟨{ sq with back := none, front := none }, next⟩
    | some a => do
      let (next, b) ← upendLoop a rounds next a a
      pure ⟨{ sq with back := some a, front := some b }, next⟩

/-! ## Anywhere in a staq -/

/-- `Staq_put_after`. -/
def putAfter (sq : Staq ν) (next : ν → Option ν) (x node : ν) : Except Fault (State ν) :=
  if sq.count = 0 then .error .assertion
  else
    let next := update next node (next x)
    let back := if some x = sq.back then some node else sq.back
    .ok ⟨{ sq with back := back, count := sq.count + 1 }, update next x (some node)⟩

/-! ## Calls -/

inductive Call (ν : Type)
  | pushback (node : ν)
  | pushfront (node : ν)
  | popfront
  | putAfter (x node : ν)
  | rotate (dir : ℤ) (numRotations : ℕ)
  | upend

/-- A call that returns no node answers with none. -/
def exec (rounds : ℕ) (c : Call ν) (s : State ν) : Except Fault (State ν × Option ν) :=
  let void := fun r : Except Fault (State ν) => r.map fun s => (s, none)
  match c with
  | .pushback node => void (pushback s.staq s.next node)
  | .pushfront node => void (.ok (pushfront s.staq s.next node))
  | .popfront => popfront s.staq s.next
  | .putAfter x node => void (putAfter s.staq s.next x node)
  | .rotate dir numRotations => void (rotate s.staq s.next dir numRotations)
  | .upend => void (upend rounds s.staq s.next)

end Staq

end Libtarp
