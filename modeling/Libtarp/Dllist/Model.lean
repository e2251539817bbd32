import Libtarp.Common
import Libtarp.Lib.Run
import Mathlib.Logic.Function.Basic

/-!
# The doubly linked list (`dllist.c`)

The links of all nodes are kept apart from the heads of the lists, so that nodes can move from
one list to another. Of the destructor only whether there is one is kept. The loop of
`Dll_upend` takes a number of rounds.
-/

namespace Libtarp.Dll

open Function

variable {ν : Type} [DecidableEq ν]

/-- `struct dllist`. -/
structure Dllist (ν : Type) where
  count : ℕ
  front : Option ν
  back : Option ν
  dtor : Bool

/-- `struct dlnode`, for every node. -/
structure Nodes (ν : Type) where
  next : ν → Option ν
  prev : ν → Option ν

/-- A list and the nodes. -/
structure State (ν : Type) where
  list : Dllist ν
  nodes : Nodes ν

/-- `DLLIST_INITIALIZER`. -/
def initializer (dtor : Bool) : Dllist ν := { count := 0, front := none, back := none, dtor := dtor }

def Nodes.setNext (m : Nodes ν) (node : ν) (p : Option ν) : Nodes ν := { m with next := update m.next node p }

def Nodes.setPrev (m : Nodes ν) (node : ν) (p : Option ν) : Nodes ν := { m with prev := update m.prev node p }

@[simp] theorem Nodes.setNext_next (m : Nodes ν) (node : ν) (p : Option ν) :
    (m.setNext node p).next = update m.next node p := rfl

@[simp] theorem Nodes.setNext_prev (m : Nodes ν) (node : ν) (p : Option ν) : (m.setNext node p).prev = m.prev := rfl

@[simp] theorem Nodes.setPrev_prev (m : Nodes ν) (node : ν) (p : Option ν) :
    (m.setPrev node p).prev = update m.prev node p := rfl

@[simp] theorem Nodes.setPrev_next (m : Nodes ν) (node : ν) (p : Option ν) : (m.setPrev node p).next = m.next := rfl

/-- The node a pointer leads to. -/
def deref : Option ν → Except Fault ν
  | some node => .ok node
  | none => .error .nullPointer

/-! ## Both ends -/

/-- `Dll_pop_front`. -/
def popFront (list : Dllist ν) (m : Nodes ν) : Except Fault (State ν × Option ν) :=
  match list.count with
  | 0 => .ok (⟨list, m⟩, none)
  | 1 => .ok (⟨{ list with count := 0, front := none, back := none }, m⟩, list.front)
  | 2 => do
    let node ← deref list.front
    let front ← deref (m.next node)
    let m := (m.setNext front none).setPrev front none
    pure (⟨{ list with count := 1, front := some front, back := some front }, m⟩, some node)
  | n + 3 => do
    let node ← deref list.front
    let front ← deref (m.next node)
    pure (⟨{ list with count := n + 2, front := some front }, m.setPrev front none⟩, some node)

/-- `Dll_pop_back`. -/
def popBack (list : Dllist ν) (m : Nodes ν) : Except Fault (State ν × Option ν) :=
  match list.count with
  | 0 => .ok (⟨list, m⟩, none)
  | 1 => .ok (⟨{ list with count := 0, front := none, back := none }, m⟩, list.back)
  | 2 => do
    let node ← deref list.back
    let front ← deref (m.prev node)
    let m := (m.setNext front none).setPrev front none
    pure (⟨{ list with count := 1, front := some front, back := some front }, m⟩, some node)
  | n + 3 => do
    let node ← deref list.back
    let back ← deref (m.prev node)
    pure (⟨{ list with count := n + 2, back := some back }, m.setNext back none⟩, some node)

/-- `Dll_push_front`. -/
def pushFront (list : Dllist ν) (m : Nodes ν) (node : ν) : Except Fault (State ν) :=
  let m := (m.setPrev node none).setNext node list.front
  if list.count = 0 then
    .ok ⟨{ list with count := list.count + 1, front := some node, back := some node }, m⟩
  else do
    let next ← deref (m.next node)
    pure ⟨{ list with count := list.count + 1, front := some node }, m.setPrev next (some node)⟩

/-- `Dll_push_back`. -/
def pushBack (list : Dllist ν) (m : Nodes ν) (node : ν) : Except Fault (State ν) :=
  let m := (m.setNext node none).setPrev node list.back
  if list.count = 0 then
    .ok ⟨{ list with count := list.count + 1, front := some node, back := some node }, m⟩
  else do
    let prev ← deref (m.prev node)
    pure ⟨{ list with count := list.count + 1, back := some node }, m.setNext prev (some node)⟩

/-! ## Anywhere in a list -/

/-- The node is taken out by `Dll_remove_node`. -/
def unlink (list : Dllist ν) (m : Nodes ν) (node : ν) : Except Fault (State ν) :=
  if list.count = 0 then .error .assertion
  else if some node = list.front then do
    let (s, _) ← popFront list m
    pure s
  else if some node = list.back then do
    let (s, _) ← popBack list m
    pure s
  else do
    let next ← deref (m.next node)
    let m := m.setPrev next (m.prev node)
    let prev ← deref (m.prev node)
    let m := m.setNext prev (m.next node)
    pure ⟨{ list with count := list.count - 1 }, m⟩

/-- `Dll_remove_node`. -/
def removeNode (list : Dllist ν) (m : Nodes ν) (node : ν) (freeContainer : Bool) : Except Fault (State ν) := do
  let s ← unlink list m node
  if freeContainer && !s.list.dtor then .error (.thrown .misconfigured) else pure s

/-- `Dll_put_node_after`. -/
def putNodeAfter (list : Dllist ν) (m : Nodes ν) (a b : ν) : Except Fault (State ν) :=
  if some a = list.back then pushBack list m b
  else do
    let m := m.setNext b (m.next a)
    let next ← deref (m.next b)
    let m := ((m.setPrev next (some b)).setPrev b (some a)).setNext a (some b)
    pure ⟨{ list with count := list.count + 1 }, m⟩

/-- `Dll_put_node_before`. -/
def putNodeBefore (list : Dllist ν) (m : Nodes ν) (a b : ν) : Except Fault (State ν) :=
  if some a = list.front then pushFront list m b
  else do
    let m := m.setPrev b (m.prev a)
    let prev ← deref (m.prev b)
    let m := ((m.setNext prev (some b)).setNext b (some a)).setPrev a (some b)
    pure ⟨{ list with count := list.count + 1 }, m⟩

/-- `Dll_replace_node`. -/
def replaceNode (list : Dllist ν) (m : Nodes ν) (a b : ν) : State ν :=
  let m := m.setNext b (m.next a)
  let m := m.setPrev b (m.prev a)
  let (list, m) := match m.next b with
    | some next => (list, m.setPrev next (some b))
    | none => ({ list with back := some b }, m)
  match m.prev b with
  | some prev => ⟨list, m.setNext prev (some b)⟩
  | none => ⟨{ list with front := some b }, m⟩

/-! ## The order of the nodes -/

/-- `Dll_rotate_to_node`. -/
def rotateToNode (list : Dllist ν) (m : Nodes ν) (node : ν) : Except Fault (State ν) :=
  if some node = list.front then .ok ⟨list, m⟩
  else do
    let back ← deref list.back
    let m := m.setNext back list.front
    let front ← deref list.front
    let m := m.setPrev front list.back
    let last ← deref (m.prev node)
    let m := (m.setPrev node none).setNext last none
    pure ⟨{ list with front := some node, back := some last }, m⟩

/-- At most `n` links followed. -/
def follow (link : ν → Option ν) : ℕ → Option ν → Option ν
  | n + 1, some node => follow link n (link node)
  | _, p => p

/-- `Dll_find_nth_node`. -/
def findNthNode (list : Dllist ν) (m : Nodes ν) (n : ℕ) : Except Fault (Option ν) :=
  if n = 0 then .error .assertion
  else if n > list.count then .ok none
  else if n ≤ list.count / 2 then .ok (follow m.next (n - 1) list.front)
  else .ok (follow m.prev (list.count - n) list.back)

/-- `Dll_rotate`. -/
def rotate (list : Dllist ν) (m : Nodes ν) (dir : ℤ) (numRotations : ℕ) : Except Fault (State ν) :=
  if dir ≠ 1 ∧ dir ≠ -1 then .error .assertion
  else if list.count < 2 ∨ numRotations = 0 then .ok ⟨list, m⟩
  else
    let remainder := numRotations % list.count
    if remainder = 0 then .ok ⟨list, m⟩
    else do
      let numRotations := if dir = 1 then remainder else list.count - remainder
      match ← findNthNode list m (numRotations + 1) with
      | some node => rotateToNode list m node
      | none => .error .assertion

/-- The loop of `Dll_upend`; `c` is the front of what was turned round so far, and `b` is `c`
again from the first round on. -/
def upendLoop (a : ν) : ℕ → Nodes ν → ν → ν → Except Fault (Nodes ν × ν)
  | rounds, m, b, c =>
    match m.next a with
    | none => .ok (m, b)
    | some b =>
      match rounds with
      | 0 => .error .rounds
      | rounds + 1 =>
        let m := (m.setNext a (m.next b)).setNext b (some c)
        upendLoop a rounds (m.setPrev c (some b)) b b

/-- `Dll_upend`. -/
def upend (rounds : ℕ) (list : Dllist ν) (m : Nodes ν) : Except Fault (State ν) :=
  if list.count < 2 then .ok ⟨list, m⟩
  else
    match list.front with
    | none => .error .assertion
    | some a => do
      let (m, b) ← upendLoop a rounds m a a
      pure ⟨{ list with front := some b, back := some a }, (m.setNext a none).setPrev b none⟩

/-! ## Calls -/

inductive Call (ν : Type)
  | pushFront (node : ν)
  | pushBack (node : ν)
  | popFront
  | popBack
  | removeNode (node : ν) (freeContainer : Bool)
  | putNodeAfter (a b : ν)
  | putNodeBefore (a b : ν)
  | replaceNode (a b : ν)
  | upend
  | rotate (dir : ℤ) (numRotations : ℕ)
  | rotateToNode (node : ν)

/-- A call that returns no node answers with none. -/
def exec (rounds : ℕ) (c : Call ν) (s : State ν) : Except Fault (State ν × Option ν) :=
  let void := fun r : Except Fault (State ν) => r.map fun s => (s, none)
  match c with
  | .pushFront node => void (pushFront s.list s.nodes node)
  | .pushBack node => void (pushBack s.list s.nodes node)
  | .popFront => popFront s.list s.nodes
  | .popBack => popBack s.list s.nodes
  | .removeNode node freeContainer => void (removeNode s.list s.nodes node freeContainer)
  | .putNodeAfter a b => void (putNodeAfter s.list s.nodes a b)
  | .putNodeBefore a b => void (putNodeBefore s.list s.nodes a b)
  | .replaceNode a b => void (.ok (replaceNode s.list s.nodes a b))
  | .upend => void (upend rounds s.list s.nodes)
  | .rotate dir numRotations => void (rotate s.list s.nodes dir numRotations)
  | .rotateToNode node => void (rotateToNode s.list s.nodes node)

end Libtarp.Dll
