import Libtarp.Bits
import Libtarp.Common
import Libtarp.Lib.Run
import Libtarp.Heap.Order

/-!
# The explicit heap (`explicit.c`, `impl/heap_impl.h`)

The nodes have pointers to their children and to their parent. The containers' priorities
are part of the state, since the caller changes them. Loops over the nodes take a number
of rounds.
-/

namespace Libtarp.Explicit

open Function Bits

variable {ν κ : Type} [DecidableEq ν]

/-- `struct xheapnode`. -/
@[ext]
structure XHeapNode (ν : Type) where
  l : Option ν
  r : Option ν
  p : Option ν
  deriving DecidableEq, Repr

abbrev Mem (ν : Type) := ν → XHeapNode ν

/-- `struct xheap`, with the nodes in memory and the priorities of their containers. -/
structure XHeap (ν κ : Type) where
  type : HeapOrder
  dtor : Bool
  root : Option ν
  count : ℕ
  mem : Mem ν
  prio : ν → κ

/-- `XHeap_init`. -/
def xheapInit (type : HeapOrder) (dtor : Bool) (mem : Mem ν) (prio : ν → κ) : XHeap ν κ :=
  { type, dtor, root := none, count := 0, mem, prio }

def childless (node : XHeapNode ν) : Bool := node.l.isNone && node.r.isNone

/-! ## Exchanging two nodes -/

/-- `assert_no_direct_cycle`. -/
def assertNoDirectCycle (mem : Mem ν) (node : ν) : Except Fault Unit :=
  if (mem node).p = some node ∨ (mem node).l = some node ∨ (mem node).r = some node then
    .error (.thrown .badLogic)
  else .ok ()

/-- A link of the other node, which now is that of `a`: where it led to `a`, it leads to `b`. -/
def redirect (a b : ν) (q : Option ν) : Option ν := if q = some a then some b else q

def redirectNode (a b : ν) (x : XHeapNode ν) : XHeapNode ν :=
  ⟨redirect a b x.l, redirect a b x.r, redirect a b x.p⟩

/-- The child `c`, if there is one, is told its parent. -/
def adopt (mem : Mem ν) (c : Option ν) (parent : ν) : Mem ν :=
  match c with
  | none => mem
  | some c => update mem c { mem c with p := some parent }

/-- The parent of `new`, unless it is `old`, gets `new` as a child in the place of `old`. -/
def repoint (mem : Mem ν) (new old : ν) : Mem ν :=
  match (mem new).p with
  | none => mem
  | some p =>
    if p = old then mem
    else if (mem p).l = some old then update mem p { mem p with l := some new }
    else update mem p { mem p with r := some new }

/-- The writes of `swap_nodes`. -/
def relink (mem : Mem ν) (a b : ν) : Mem ν :=
  let tmp := mem a
  let mem := update mem a (redirectNode a b (mem b))
  let mem := update mem b (redirectNode b a tmp)
  let mem := adopt mem (mem a).l a
  let mem := adopt mem (mem a).r a
  let mem := repoint mem a b
  let mem := adopt mem (mem b).l b
  let mem := adopt mem (mem b).r b
  repoint mem b a

def swapNodes (mem : Mem ν) (a b : ν) : Except Fault (Mem ν) := do
  assertNoDirectCycle mem a
  assertNoDirectCycle mem b
  let mem := relink mem a b
  assertNoDirectCycle mem a
  assertNoDirectCycle mem b
  pure mem

/-! ## Finding a node by its number -/

/-- The loop of `find_nth_node`. -/
def followBits (mem : Mem ν) (bitpath : ℕ) : ℕ → ν → Except Fault ν
  | 0, node => .ok node
  | i + 1, node =>
    match if getBit bitpath (i + 1) = 1 then (mem node).r else (mem node).l with
    | none => .error .assertion
    | some node => followBits mem bitpath i node

/-- `find_nth_node`; the number of the root is 1. -/
def findNthNode (mem : Mem ν) (root : Option ν) (count nth : ℕ) : Except Fault (Option ν) :=
  if count = 0 ∨ nth = 0 then .ok none
  else if nth > count then .ok none
  else
    match root with
    | none => .error .assertion
    | some node =>
      if nth = 1 then .ok (some node)
      else do
        let nbitsNeeded := posmsb nth - 1
        let bitpath := getBits nth nbitsNeeded nbitsNeeded
        let node ← followBits mem bitpath nbitsNeeded node
        pure (some node)

/-! ## Bubbling -/

/-- The child `c`, if there is one and it outranks `m`, and `m` otherwise. -/
def betterChild (out : ν → ν → Bool) (c : Option ν) (m : ν) : ν :=
  match c with
  | none => m
  | some c => if out c m then c else m

/-- `swap_down_while_unordered`. -/
def swapDownWhileUnordered (out : ν → ν → Bool) (p : ν) :
    ℕ → Mem ν → Option ν → Except Fault (Mem ν × Option ν)
  | 0, mem, root => if childless (mem p) then .ok (mem, root) else .error .rounds
  | rounds + 1, mem, root =>
    if childless (mem p) then .ok (mem, root)
    else if (mem p).l = some p ∨ (mem p).r = some p then .error .assertion
    else
      let m := betterChild out (mem p).r (betterChild out (mem p).l p)
      if p = m then .ok (mem, root)
      else if (mem p).l ≠ some m ∧ (mem p).r ≠ some m then .error .assertion
      else do
        let mem ← swapNodes mem p m
        swapDownWhileUnordered out p rounds mem (if (mem m).p.isNone then some m else root)

/-- The loop of `swap_up_while_unordered`. -/
def swapUpLoop (out : ν → ν → Bool) (c : ν) : ℕ → Mem ν → Except Fault (Mem ν)
  | 0, mem =>
    match (mem c).p with
    | none => .ok mem
    | some p => if out c p then .error .rounds else .ok mem
  | rounds + 1, mem =>
    match (mem c).p with
    | none => .ok mem
    | some p =>
      if out c p then do
        let mem ← swapNodes mem p c
        swapUpLoop out c rounds mem
      else .ok mem

/-- `swap_up_while_unordered`. -/
def swapUpWhileUnordered (out : ν → ν → Bool) (c : ν) (rounds : ℕ) (mem : Mem ν) (root : Option ν) :
    Except Fault (Mem ν × Option ν) := do
  let mem ← swapUpLoop out c rounds mem
  pure (mem, if (mem c).p.isNone then some c else root)

def bubbleDown (cmp : κ → κ → Ordering) (rounds : ℕ) (xh : XHeap ν κ) (node : Option ν) :
    Except Fault (XHeap ν κ) :=
  match node with
  | none => .error .assertion
  | some node =>
    if xh.count = 0 then .error .assertion
    else do
      let (mem, root) ← swapDownWhileUnordered (outranks xh.type cmp xh.prio) node rounds xh.mem xh.root
      pure { xh with mem, root }

def bubbleUp (cmp : κ → κ → Ordering) (rounds : ℕ) (xh : XHeap ν κ) (node : ν) :
    Except Fault (XHeap ν κ) :=
  if xh.count = 0 then .error .assertion
  else do
    let (mem, root) ← swapUpWhileUnordered (outranks xh.type cmp xh.prio) node rounds xh.mem xh.root
    pure { xh with mem, root }

/-! ## The interface -/

/-- The last node, a child of `p`, is taken off. -/
def cutLeaf (mem : Mem ν) (p last : ν) : Mem ν :=
  if (mem p).l = some last then update mem p { mem p with l := none }
  else update mem p { mem p with r := none }

/-- A new last node becomes a child of `p`. -/
def addLeaf (mem : Mem ν) (p node : ν) : Mem ν :=
  let mem := update mem node ⟨none, none, some p⟩
  if (mem p).l.isSome then update mem p { mem p with r := some node }
  else update mem p { mem p with l := some node }

/-- `XHeap_pop_root`. -/
def popRoot (cmp : κ → κ → Ordering) (rounds : ℕ) (xh : XHeap ν κ) : Except Fault (XHeap ν κ × Option ν) :=
  if xh.count = 0 then .ok (xh, none)
  else if xh.count = 1 then .ok ({ xh with root := none, count := xh.count - 1 }, xh.root)
  else do
    match ← findNthNode xh.mem xh.root xh.count xh.count, xh.root with
    | some last, some root =>
      if (xh.mem last).p.isNone ∨ childless (xh.mem root) then .error .assertion
      else do
        let mem ← swapNodes xh.mem last root
        match (mem root).p with
        | none => .error .assertion
        | some p =>
          let xh ← bubbleDown cmp rounds { xh with root := some last, mem := cutLeaf mem p root } (some last)
          pure ({ xh with count := xh.count - 1 }, some root)
    | _, _ => .error .assertion

/-- `XHeap_push_node`. -/
def pushNode (cmp : κ → κ → Ordering) (rounds : ℕ) (xh : XHeap ν κ) (node : ν) : Except Fault (XHeap ν κ) :=
  let count := xh.count + 1
  if count = 1 then .ok { xh with count, root := some node, mem := update xh.mem node ⟨none, none, none⟩ }
  else do
    match ← findNthNode xh.mem xh.root count (count >>> 1) with
    | none => .error .assertion
    | some p =>
      bubbleUp cmp rounds { xh with count, mem := addLeaf xh.mem p node } node

/-- `XHeap_remove_node`. -/
def removeNode (cmp : κ → κ → Ordering) (rounds : ℕ) (xh : XHeap ν κ) (node : ν) (freeContainer : Bool) :
    Except Fault (XHeap ν κ) :=
  if xh.count = 0 then .ok xh
  else do
    match ← findNthNode xh.mem xh.root xh.count xh.count with
    | none => .error .assertion
    | some last =>
      let xh ←
        if some node = xh.root then do
          let (xh, _) ← popRoot cmp rounds xh
          pure xh
        else do
          let mem ← swapNodes xh.mem node last
          match (mem node).p with
          | none => .error .nullPointer
          | some p =>
            let xh ← bubbleDown cmp rounds { xh with mem := cutLeaf mem p node } (some last)
            pure { xh with count := xh.count - 1 }
      if freeContainer && !xh.dtor then .error (.thrown .misconfigured) else pure xh

/-- `XHeap_priochange`. -/
def priochange (cmp : κ → κ → Ordering) (rounds : ℕ) (xh : XHeap ν κ) (node : ν) :
    Except Fault (XHeap ν κ) :=
  let c :=
    match (xh.mem node).p with
    | some p => cmp (xh.prio node) (xh.prio p)
    | none =>
      match xh.type with
      | .min => Ordering.gt
      | .max => Ordering.lt
  match xh.type, c with
  | .min, .eq => .ok xh
  | .min, .lt => bubbleUp cmp rounds xh node
  | .min, .gt => bubbleDown cmp rounds xh (some node)
  | .max, .eq => .ok xh
  | .max, .lt => bubbleDown cmp rounds xh (some node)
  | .max, .gt => bubbleUp cmp rounds xh node

/-! ## Calls -/

/-- A call. The caller sets the priority of a container before it pushes its node, and
changes it before it reports the change. -/
inductive Call (ν κ : Type)
  | pushNode (node : ν) (prio : κ)
  | popRoot
  | removeNode (node : ν) (freeContainer : Bool)
  | priochange (node : ν) (prio : κ)

def XHeap.setPrio (xh : XHeap ν κ) (node : ν) (prio : κ) : XHeap ν κ :=
  { xh with prio := update xh.prio node prio }

/-- A call, with the node it returns. -/
def exec (cmp : κ → κ → Ordering) (rounds : ℕ) (c : Call ν κ) (xh : XHeap ν κ) :
    Except Fault (XHeap ν κ × Option ν) :=
  match c with
  | .pushNode node prio => do
    let xh ← pushNode cmp rounds (xh.setPrio node prio) node
    pure (xh, none)
  | .popRoot => popRoot cmp rounds xh
  | .removeNode node freeContainer => do
    let xh ← removeNode cmp rounds xh node freeContainer
    pure (xh, none)
  | .priochange node prio => do
    let xh ← priochange cmp rounds (xh.setPrio node prio) node
    pure (xh, none)

end Libtarp.Explicit
