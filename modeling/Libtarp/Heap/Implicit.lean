import Libtarp.Vector.Vect
import Libtarp.Lib.Run
import Libtarp.Heap.Order

/-!
# The implicit heap (`implicit.c`, `impl/heap_impl.h`)

The nodes are in a vector of pointers, in level order, and each has the field `idx` for its
position there. The containers' priorities are part of the state, since the caller changes
them; the comparator sees only them. `min` and `max` heaps differ in the predicate that
guides the exchanges.
-/

namespace Libtarp.Implicit

open Function Vec

variable {ν κ : Type} [DecidableEq ν]

/-- `struct heap`, with the fields of the nodes and the priorities of their containers.
`v` is null after the heap was cleared. -/
structure Heap (ν κ : Type) where
  type : HeapOrder
  v : Option (Vect ν)
  dtor : Bool
  idx : ν → ℕ
  prio : ν → κ

/-- `Heap_init`: the capacity asked for is 0, and a pointer has 8 bytes. -/
def heapInit (type : HeapOrder) (dtor : Bool) (bytes : ℕ → ν) (idx : ν → ℕ) (prio : ν → κ) : Heap ν κ :=
  { type, v := some { capacity := minCapacity, occupied := 0, itemsz := 8, bytes }, dtor, idx, prio }

/-- What the vector functions do first with the handle. -/
def handle (v : Option (Vect ν)) : Except Fault (Vect ν) :=
  match v with
  | some v => .ok v
  | none => .error (.thrown .badPointer)

/-- What `Heap_count` does with it, and through it the bubbling. -/
def counted (v : Option (Vect ν)) : Except Fault (Vect ν) :=
  match v with
  | some v => .ok v
  | none => .error .assertion

/-! ## Bubbling -/

/-- The better of `m` at `mi` and of the child at `ci`, if there is one. -/
def betterChild (out : ν → ν → Bool) (v : Vect ν) (has : Bool) (ci : ℕ) (m : ν × ℕ) :
    Except Fault (ν × ℕ) :=
  if has then do
    let c ← vectGet v ci
    pure (if out c m.1 then (c, ci) else m)
  else pure m

/-- `swap_down_while_unordered`. -/
def swapDownWhileUnordered (out : ν → ν → Bool) (heapsz lastPi : ℕ) :
    ℕ → ℕ → Vect ν → (ν → ℕ) → Except Fault (Vect ν × (ν → ℕ))
  | 0, pi, v, idx => if pi ≤ lastPi then .error .rounds else .ok (v, idx)
  | rounds + 1, pi, v, idx =>
    if pi ≤ lastPi then do
      let p ← vectGet v pi
      let m ← betterChild out v (Position.hasLeft pi heapsz) (Position.left pi) (p, pi)
      let (m, mi) ← betterChild out v (Position.hasRight pi heapsz) (Position.right pi) m
      if p = m then
        if pi = mi then pure (v, idx) else .error .assertion
      else if pi = mi then .error .assertion
      else do
        let v ← vectSet v pi m
        let v ← vectSet v mi p
        swapDownWhileUnordered out heapsz lastPi rounds mi v (update (update idx p mi) m pi)
    else pure (v, idx)

/-- `swap_up_while_unordered`. -/
def swapUpWhileUnordered (out : ν → ν → Bool) :
    ℕ → ℕ → Vect ν → (ν → ℕ) → Except Fault (Vect ν × (ν → ℕ))
  | 0, ci, v, idx => if Position.hasParent ci then .error .rounds else .ok (v, idx)
  | rounds + 1, ci, v, idx =>
    if Position.hasParent ci then do
      let pi := Position.parent ci
      let p ← vectGet v pi
      let c ← vectGet v ci
      if out c p then do
        let v ← vectSet v pi c
        let v ← vectSet v ci p
        swapUpWhileUnordered out rounds pi v (update (update idx c pi) p ci)
      else pure (v, idx)
    else pure (v, idx)

def bubbleDown (cmp : κ → κ → Ordering) (rounds : ℕ) (h : Heap ν κ) (v : Vect ν) (index : ℕ) :
    Except Fault (Heap ν κ) :=
  if v.occupied = 0 then .ok { h with v := some v }
  else do
    let (v, idx) ← swapDownWhileUnordered (outranks h.type cmp h.prio) v.occupied
      (Position.parent (v.occupied - 1)) rounds index v h.idx
    pure { h with v := some v, idx }

def bubbleUp (cmp : κ → κ → Ordering) (rounds : ℕ) (h : Heap ν κ) (v : Vect ν) (index : ℕ) :
    Except Fault (Heap ν κ) :=
  if v.occupied = 0 then .ok { h with v := some v }
  else do
    let (v, idx) ← swapUpWhileUnordered (outranks h.type cmp h.prio) rounds index v h.idx
    pure { h with v := some v, idx }

/-! ## The interface -/

/-- `Heap_pop_root`. -/
def popRoot (cmp : κ → κ → Ordering) (rounds : ℕ) (h : Heap ν κ) : Except Fault (Heap ν κ × ν) := do
  let v ← handle h.v
  let top ← vectFront v
  let (v, last) ← vectPopb v
  if top = last then pure ({ h with v := some v }, top)
  else
    let v ← vectSet v 0 last
    let h ← bubbleDown cmp rounds h v 0
    pure (h, top)

/-- `Heap_push_node`. -/
def pushNode (cmp : κ → κ → Ordering) (rounds : ℕ) (h : Heap ν κ) (node : ν) :
    Except Fault (Heap ν κ × Option ErrorCode) := do
  let v ← handle h.v
  match vectPushb v node with
  | (v, some rc) => pure ({ h with v := some v }, some rc)
  | (v, none) =>
    let h := { h with idx := update h.idx node (v.occupied - 1) }
    let h ← bubbleUp cmp rounds h v (v.occupied - 1)
    pure (h, none)

/-- `Heap_remove_node`. -/
def removeNode (cmp : κ → κ → Ordering) (rounds : ℕ) (h : Heap ν κ) (node : ν) (freeContainer : Bool) :
    Except Fault (Heap ν κ) := do
  let index := h.idx node
  let h ←
    if index = 0 then do
      let (h, _) ← popRoot cmp rounds h
      pure h
    else do
      let v ← handle h.v
      let back ← vectBack v
      let v ← vectSet v index back
      let (v, _) ← vectPopb v
      bubbleDown cmp rounds h v index
  if freeContainer && !h.dtor then .error (.thrown .misconfigured) else pure h

/-- `Heap_priochange`. -/
def priochange (cmp : κ → κ → Ordering) (rounds : ℕ) (h : Heap ν κ) (node : ν) :
    Except Fault (Heap ν κ) := do
  let index := h.idx node
  -- the root is not compared: only `bubble_down` looks at the vector then
  let v ← if Position.hasParent index then handle h.v else counted h.v
  let c ←
    if Position.hasParent index then do
      let p ← vectGet v (Position.parent index)
      pure (cmp (h.prio node) (h.prio p))
    else pure (match h.type with
      | .min => Ordering.gt
      | .max => Ordering.lt)
  match h.type, c with
  | .min, .eq => pure h
  | .min, .lt => bubbleUp cmp rounds h v index
  | .min, .gt => bubbleDown cmp rounds h v index
  | .max, .eq => pure h
  | .max, .lt => bubbleDown cmp rounds h v index
  | .max, .gt => bubbleUp cmp rounds h v index

/-! ## Calls -/

/-- A call. The caller sets the priority of a container before it pushes its node, and
changes it before it reports the change. -/
inductive Call (ν κ : Type)
  | pushNode (node : ν) (prio : κ)
  | popRoot
  | removeNode (node : ν) (freeContainer : Bool)
  | priochange (node : ν) (prio : κ)

inductive Answer (ν : Type)
  | code (rc : Option ErrorCode)
  | node (n : ν)
  | done

def Heap.setPrio (h : Heap ν κ) (node : ν) (prio : κ) : Heap ν κ :=
  { h with prio := update h.prio node prio }

def exec (cmp : κ → κ → Ordering) (rounds : ℕ) (c : Call ν κ) (h : Heap ν κ) :
    Except Fault (Heap ν κ × Answer ν) :=
  match c with
  | .pushNode node prio => do
    let (h, rc) ← pushNode cmp rounds (h.setPrio node prio) node
    pure (h, .code rc)
  | .popRoot => do
    let (h, top) ← popRoot cmp rounds h
    pure (h, .node top)
  | .removeNode node freeContainer => do
    let h ← removeNode cmp rounds h node freeContainer
    pure (h, .done)
  | .priochange node prio => do
    let h ← priochange cmp rounds (h.setPrio node prio) node
    pure (h, .done)

end Libtarp.Implicit
