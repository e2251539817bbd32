import Libtarp.Common
import Libtarp.Lib.Run
import Libtarp.Lib.SearchTree
import Mathlib.Logic.Function.Basic

/-!
# The AVL tree (`avl.c`, `impl/bst_impl.h`)

Nodes are embedded in the caller's containers, so the model has a memory that gives the
fields of every node, in the tree or not. A null pointer is `none`. The tree is built
without `AVL_NODES_WITH_HEIGHT_FIELD`, as it is by default: only balance factors are
stored.

The source has each rotation and each side's case twice, mirrored. Here the two are one
definition with the side as a parameter.
-/

namespace Libtarp.Avl

open Lib

variable {ν : Type} [DecidableEq ν]

/-- `struct avlnode`. The factor is an `int8_t`; no call moves it by more than one. -/
structure AvlNode (ν : Type) where
  left : Option ν
  right : Option ν
  bf : ℤ

abbrev Mem (ν : Type) := ν → AvlNode ν

/-- `enum pathTraceDirection`. -/
inductive PathTraceDirection
  | left
  | equal
  | right
  deriving DecidableEq, Repr

/-- `struct avl_waypoint`. A stack of them is a list whose head is the top. -/
structure AvlWaypoint (ν : Type) where
  ptr : ν
  dir : PathTraceDirection

/-- `struct avltree`, with the memory its nodes are in. `dtor` tells whether a destructor
was given. -/
structure AvlTree (ν : Type) where
  mem : Mem ν
  root : Option ν
  cached : Option ν
  count : ℕ
  dtor : Bool

/-- `AVL_INITIALIZER`: the memory may hold anything. -/
def avlInitializer (mem : Mem ν) (dtor : Bool) : AvlTree ν :=
  { mem, root := none, cached := none, count := 0, dtor }

/-! ## Fields -/

def AvlNode.child (n : AvlNode ν) : Side → Option ν
  | .left => n.left
  | .right => n.right

def AvlNode.setChild (n : AvlNode ν) (s : Side) (p : Option ν) : AvlNode ν :=
  match s with
  | .left => { n with left := p }
  | .right => { n with right := p }

def Mem.setChild (mem : Mem ν) (n : ν) (s : Side) (p : Option ν) : Mem ν :=
  Function.update mem n ((mem n).setChild s p)

def Mem.setBf (mem : Mem ν) (n : ν) (bf : ℤ) : Mem ν :=
  Function.update mem n { mem n with bf }

/-- The use of a pointer. -/
def deref {α : Type} : Option α → Except Fault α
  | some a => .ok a
  | none => .error .nullPointer

/-- `assert(p)`, and the use of `p` after it. -/
def asserted {α : Type} : Option α → Except Fault α
  | some a => .ok a
  | none => .error .assertion

def initializeAvlNode (mem : Mem ν) (node : ν) : Mem ν :=
  Function.update mem node { left := none, right := none, bf := 0 }

def copyAvlnodeFields (mem : Mem ν) (a b : ν) (copyLeftChild copyRightChild : Bool) : Mem ν :=
  let mem := if copyLeftChild then mem.setChild a .left (mem b).left else mem
  let mem := if copyRightChild then mem.setChild a .right (mem b).right else mem
  mem.setBf a (mem b).bf

/-- What a `struct avlnode **` points to in this file: the root, or a child of a node. -/
inductive Ref (ν : Type)
  | root
  | child (n : ν) (s : Side)

/-- `*ref = p`. -/
def AvlTree.write (tree : AvlTree ν) (p : Option ν) : Ref ν → AvlTree ν
  | .root => { tree with root := p }
  | .child n s => { tree with mem := tree.mem.setChild n s p }

/-! ## The lookup cache -/

def cacheHit (cmp : ν → ν → Ordering) (tree : AvlTree ν) (key : ν) : Bool :=
  match tree.cached with
  | some c => cmp c key == .eq
  | none => false

def clearCache (tree : AvlTree ν) : AvlTree ν := { tree with cached := none }

def updateCache (tree : AvlTree ν) (node : ν) : AvlTree ν := { tree with cached := some node }

/-! ## Searches -/

/-- The loop of `avl_find_node`. -/
def findLoop (cmp : ν → ν → Ordering) (mem : Mem ν) (key : ν) : ℕ → Option ν → Except Fault (Option ν)
  | _, none => .ok none
  | 0, some _ => .error .rounds
  | rounds + 1, some node =>
    match cmp key node with
    | .lt => findLoop cmp mem key rounds (mem node).left
    | .eq => .ok (some node)
    | .gt => findLoop cmp mem key rounds (mem node).right

def avlFindNode (cmp : ν → ν → Ordering) (rounds : ℕ) (tree : AvlTree ν) (key : ν) :
    Except Fault (Option ν) :=
  if tree.count = 0 then .ok none
  else do
    let node ← asserted tree.root
    findLoop cmp tree.mem key rounds (some node)

/-- The loop of `avl_find_inorder_successor`. -/
def leftmostLoop (mem : Mem ν) : ℕ → Option ν → Except Fault (Option ν)
  | _, none => .ok none
  | 0, some _ => .error .rounds
  | rounds + 1, some node =>
    match (mem node).left with
    | none => .ok (some node)
    | some l => leftmostLoop mem rounds (some l)

def avlFindInorderSuccessor (rounds : ℕ) (mem : Mem ν) (node : ν) : Except Fault (Option ν) :=
  leftmostLoop mem rounds (mem node).right

/-- The loop of `avl_trace_path_to_node`. -/
def traceLoop (cmp : ν → ν → Ordering) (mem : Mem ν) (dst : ν) :
    ℕ → Option ν → List (AvlWaypoint ν) → Except Fault (List (AvlWaypoint ν))
  | _, none, path => .ok path
  | 0, some _, _ => .error .rounds
  | rounds + 1, some node, path =>
    match cmp dst node with
    | .lt => traceLoop cmp mem dst rounds (mem node).left ({ ptr := node, dir := .left } :: path)
    | .gt => traceLoop cmp mem dst rounds (mem node).right ({ ptr := node, dir := .right } :: path)
    | .eq => .ok ({ ptr := node, dir := .equal } :: path)

def avlTracePathToNode (cmp : ν → ν → Ordering) (rounds : ℕ) (tree : AvlTree ν) (src : Option ν)
    (dst : ν) : Except Fault (List (AvlWaypoint ν)) :=
  if tree.count = 0 then .ok []
  else do
    let node ← asserted (src <|> tree.root)
    traceLoop cmp tree.mem dst rounds (some node) []

/-! ## Rotations -/

/-- `a->s = b->o; b->o = a`, where `o` is the other side. -/
def rotate (s : Side) (mem : Mem ν) (a b : ν) : Mem ν × ν :=
  let mem := mem.setChild a s ((mem b).child s.other)
  let mem := mem.setChild b s.other (some a)
  (mem, b)

def doAvlRotateLeft (mem : Mem ν) (a b : ν) : Mem ν × ν := rotate .right mem a b

def doAvlRotateRight (mem : Mem ν) (a b : ν) : Mem ν × ν := rotate .left mem a b

/-- Moves `child`, the child of `parent` on its taller side `s`, above `parent`. The last
component is `*del_fixup_done`. -/
def single (s : Side) (mem : Mem ν) (parent child : ν) : Mem ν × ν × Bool :=
  let bf := (mem child).bf
  -- `lopsided(child)`
  if bf ≠ 0 ∧ ¬(bf < -1 ∨ bf > 1) then
    let (mem, top) := rotate s ((mem.setBf child 0).setBf parent 0) parent child
    (mem, top, false)
  else
    let (mem, top) := rotate s ((mem.setBf parent s.sign).setBf child (-s.sign)) parent child
    (mem, top, true)

def avlLeft (mem : Mem ν) (parent child : ν) : Mem ν × ν × Bool := single .right mem parent child

def avlRight (mem : Mem ν) (parent child : ν) : Mem ν × ν × Bool := single .left mem parent child

/-- Moves `grandchild` above `child` and then above `parent`. `child` is on the side `s`
of `parent`, `grandchild` on the other side of `child`. -/
def double (s : Side) (mem : Mem ν) (parent child : ν) (grandchild : Option ν) :
    Except Fault (Mem ν × ν) := do
  let grandchild ← deref grandchild
  let bf := (mem grandchild).bf
  let mem :=
    if bf = s.sign then (mem.setBf parent (-s.sign)).setBf child 0
    else if bf = -s.sign then (mem.setBf parent 0).setBf child s.sign
    else if bf = 0 then (mem.setBf child 0).setBf parent 0
    else mem
  let mem := mem.setBf grandchild 0
  let b ← deref ((mem child).child s.other)
  let (mem, top) := rotate s.other mem child b
  let mem := mem.setChild parent s (some top)
  let b ← deref ((mem parent).child s)
  pure (rotate s mem parent b)

def avlLeftRight (mem : Mem ν) (parent child : ν) (grandchild : Option ν) :
    Except Fault (Mem ν × ν) := double .left mem parent child grandchild

def avlRightLeft (mem : Mem ν) (parent child : ν) (grandchild : Option ν) :
    Except Fault (Mem ν × ν) := double .right mem parent child grandchild

/-- The result is `must_stop`. -/
def fixImbalance (tree : AvlTree ν) (upper : Ref ν) (parent : ν) (child : Option ν) :
    Except Fault (AvlTree ν × Bool) := do
  let child ← asserted child
  let mem := tree.mem
  if (mem parent).bf < 0 then
    if (mem child).bf > 0 then
      let (mem, top) ← avlLeftRight mem parent child (mem child).right
      pure ({ tree with mem }.write (some top) upper, false)
    else
      let (mem, top, mustStop) := avlRight mem parent child
      pure ({ tree with mem }.write (some top) upper, mustStop)
  else
    if (mem child).bf < 0 then
      let (mem, top) ← avlRightLeft mem parent child (mem child).left
      pure ({ tree with mem }.write (some top) upper, false)
    else
      let (mem, top, mustStop) := avlLeft mem parent child
      pure ({ tree with mem }.write (some top) upper, mustStop)

/-! ## Fix-ups -/

/-- `bfchange` as a number; `none` when the assertion on it fails. -/
def PathTraceDirection.change : PathTraceDirection → Option ℤ
  | .left => some (-1)
  | .right => some 1
  | .equal => none

def updateAvlParameters (mem : Mem ν) (node : ν) (dir : PathTraceDirection) (isdel : Bool) :
    Except Fault (Mem ν) := do
  let bfchange ← asserted dir.change
  pure (mem.setBf node (if isdel then (mem node).bf - bfchange else (mem node).bf + bfchange))

/-- Where the subtree whose root was just popped hangs. -/
def upperRef : List (AvlWaypoint ν) → Ref ν
  | [] => .root
  | upper :: _ => .child upper.ptr (if upper.dir = .left then .left else .right)

def avlInsertFixup (tree : AvlTree ν) : List (AvlWaypoint ν) → Except Fault (AvlTree ν)
  | [] => .ok tree
  | upper :: path => do
    let parent := upper.ptr
    let mem ← updateAvlParameters tree.mem parent upper.dir false
    let tree := { tree with mem }
    if (mem parent).bf = 0 then
      pure tree
    else if (mem parent).bf < -1 ∨ (mem parent).bf > 1 then
      let child := if upper.dir = .left then (mem parent).left else (mem parent).right
      let (tree, _) ← fixImbalance tree (upperRef path) parent child
      pure tree
    else
      avlInsertFixup tree path

def avlDeleteFixup (tree : AvlTree ν) : List (AvlWaypoint ν) → Except Fault (AvlTree ν)
  | [] => .ok tree
  | upper :: path => do
    let parent := upper.ptr
    let mem ← updateAvlParameters tree.mem parent upper.dir true
    let tree := { tree with mem }
    let unbalanced := (mem parent).bf < -1 ∨ (mem parent).bf > 1
    -- `lopsided(parent)`
    if (mem parent).bf ≠ 0 ∧ ¬unbalanced then
      pure tree
    else if ¬unbalanced then
      avlDeleteFixup tree path
    else
      -- the sibling of the subtree that became lower
      let child := if upper.dir = .right then (mem parent).left else (mem parent).right
      match path with
      | { dir := .equal, .. } :: _ => .error .assertion
      | _ =>
        let (tree, mustStop) ← fixImbalance tree (upperRef path) parent child
        if mustStop then pure tree else avlDeleteFixup tree path

/-! ## The interface -/

/-- After a refusal the stack is left with the duplicate on top; after an insertion
nothing reads it any more. -/
def avlTryInsert (cmp : ν → ν → Ordering) (rounds : ℕ) (tree : AvlTree ν) (node : ν) :
    Except Fault (AvlTree ν × List (AvlWaypoint ν) × Bool) := do
  let tree := { tree with mem := initializeAvlNode tree.mem node }
  if tree.root = none then
    if tree.count = 0 then
      pure ({ tree with root := some node, count := tree.count + 1 }, [], true)
    else
      .error .assertion
  else
    let path ← avlTracePathToNode cmp rounds tree none node
    let parent ← asserted path.head?
    if parent.dir = .equal then
      pure (tree, path, false)
    else
      let s := if parent.dir = .left then Side.left else Side.right
      let mem := tree.mem.setChild parent.ptr s (some node)
      let tree ← avlInsertFixup { tree with mem, count := tree.count + 1 } path
      pure (tree, [], true)

/-- `Avl_insert_node`. -/
def insertNode (cmp : ν → ν → Ordering) (rounds : ℕ) (tree : AvlTree ν) (node : ν) :
    Except Fault (AvlTree ν × Bool) :=
  if cacheHit cmp tree node then .ok (tree, false)
  else do
    let (tree, _, inserted) ← avlTryInsert cmp rounds tree node
    pure (tree, inserted)

/-- `Avl_find_or_insert_node`. -/
def findOrInsertNode (cmp : ν → ν → Ordering) (rounds : ℕ) (tree : AvlTree ν) (node : ν) :
    Except Fault (AvlTree ν × Option ν) :=
  if cacheHit cmp tree node then .ok (tree, tree.cached)
  else do
    let (tree, path, inserted) ← avlTryInsert cmp rounds tree node
    if inserted then
      pure (tree, none)
    else
      let duplicate ← asserted path.head?
      pure (updateCache tree duplicate.ptr, some duplicate.ptr)

/-- `Avl_find_node`. -/
def findNode (cmp : ν → ν → Ordering) (rounds : ℕ) (tree : AvlTree ν) (key : ν) :
    Except Fault (AvlTree ν × Option ν) :=
  if cacheHit cmp tree key then .ok (tree, tree.cached)
  else do
    match ← avlFindNode cmp rounds tree key with
    | some found => pure (updateCache tree found, some found)
    | none => pure (tree, none)

/-- `Avl_has_node`. -/
def hasNode (cmp : ν → ν → Ordering) (rounds : ℕ) (tree : AvlTree ν) (key : ν) :
    Except Fault (AvlTree ν × Bool) := do
  let (tree, found) ← findNode cmp rounds tree key
  pure (tree, found.isSome)

/-- The part of `Avl_delete_node` that finds what takes the place of `k`: the tree, the
path from the place where the height may have changed, and the replacement. `path` ends
above `k`. -/
def replacement (cmp : ν → ν → Ordering) (rounds : ℕ) (tree : AvlTree ν) (k : ν)
    (path : List (AvlWaypoint ν)) :
    Except Fault (AvlTree ν × List (AvlWaypoint ν) × Option ν) :=
  let mem := tree.mem
  match (mem k).left, (mem k).right with
  | none, none => pure (tree, path, none)
  | some l, none => pure (tree, path, some l)
  | none, some r => pure (tree, path, some r)
  | some _, some r => do
    let suc ← asserted (← avlFindInorderSuccessor rounds mem k)
    -- the waypoint of `k` is pushed back with `suc` in it
    let path := { ptr := suc, dir := .right } :: path
    if suc = r then
      pure ({ tree with mem := copyAvlnodeFields mem suc k true false }, path, some suc)
    else
      let replacementPath ← avlTracePathToNode cmp rounds tree (some r) suc
      let replacementPath := replacementPath.tail
      let sucParent ← asserted replacementPath.head?
      let mem := mem.setChild sucParent.ptr .left (mem suc).right
      pure ({ tree with mem := copyAvlnodeFields mem suc k true true }, replacementPath ++ path, some suc)

/-- The part of `Avl_delete_node` that takes `k` out of the tree; `path` ends above `k`. -/
def unlink (cmp : ν → ν → Ordering) (rounds : ℕ) (tree : AvlTree ν) (k : ν)
    (path : List (AvlWaypoint ν)) : Except Fault (AvlTree ν) := do
  let (tree, fixupPath, node) ← replacement cmp rounds tree k path
  let tree := tree.write node (upperRef path)
  if tree.root = none then pure tree else avlDeleteFixup tree fixupPath

/-- `Avl_delete_node`. -/
def deleteNode (cmp : ν → ν → Ordering) (rounds : ℕ) (tree : AvlTree ν) (k : ν)
    (freeContainer : Bool) : Except Fault (AvlTree ν × Bool) :=
  if tree.count = 0 then .ok (tree, false)
  else do
    match ← avlTracePathToNode cmp rounds tree none k with
    | [] => pure (tree, false)
    | cur :: path =>
      let tree ← unlink cmp rounds tree cur.ptr path
      if freeContainer && !tree.dtor then
        .error (.thrown .misconfigured)
      else
        let tree := clearCache tree
        pure ({ tree with count := tree.count - 1 }, true)

/-! ## Calls -/

inductive Call (ν : Type)
  | insertNode (node : ν)
  | findOrInsertNode (node : ν)
  | findNode (key : ν)
  | hasNode (key : ν)
  | deleteNode (k : ν) (freeContainer : Bool)

inductive Answer (ν : Type)
  | flag (b : Bool)
  | node (p : Option ν)

def exec (cmp : ν → ν → Ordering) (rounds : ℕ) (c : Call ν) (tree : AvlTree ν) :
    Except Fault (AvlTree ν × Answer ν) :=
  match c with
  | .insertNode node => do
    let (tree, b) ← insertNode cmp rounds tree node
    pure (tree, .flag b)
  | .findOrInsertNode node => do
    let (tree, p) ← findOrInsertNode cmp rounds tree node
    pure (tree, .node p)
  | .findNode key => do
    let (tree, p) ← findNode cmp rounds tree key
    pure (tree, .node p)
  | .hasNode key => do
    let (tree, b) ← hasNode cmp rounds tree key
    pure (tree, .flag b)
  | .deleteNode k freeContainer => do
    let (tree, b) ← deleteNode cmp rounds tree k freeContainer
    pure (tree, .flag b)

end Libtarp.Avl
