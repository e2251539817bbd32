import Libtarp.Avl.Model

/-!
# The AVL tree with a height in every node (`avl.c`, `AVL_NODES_WITH_HEIGHT_FIELD`)

The other of the two builds. The heights are kept beside the rest of the memory, so that what does not touch them is
the code of `Model`: the searches, the plain rotations, the cache. A height is an `unsigned int`, far above that of any
tree in memory.
-/

namespace Libtarp.Avl.Height

open Lib Function

variable {ν : Type} [DecidableEq ν]

/-- `struct avltree`, with the memory its nodes are in and the field `height` of each. -/
structure HeightTree (ν : Type) extends AvlTree ν where
  height : ν → ℕ

def avlInitializer (mem : Mem ν) (height : ν → ℕ) (dtor : Bool) : HeightTree ν :=
  { Avl.avlInitializer mem dtor with height }

omit [DecidableEq ν] in
def HeightTree.withTree (t : HeightTree ν) (tree : AvlTree ν) : HeightTree ν := { toAvlTree := tree, height := t.height }

def initializeAvlNode (t : HeightTree ν) (node : ν) : HeightTree ν :=
  { t with mem := Avl.initializeAvlNode t.mem node, height := update t.height node 1 }

def copyAvlnodeFields (t : HeightTree ν) (a b : ν) (copyLeftChild copyRightChild : Bool) : HeightTree ν :=
  { t with
    mem := Avl.copyAvlnodeFields t.mem a b copyLeftChild copyRightChild
    height := update t.height a (t.height b) }

def HeightTree.write (t : HeightTree ν) (p : Option ν) (ref : Ref ν) : HeightTree ν :=
  t.withTree (t.toAvlTree.write p ref)

/-! ## Rotations -/

/-- The height below a pointer: a null leaf has height 0. -/
def below (height : ν → ℕ) : Option ν → ℕ
  | some n => height n
  | none => 0

def doUpdateAvlParameters (t : HeightTree ν) (node : ν) : HeightTree ν :=
  let lh := below t.height (t.mem node).left
  let rh := below t.height (t.mem node).right
  { t with height := update t.height node (max lh rh + 1), mem := t.mem.setBf node ((rh : ℤ) - lh) }

/-- `avl_rotate_left`, `avl_rotate_right`. -/
def avlRotate (s : Side) (t : HeightTree ν) (parent child : ν) : HeightTree ν × ν :=
  let (mem, root) := rotate s t.mem parent child
  (doUpdateAvlParameters (doUpdateAvlParameters { t with mem } parent) child, root)

def avlRotateLeft (t : HeightTree ν) (parent child : ν) : HeightTree ν × ν := avlRotate .right t parent child

def avlRotateRight (t : HeightTree ν) (parent child : ν) : HeightTree ν × ν := avlRotate .left t parent child

/-- The branches `LL` and `RR` of `fix_imbalance`. -/
def single (s : Side) (t : HeightTree ν) (parent : ν) : Except Fault (HeightTree ν × ν) := do
  let child ← deref ((t.mem parent).child s)
  pure (avlRotate s t parent child)

/-- The branches `LR` and `RL` of `fix_imbalance`. -/
def double (s : Side) (t : HeightTree ν) (parent child : ν) : Except Fault (HeightTree ν × ν) := do
  let grandchild ← deref ((t.mem child).child s.other)
  let (t, top) := avlRotate s.other t child grandchild
  single s { t with mem := t.mem.setChild parent s (some top) } parent

/-- The result is false: no fix-up stops here. -/
def fixImbalance (t : HeightTree ν) (upper : Ref ν) (parent : ν) (child : Option ν) :
    Except Fault (HeightTree ν × Bool) := do
  let child ← asserted child
  if (t.mem parent).bf < 0 then
    if (t.mem child).bf > 0 then
      let (t, top) ← double .left t parent child
      pure (t.write (some top) upper, false)
    else
      let (t, top) ← single .left t parent
      pure (t.write (some top) upper, false)
  else if (t.mem parent).bf > 0 then
    if (t.mem child).bf < 0 then
      let (t, top) ← double .right t parent child
      pure (t.write (some top) upper, false)
    else
      let (t, top) ← single .right t parent
      pure (t.write (some top) upper, false)
  else .error .assertion

/-! ## Fix-ups -/

def avlInsertFixup (t : HeightTree ν) : List (AvlWaypoint ν) → Except Fault (HeightTree ν)
  | [] => .ok t
  | upper :: path => do
    let parent := upper.ptr
    let t := doUpdateAvlParameters t parent
    if (t.mem parent).bf = 0 then
      pure t
    else if (t.mem parent).bf < -1 ∨ (t.mem parent).bf > 1 then
      let child := if upper.dir = .left then (t.mem parent).left else (t.mem parent).right
      let (t, _) ← fixImbalance t (upperRef path) parent child
      pure t
    else
      avlInsertFixup t path

def avlDeleteFixup (t : HeightTree ν) : List (AvlWaypoint ν) → Except Fault (HeightTree ν)
  | [] => .ok t
  | upper :: path => do
    let parent := upper.ptr
    let t := doUpdateAvlParameters t parent
    let unbalanced := (t.mem parent).bf < -1 ∨ (t.mem parent).bf > 1
    if (t.mem parent).bf ≠ 0 ∧ ¬unbalanced then
      pure t
    else if ¬unbalanced then
      avlDeleteFixup t path
    else if upper.dir = .equal then
      .error .assertion
    else
      let child := if upper.dir = .right then (t.mem parent).left else (t.mem parent).right
      match path with
      | { dir := .equal, .. } :: _ => .error .assertion
      | _ =>
        let (t, mustStop) ← fixImbalance t (upperRef path) parent child
        if mustStop then pure t else avlDeleteFixup t path

/-! ## The interface -/

def avlTryInsert (cmp : ν → ν → Ordering) (rounds : ℕ) (t : HeightTree ν) (node : ν) :
    Except Fault (HeightTree ν × List (AvlWaypoint ν) × Bool) := do
  let t := initializeAvlNode t node
  if t.root = none then
    if t.count = 0 then
      pure ({ t with root := some node, count := t.count + 1 }, [], true)
    else
      .error .assertion
  else
    let path ← avlTracePathToNode cmp rounds t.toAvlTree none node
    let parent ← asserted path.head?
    if parent.dir = .equal then
      pure (t, path, false)
    else
      let s := if parent.dir = .left then Side.left else Side.right
      let mem := t.mem.setChild parent.ptr s (some node)
      let t ← avlInsertFixup { t with mem, count := t.count + 1 } path
      pure (t, [], true)

/-- `Avl_insert_node`. -/
def insertNode (cmp : ν → ν → Ordering) (rounds : ℕ) (t : HeightTree ν) (node : ν) :
    Except Fault (HeightTree ν × Bool) :=
  if cacheHit cmp t.toAvlTree node then .ok (t, false)
  else do
    let (t, _, inserted) ← avlTryInsert cmp rounds t node
    pure (t, inserted)

/-- `Avl_find_or_insert_node`. -/
def findOrInsertNode (cmp : ν → ν → Ordering) (rounds : ℕ) (t : HeightTree ν) (node : ν) :
    Except Fault (HeightTree ν × Option ν) :=
  if cacheHit cmp t.toAvlTree node then .ok (t, t.cached)
  else do
    let (t, path, inserted) ← avlTryInsert cmp rounds t node
    if inserted then
      pure (t, none)
    else
      let duplicate ← asserted path.head?
      pure (t.withTree (updateCache t.toAvlTree duplicate.ptr), some duplicate.ptr)

/-- `Avl_find_node`. -/
def findNode (cmp : ν → ν → Ordering) (rounds : ℕ) (t : HeightTree ν) (key : ν) :
    Except Fault (HeightTree ν × Option ν) := do
  let (tree, found) ← Avl.findNode cmp rounds t.toAvlTree key
  pure (t.withTree tree, found)

/-- `Avl_has_node`. -/
def hasNode (cmp : ν → ν → Ordering) (rounds : ℕ) (t : HeightTree ν) (key : ν) :
    Except Fault (HeightTree ν × Bool) := do
  let (t, found) ← findNode cmp rounds t key
  pure (t, found.isSome)

/-- The part of `Avl_delete_node` that finds what takes the place of `k`. -/
def replacement (cmp : ν → ν → Ordering) (rounds : ℕ) (t : HeightTree ν) (k : ν) (path : List (AvlWaypoint ν)) :
    Except Fault (HeightTree ν × List (AvlWaypoint ν) × Option ν) :=
  match (t.mem k).left, (t.mem k).right with
  | none, none => pure (t, path, none)
  | some l, none => pure (t, path, some l)
  | none, some r => pure (t, path, some r)
  | some _, some r => do
    let suc ← asserted (← avlFindInorderSuccessor rounds t.mem k)
    let path := { ptr := suc, dir := .right } :: path
    if suc = r then
      pure (copyAvlnodeFields t suc k true false, path, some suc)
    else
      let replacementPath ← avlTracePathToNode cmp rounds t.toAvlTree (some r) suc
      let replacementPath := replacementPath.tail
      let sucParent ← asserted replacementPath.head?
      let mem := t.mem.setChild sucParent.ptr .left (t.mem suc).right
      pure (copyAvlnodeFields { t with mem } suc k true true, replacementPath ++ path, some suc)

/-- The part of `Avl_delete_node` that takes `k` out of the tree; `path` ends above `k`. -/
def unlink (cmp : ν → ν → Ordering) (rounds : ℕ) (t : HeightTree ν) (k : ν) (path : List (AvlWaypoint ν)) :
    Except Fault (HeightTree ν) := do
  let (t, fixupPath, node) ← replacement cmp rounds t k path
  let t := t.write node (upperRef path)
  if t.root = none then pure t else avlDeleteFixup t fixupPath

/-- `Avl_delete_node`. -/
def deleteNode (cmp : ν → ν → Ordering) (rounds : ℕ) (t : HeightTree ν) (k : ν) (freeContainer : Bool) :
    Except Fault (HeightTree ν × Bool) :=
  if t.count = 0 then .ok (t, false)
  else do
    match ← avlTracePathToNode cmp rounds t.toAvlTree none k with
    | [] => pure (t, false)
    | cur :: path =>
      let t ← unlink cmp rounds t cur.ptr path
      if freeContainer && !t.dtor then
        .error (.thrown .misconfigured)
      else
        let t := t.withTree (clearCache t.toAvlTree)
        pure ({ t with count := t.count - 1 }, true)

def exec (cmp : ν → ν → Ordering) (rounds : ℕ) (c : Call ν) (t : HeightTree ν) :
    Except Fault (HeightTree ν × Answer ν) :=
  match c with
  | .insertNode node => do
    let (t, b) ← insertNode cmp rounds t node
    pure (t, .flag b)
  | .findOrInsertNode node => do
    let (t, p) ← findOrInsertNode cmp rounds t node
    pure (t, .node p)
  | .findNode key => do
    let (t, p) ← findNode cmp rounds t key
    pure (t, .node p)
  | .hasNode key => do
    let (t, b) ← hasNode cmp rounds t key
    pure (t, .flag b)
  | .deleteNode k freeContainer => do
    let (t, b) ← deleteNode cmp rounds t k freeContainer
    pure (t, .flag b)

end Libtarp.Avl.Height
