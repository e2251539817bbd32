import Libtarp.Avl.Runs

/-!
# The tree among other users of the memory (`Avl_clear`)

A node that is not in the tree is somebody else's: it may have been destroyed, be linked in another container, or have
its memory used for something else.  Between the calls anything is written to it, and while the tree is destroyed the
memory of a node that is destroyed holds anything.

* `cutDown_spec`: `avl_cut_down` destroys the nodes of a subtree in postorder and reads none that is destroyed.
* `Valid.others`: what is written to other nodes does not matter to the tree.
* `tree_shares_memory`: the calls, and the clearing of the tree, do what they do on a set of nodes, whatever is written
  to others.  Clearing the tree destroys every node once, and none before one below it.
-/

namespace Libtarp.Avl

open Lib BinaryTree Function

variable {ν : Type} [DecidableEq ν] {cmp : ν → ν → Ordering} {tree : AvlTree ν} {t : BinaryTree ν} {rounds : ℕ}

/-- `avl_cut_down`, with the nodes destroyed so far.  The memory of a destroyed node holds `junk`. -/
def cutDown (junk : Mem ν) : ℕ → Option ν → Mem ν × List ν → Except Fault (Mem ν × List ν)
  | _, none, s => .ok s
  | 0, some _, _ => .error .rounds
  | rounds + 1, some root, s => do
    let s ← cutDown junk rounds (s.1 root).left s
    let s ← cutDown junk rounds (s.1 root).right s
    pure (update s.1 root (junk root), s.2 ++ [root])

/-- `Avl_clear`, with the nodes that it destroys. -/
def avlClear (junk : Mem ν) (rounds : ℕ) (tree : AvlTree ν) (freeContainers : Bool) :
    Except Fault (AvlTree ν × List ν) :=
  if freeContainers then
    if tree.dtor then do
      let (mem, destroyed) ← cutDown junk rounds tree.root (tree.mem, [])
      pure (avlInitializer mem tree.dtor, destroyed)
    else .error (.thrown .misconfigured)
  else .ok (avlInitializer tree.mem tree.dtor, [])

/-- The memory of the destroyed nodes is not read. -/
theorem cutDown_eq (junk : Mem ν) (rounds : ℕ) (p : Option ν) (s : Mem ν × List ν) : cutDown junk rounds p s =
    destroyTree Mem.ch (fun mem a => update mem a (junk a)) Fault.rounds rounds p s := by
  induction rounds generalizing p s with
  | zero => cases p <;> rfl
  | succ rounds ih =>
    cases p with
    | none => rfl
    | some a =>
      simp only [cutDown, destroyTree, ih]
      rfl

theorem cutDown_spec (junk : Mem ν) {mem : Mem ν} {p : Option ν} (hl : Linked mem.ch p t) (hn : (inorder t).Nodup)
    (hr : t.height ≤ rounds) : ∃ mem', cutDown junk rounds p (mem, []) = .ok (mem', postorder t) := by
  have hscrap : ∀ (m : Mem ν) a b, b ≠ a → Mem.ch (update m a (junk a)) b = Mem.ch m b := by
    intro m a b hb
    funext side
    rw [Mem.ch, update_of_ne hb]
    rfl
  obtain ⟨mem', hdestroy, -⟩ := destroyTree_spec Fault.rounds hscrap hl hn hr []
  exact ⟨mem', (cutDown_eq junk rounds p _).trans hdestroy⟩

/-- The nodes a cleared tree destroys: all of them, and none before one below it. -/
structure Cleared (tree : AvlTree ν) (freeContainers : Bool) (destroyed : List ν) : Prop where
  all : ∀ a, a ∈ destroyed ↔ freeContainers = true ∧ Reachable tree.mem.ch tree.root a
  later : destroyed.Pairwise fun a b => ¬Reachable tree.mem.ch (some a) b

theorem avlClear_spec (junk : Mem ν) {freeContainers : Bool} (hv : Valid cmp tree t) (hn : (inorder t).Nodup)
    (hr : t.height ≤ rounds) (hd : freeContainers = true → tree.dtor = true) :
    ∃ mem destroyed, avlClear junk rounds tree freeContainers = .ok (avlInitializer mem tree.dtor, destroyed) ∧
      Cleared tree freeContainers destroyed := by
  cases freeContainers with
  | false => exact ⟨tree.mem, [], rfl, by simp, List.Pairwise.nil⟩
  | true =>
    obtain ⟨mem, hcut⟩ := cutDown_spec junk hv.linked hn hr
    refine ⟨mem, postorder t, ?_, ?_, hv.linked.postorder_later hn⟩
    · unfold avlClear
      rw [if_pos rfl, if_pos (hd rfl), hcut]
      rfl
    · intro a
      rw [mem_postorder, hv.linked.reachable_iff]
      simp

/-! ## Whatever is written to other nodes -/

omit [DecidableEq ν] in
theorem Valid.others (hv : Valid cmp tree t) {mem : Mem ν}
    (hsame : ∀ a, Reachable tree.mem.ch tree.root a → mem a = tree.mem a) : Valid cmp { tree with mem } t where
  linked := linked_congr hv.linked fun a ha => hsame a (hv.linked.reachable_iff.2 ha)
  sorted := hv.sorted
  balanced := balanced_congr hv.balanced fun a ha => hsame a (hv.linked.reachable_iff.2 ha)
  count := hv.count
  cached := hv.cached

/-- What happens to a tree: a call, its clearing, or something to the memory of other nodes. -/
inductive Event (ν : Type)
  | call (c : Call ν)
  | clear (freeContainers : Bool) (junk : Mem ν)
  | others (mem : Mem ν)

/-- What is seen of it. -/
inductive Seen (ν : Type)
  | answer (r : Answer ν)
  | destroyed (nodes : List ν)
  | nothing

def execEvent (cmp : ν → ν → Ordering) (rounds : ℕ) : Event ν → AvlTree ν → Except Fault (AvlTree ν × Seen ν)
  | .call c, tree => (exec cmp rounds c tree).map fun p => (p.1, .answer p.2)
  | .clear freeContainers junk, tree => (avlClear junk rounds tree freeContainers).map fun p => (p.1, .destroyed p.2)
  | .others mem, tree => .ok ({ tree with mem }, .nothing)

/-- What a caller and the other users of the memory have to see to. -/
def Allowed (cmp : ν → ν → Ordering) : Event ν → AvlTree ν → Prop
  | .call c, tree => Harmless cmp c tree ∧ DeletesStored cmp c tree
  | .clear freeContainers _, tree => freeContainers = true → tree.dtor = true
  | .others mem, tree => ∀ a, Reachable tree.mem.ch tree.root a → mem a = tree.mem a

/-- What happens to the set of the nodes stored. -/
def OnSet (cmp : ν → ν → Ordering) (e : Event ν) (tree : AvlTree ν) (S : Finset ν) (r : Seen ν) (S' : Finset ν) :
    Prop :=
  match e with
  | .call c => ∃ a, r = .answer a ∧ KeyedSet.Step cmp c S a S'
  | .clear freeContainers _ => ∃ destroyed, r = .destroyed destroyed ∧ Cleared tree freeContainers destroyed ∧ S' = ∅
  | .others _ => r = .nothing ∧ S' = S

variable [Std.TransCmp cmp]

/-- **One event.** -/
theorem execEvent_spec {e : Event ν} (hv : Valid cmp tree t) (hr : t.height ≤ rounds) (he : Allowed cmp e tree) :
    ∃ tree' r t', execEvent cmp rounds e tree = .ok (tree', r) ∧ Valid cmp tree' t' ∧
      OnSet cmp e tree (inorder t).toFinset r (inorder t').toFinset := by
  cases e with
  | call c =>
    obtain ⟨tree', a, t', hexec, hv', heff, -⟩ := exec_spec hv hr he.1
    refine ⟨tree', .answer a, t', ?_, hv', a, rfl, heff.keyedSet hv.sorted ?_⟩
    · simp only [execEvent, hexec]
      rfl
    · rintro k f rfl
      refine he.2.imp hv.count_eq_zero.1 ?_
      rintro ⟨b, hb, hk⟩
      exact ⟨b, hv.reachable_iff.1 hb, hk⟩
  | clear freeContainers junk =>
    obtain ⟨mem, destroyed, hclear, hcleared⟩ := avlClear_spec junk hv hv.sorted.nodup hr he
    refine ⟨_, .destroyed destroyed, .nil, ?_, valid_initializer mem tree.dtor, destroyed, rfl, hcleared, rfl⟩
    simp only [execEvent, hclear]
    rfl
  | others mem => exact ⟨_, .nothing, t, rfl, hv.others he, rfl, rfl⟩

/-- **A tree shares the memory with others.**  Whatever is written to nodes that are not in the tree, be it that they
were destroyed, everything that happens to the tree is as on a set of nodes. -/
theorem tree_shares_memory (mem : Mem ν) (dtor : Bool) (es : List (Event ν))
    (hm : Meets (execEvent cmp rounds) (fun e tree => Allowed cmp e tree ∧ tree.count + 1 < Nat.fib (rounds + 3)) es
      (avlInitializer mem dtor)) :
    Each (execEvent cmp rounds) (fun e tree r tree' => ∃ S S', Stores tree S ∧ Stores tree' S' ∧
      KeyedSet.Keyed cmp S' ∧ OnSet cmp e tree S r S') es (avlInitializer mem dtor) := by
  refine each_of_step (fun _ tree => ∃ t, Valid cmp tree t) ?_ ⟨.nil, valid_initializer mem dtor⟩ hm
  rintro n e tree - ⟨t, hv⟩ ⟨he, hfew⟩
  have hlow : t.height ≤ rounds := hv.balanced.height_le (hv.count ▸ hfew)
  obtain ⟨tree', r, t', hstep, hv', hset⟩ := execEvent_spec hv hlow he
  exact ⟨tree', r, hstep, ⟨t', hv'⟩, _, _, hv.stores, hv'.stores, hv'.keyed, hset⟩

theorem tree_shares_memory_four : Each (execEvent (compare : ℕ → ℕ → Ordering) 2)
    (fun e tree r tree' => ∃ S S', Stores tree S ∧ Stores tree' S' ∧ KeyedSet.Keyed compare S' ∧
      OnSet compare e tree S r S')
    [.call (.insertNode 1), .others (update (fun _ => ⟨some 7, some 7, 5⟩) 1 initialized), .call (.insertNode 2),
      .clear true fun _ => ⟨some 7, some 7, 5⟩]
    (avlInitializer (fun _ => initialized) true) := by
  have hfew : ∀ n < 3, n + 1 < Nat.fib 5 := by decide
  refine tree_shares_memory _ _ _ (.cons ⟨⟨.inr (.inr rfl), trivial⟩, hfew 0 (by decide)⟩ rfl ?_)
  refine .cons ⟨?_, hfew 1 (by decide)⟩ rfl ?_
  · intro a ha
    have hmem : a ∈ inorder (.node 1 .nil .nil : BinaryTree ℕ) :=
      (Linked.reachable_iff (by exact ⟨rfl, rfl, rfl⟩)).1 ha
    obtain rfl : a = 1 := by simpa using hmem
    rfl
  · refine .cons ⟨⟨.inr (.inl ?_), trivial⟩, hfew 1 (by decide)⟩ rfl (.last ⟨fun _ => rfl, hfew 2 (by decide)⟩)
    intro h
    have hmem : 2 ∈ inorder (.node 1 .nil .nil : BinaryTree ℕ) :=
      (Linked.reachable_iff (by exact ⟨rfl, rfl, rfl⟩)).1 h
    exact absurd hmem (by decide)

end Libtarp.Avl
