import Libtarp.Avl.Search
import Libtarp.Lib.BreadthFirst

/-!
# Levels of a tree (`Avl_get_nodes_at_level`, `Avl_num_levels`)

A level is found by going down from the root with a counter. Each level is asked for by itself, so going over the tree
level by level is a loop over the calls.

* `avlGetNodesAtLevel_spec`: the recursion puts the nodes of a level behind what the queue holds.
* `avlFindNodeHeight_spec`: the height that the number of levels comes from.
* `levels_spec`: every level is right, and all levels together are the breadth-first order.
-/

namespace Libtarp.Avl

open Lib

variable {ν : Type} {mem : Mem ν} {tree : AvlTree ν} {t : BinaryTree ν} {rounds : ℕ}

/-- `avl_get_nodes_at_level`, with what `*list` and `*count` hold before and after where they are not null. A queue is
the list of the nodes its wrappers point to; a failed allocation of a wrapper ends the process. From a level that is at
least 1, as the interface asks for, the recursion comes to no level 0. -/
def avlGetNodesAtLevel (mem : Mem ν) :
    ℕ → Option ν → ℕ → Option (List ν) → Option ℕ → Except Fault (Option (List ν) × Option ℕ)
  | _, none, _, list, count => .ok (list, count)
  | 0, some _, _, _, _ => .error .rounds
  | rounds + 1, some root, level, list, count =>
    if level = 1 then
      .ok (list.map (· ++ [root]), count.map (· + 1))
    else do
      let (list, count) ← avlGetNodesAtLevel mem rounds (mem root).left (level - 1) list count
      avlGetNodesAtLevel mem rounds (mem root).right (level - 1) list count

/-- `avl_find_node_height`. -/
def avlFindNodeHeight (mem : Mem ν) : ℕ → Option ν → Except Fault ℤ
  | _, none => .ok (-1)
  | 0, some _ => .error .rounds
  | rounds + 1, some node => do
    let left ← avlFindNodeHeight mem rounds (mem node).left
    let right ← avlFindNodeHeight mem rounds (mem node).right
    pure (1 + max left right)

/-- `Avl_height`. -/
def avlHeight (rounds : ℕ) (tree : AvlTree ν) : Except Fault ℤ := avlFindNodeHeight tree.mem rounds tree.root

/-- `Avl_num_levels`. -/
def numLevels (rounds : ℕ) (tree : AvlTree ν) : Except Fault ℕ := do
  let height ← avlHeight rounds tree
  pure (height + 1).toNat

/-- `Avl_get_nodes_at_level`: what the queue holds afterwards. -/
def getNodesAtLevel (rounds : ℕ) (tree : AvlTree ν) (level : ℕ) : Except Fault (List ν) := do
  let (list, _) ← avlGetNodesAtLevel tree.mem rounds tree.root level (some []) none
  deref list

/-- `AVL_count_nodes_at_level`. -/
def countNodesAtLevel (rounds : ℕ) (tree : AvlTree ν) (level : ℕ) : Except Fault ℕ := do
  let (_, count) ← avlGetNodesAtLevel tree.mem rounds tree.root level none (some 0)
  deref count

open BinaryTree

/-- The recursion appends the nodes of the level, and counts them. -/
theorem avlGetNodesAtLevel_spec {p : Option ν} {level : ℕ} (hl : Linked mem.ch p t) (hr : t.height ≤ rounds)
    (hlevel : 1 ≤ level) (list : Option (List ν)) (count : Option ℕ) :
    avlGetNodesAtLevel mem rounds p level list count =
      .ok (list.map (· ++ atDepth level t), count.map (· + (atDepth level t).length)) := by
  induction t generalizing p rounds level list count with
  | nil =>
    obtain rfl : p = none := hl
    cases rounds <;> simp [avlGetNodesAtLevel]
  | node a l r ihl ihr =>
    obtain ⟨rfl, hll, hlr⟩ := hl
    simp only [height] at hr
    obtain ⟨n, rfl⟩ : ∃ n, rounds = n + 1 := ⟨rounds - 1, by omega⟩
    unfold avlGetNodesAtLevel
    by_cases h1 : level = 1
    · rw [if_pos h1, h1, atDepth_one]
      rfl
    · obtain ⟨d, rfl⟩ : ∃ d, level = d + 1 := ⟨level - 1, by omega⟩
      have hleft : ∀ list count, avlGetNodesAtLevel mem n (mem a).left d list count = _ :=
        ihl hll (by omega) (by omega)
      have hright : ∀ list count, avlGetNodesAtLevel mem n (mem a).right d list count = _ :=
        ihr hlr (by omega) (by omega)
      rw [if_neg h1, Nat.add_sub_cancel, hleft, atDepth_succ (by omega)]
      simp only [bind, Except.bind]
      rw [hright, Option.map_map, Option.map_map]
      -- both results are what the left subtree gave and then the right one
      have hlist : (· ++ atDepth d r) ∘ (· ++ atDepth d l) = (· ++ (atDepth d l ++ atDepth d r)) := by
        funext x
        exact List.append_assoc ..
      have hcount : (· + (atDepth d r).length) ∘ (· + (atDepth d l).length) =
          (· + (atDepth d l ++ atDepth d r).length) := by
        funext x
        rw [Function.comp_apply, List.length_append, Nat.add_assoc]
      rw [hlist, hcount]

theorem avlFindNodeHeight_spec {p : Option ν} (hl : Linked mem.ch p t) (hr : t.height ≤ rounds) :
    avlFindNodeHeight mem rounds p = .ok ((t.height : ℤ) - 1) := by
  induction t generalizing p rounds with
  | nil =>
    obtain rfl : p = none := hl
    cases rounds <;> rfl
  | node a l r ihl ihr =>
    obtain ⟨rfl, hll, hlr⟩ := hl
    simp only [height] at hr ⊢
    obtain ⟨n, rfl⟩ : ∃ n, rounds = n + 1 := ⟨rounds - 1, by omega⟩
    have hleft : avlFindNodeHeight mem n (mem a).left = _ := ihl hll (by omega)
    have hright : avlFindNodeHeight mem n (mem a).right = _ := ihr hlr (by omega)
    rw [avlFindNodeHeight, hleft]
    simp only [bind, Except.bind]
    rw [hright]
    simp only [pure, Except.pure, Except.ok.injEq]
    omega

theorem numLevels_spec (hl : Linked tree.mem.ch tree.root t) (hr : t.height ≤ rounds) :
    numLevels rounds tree = .ok t.height := by
  unfold numLevels avlHeight
  rw [avlFindNodeHeight_spec hl hr]
  simp [bind, Except.bind, pure, Except.pure]

theorem getNodesAtLevel_spec {level : ℕ} (hl : Linked tree.mem.ch tree.root t) (hr : t.height ≤ rounds)
    (hlevel : 1 ≤ level) : getNodesAtLevel rounds tree level = .ok (atDepth level t) := by
  unfold getNodesAtLevel
  rw [avlGetNodesAtLevel_spec hl hr hlevel]
  rfl

theorem countNodesAtLevel_spec {level : ℕ} (hl : Linked tree.mem.ch tree.root t) (hr : t.height ≤ rounds)
    (hlevel : 1 ≤ level) : countNodesAtLevel rounds tree level = .ok (atDepth level t).length := by
  unfold countNodesAtLevel
  rw [avlGetNodesAtLevel_spec hl hr hlevel]
  simp [bind, Except.bind, deref]

/-- **Level by level.** Each call gives the nodes at its depth from left to right, and their number. The lists for the
levels from 1 up to the number of levels are together the breadth-first order, with every node in it once. -/
theorem levels_spec (hl : Linked tree.mem.ch tree.root t) (hn : (inorder t).Nodup) (hr : t.height ≤ rounds) :
    (∀ level, 1 ≤ level → getNodesAtLevel rounds tree level = .ok (atDepth level t) ∧
      countNodesAtLevel rounds tree level = .ok (atDepth level t).length) ∧
    ∃ lists : List (List ν), numLevels rounds tree = .ok lists.length ∧
      (∀ i nodes, lists[i]? = some nodes → getNodesAtLevel rounds tree (i + 1) = .ok nodes) ∧
      lists.flatten = breadthFirst [t] ∧ lists.flatten.Nodup ∧ ∀ a, a ∈ lists.flatten ↔ a ∈ inorder t := by
  refine ⟨?_, (List.range t.height).map fun d => atDepth (d + 1) t, ?_, ?_, ?_⟩
  · intro level hlevel
    exact ⟨getNodesAtLevel_spec hl hr hlevel, countNodesAtLevel_spec hl hr hlevel⟩
  · rw [List.length_map, List.length_range]
    exact numLevels_spec hl hr
  · intro i nodes hi
    rw [List.getElem?_map] at hi
    obtain ⟨d, hd, rfl⟩ := Option.map_eq_some_iff.1 hi
    obtain ⟨hlt, rfl⟩ := List.getElem?_eq_some_iff.1 hd
    rw [List.getElem_range]
    exact getNodesAtLevel_spec hl hr (by omega)
  · have hlists : ((List.range t.height).map fun d => atDepth (d + 1) t).flatten = breadthFirst [t] := by
      rw [breadthFirst_eq (n := t.height) (by simp), ← List.flatMap_def]
      simp
    have hperm : (breadthFirst [t]).Perm (inorder t) := by
      simpa using breadthFirst_perm [t]
    rw [hlists]
    exact ⟨rfl, hperm.nodup_iff.2 hn, fun a => hperm.mem_iff⟩

/-- The node 2 with 1 and 4 below it, and 3 below 4. -/
def fourNodes : AvlTree ℕ where
  mem n := match n with
    | 2 => { left := some 1, right := some 4, bf := 1 }
    | 4 => { left := some 3, right := none, bf := -1 }
    | _ => { left := none, right := none, bf := 0 }
  root := some 2
  cached := none
  count := 4
  dtor := false

theorem levels_fourNodes : ∃ t, (∀ level, 1 ≤ level → getNodesAtLevel 3 fourNodes level = .ok (atDepth level t) ∧
      countNodesAtLevel 3 fourNodes level = .ok (atDepth level t).length) ∧
    ∃ lists : List (List ℕ), numLevels 3 fourNodes = .ok lists.length ∧
      (∀ i nodes, lists[i]? = some nodes → getNodesAtLevel 3 fourNodes (i + 1) = .ok nodes) ∧
      lists.flatten = breadthFirst [t] ∧ lists.flatten.Nodup ∧ ∀ a, a ∈ lists.flatten ↔ a ∈ inorder t :=
  ⟨.node 2 (.node 1 .nil .nil) (.node 4 (.node 3 .nil .nil) .nil),
    levels_spec ⟨rfl, ⟨rfl, rfl, rfl⟩, rfl, ⟨rfl, rfl, rfl⟩, rfl⟩ (by decide) (by decide)⟩

end Libtarp.Avl
