import Libtarp.Lib.SearchTree
import Mathlib.Data.Nat.Size

/-!
# Levels of a tree, and the breadth-first order

The top of a tree is at depth 1. The values at one depth are taken from left to right, that is, in the order of `inorder`.

* `atDepth_succ`: the values at a depth are those at the depth before it in the two subtrees.
* `breadthFirst_eq`: a traversal with a queue comes to the values level by level.
* `breadthFirst_perm`: it comes to every value once.
* `breadthFirst_numbered`: in a complete tree it comes to the values in the order of their numbers.
* `height_numbered`: a complete tree is as high as its number of values has bits.
-/

namespace Libtarp.Lib

open BinaryTree

variable {α : Type*}

/-- The values from left to right with their depths, the top being at `d`. -/
def depths (d : ℕ) : BinaryTree α → List (ℕ × α)
  | .nil => []
  | .node a l r => depths (d + 1) l ++ (d, a) :: depths (d + 1) r

/-- The values at depth `d`, from left to right. -/
def atDepth (d : ℕ) (t : BinaryTree α) : List α := ((depths 1 t).filter fun x => x.1 = d).map Prod.snd

/-- How long a traversal of the trees in a list takes. -/
def steps : List (BinaryTree α) → ℕ
  | [] => 0
  | t :: ts => 2 * t.numNodes + 1 + steps ts

theorem steps_append (ts us : List (BinaryTree α)) : steps (ts ++ us) = steps ts + steps us := by
  induction ts with
  | nil => rw [List.nil_append, steps, Nat.zero_add]
  | cons t ts ih =>
    simp only [List.cons_append, steps, ih]
    omega

theorem steps_nil_cons (ts : List (BinaryTree α)) : steps ts < steps (.nil :: ts) := by
  simp only [steps]
  omega

theorem steps_node_cons (a : α) (l r : BinaryTree α) (ts : List (BinaryTree α)) :
    steps (ts ++ [l, r]) < steps (.node a l r :: ts) := by
  rw [steps_append]
  simp only [steps, numNodes]
  omega

/-- The trees in `ts` and then those put behind them, each taken apart in turn. -/
def breadthFirst : List (BinaryTree α) → List α
  | [] => []
  | .nil :: ts => breadthFirst ts
  | .node a l r :: ts => a :: breadthFirst (ts ++ [l, r])
termination_by ts => steps ts
decreasing_by
  · exact steps_nil_cons ts
  · exact steps_node_cons a l r ts

theorem depths_eq_map (t : BinaryTree α) (d : ℕ) : depths (d + 1) t = (depths d t).map fun x => (x.1 + 1, x.2) := by
  induction t generalizing d with
  | nil => rfl
  | node a l r ihl ihr => rw [depths, depths, ihl, ihr, List.map_append, List.map_cons]

theorem le_of_mem_depths {t : BinaryTree α} {d : ℕ} {x : ℕ × α} (h : x ∈ depths d t) : d ≤ x.1 := by
  induction t generalizing d with
  | nil => simp [depths] at h
  | node a l r ihl ihr =>
    rw [depths, List.mem_append, List.mem_cons] at h
    rcases h with h | rfl | h
    · have := ihl h; omega
    · exact le_rfl
    · have := ihr h; omega

/-- One level further down is one more for every value of a subtree. -/
theorem atDepth_shift (t : BinaryTree α) (d : ℕ) :
    ((depths 2 t).filter fun x => x.1 = d + 1).map Prod.snd = atDepth d t := by
  rw [depths_eq_map, List.filter_map, List.map_map, atDepth]
  have hfilter : (fun x : ℕ × α => decide (x.1 = d + 1)) ∘ (fun x : ℕ × α => (x.1 + 1, x.2)) =
      fun x => decide (x.1 = d) := by
    funext x
    simp
  rw [hfilter]
  rfl

@[simp] theorem atDepth_nil (d : ℕ) : atDepth d (.nil : BinaryTree α) = [] := rfl

theorem filter_depths_eq_nil (t : BinaryTree α) {d e : ℕ} (h : e < d) : (depths d t).filter (fun x => x.1 = e) = [] := by
  rw [List.filter_eq_nil_iff]
  intro x hx hxe
  have hle := le_of_mem_depths hx
  simp only [decide_eq_true_eq] at hxe
  omega

theorem atDepth_one (a : α) (l r : BinaryTree α) : atDepth 1 (.node a l r) = [a] := by
  rw [atDepth, depths, List.filter_append, filter_depths_eq_nil l (by omega), List.filter_cons_of_pos (by simp),
    filter_depths_eq_nil r (by omega)]
  rfl

theorem atDepth_succ {d : ℕ} (hd : d ≠ 0) (a : α) (l r : BinaryTree α) :
    atDepth (d + 1) (.node a l r) = atDepth d l ++ atDepth d r := by
  rw [atDepth, depths, List.filter_append, List.filter_cons_of_neg (by simpa using hd), List.map_append,
    atDepth_shift, atDepth_shift]

def children : BinaryTree α → List (BinaryTree α)
  | .nil => []
  | .node _ l r => [l, r]

theorem atDepth_children {d : ℕ} (hd : d ≠ 0) (t : BinaryTree α) :
    atDepth (d + 1) t = (children t).flatMap (atDepth d) := by
  cases t with
  | nil => rfl
  | node a l r => rw [atDepth_succ hd]; simp [children]

/-- The queue gives the tops of the trees that are in it, and has their children behind the others by then. -/
theorem breadthFirst_append (ts us : List (BinaryTree α)) :
    breadthFirst (ts ++ us) = ts.flatMap (atDepth 1) ++ breadthFirst (us ++ ts.flatMap children) := by
  induction ts generalizing us with
  | nil => simp
  | cons t ts ih =>
    cases t with
    | nil =>
      rw [List.cons_append, breadthFirst, ih]
      rfl
    | node a l r =>
      rw [List.cons_append, breadthFirst, List.append_assoc, ih, List.flatMap_cons, List.flatMap_cons, atDepth_one]
      simp [children]

theorem height_children {n : ℕ} {t u : BinaryTree α} (ht : t.height ≤ n + 1) (hu : u ∈ children t) : u.height ≤ n := by
  cases t with
  | nil => simp [children] at hu
  | node a l r =>
    simp only [height] at ht
    simp only [children, List.mem_cons, List.not_mem_nil, or_false] at hu
    rcases hu with rfl | rfl
    · omega
    · omega

/-- A queue of nothing but empty trees. -/
theorem breadthFirst_eq_nil {ts : List (BinaryTree α)} (h : ∀ t ∈ ts, t.height ≤ 0) : breadthFirst ts = [] := by
  induction ts with
  | nil => rw [breadthFirst]
  | cons t ts ih =>
    have ht : t = .nil := by
      cases t with
      | nil => rfl
      | node a l r =>
        have hle := h (.node a l r) (List.mem_cons_self ..)
        simp only [height] at hle
        omega
    rw [ht, breadthFirst]
    apply ih
    intro u hu
    exact h u (List.mem_cons_of_mem _ hu)

/-- **Breadth first is level by level**, for as many levels as there are. -/
theorem breadthFirst_eq {n : ℕ} {ts : List (BinaryTree α)} (h : ∀ t ∈ ts, t.height ≤ n) :
    breadthFirst ts = (List.range n).flatMap fun d => ts.flatMap (atDepth (d + 1)) := by
  induction n generalizing ts with
  | zero => rw [breadthFirst_eq_nil h, List.range_zero, List.flatMap_nil]
  | succ n ih =>
    -- the first level is taken off, and what is left is a queue of the children, which are less high
    have hchildren : ∀ u ∈ ts.flatMap children, u.height ≤ n := by
      intro u hu
      obtain ⟨t, ht, hut⟩ := List.mem_flatMap.1 hu
      exact height_children (h t ht) hut
    have hstep := breadthFirst_append ts []
    rw [List.append_nil, List.nil_append, ih hchildren] at hstep
    rw [hstep, List.range_succ_eq_map, List.flatMap_cons, List.flatMap_map]
    congr 1
    refine List.flatMap_congr fun d _ => ?_
    rw [List.flatMap_assoc]
    exact List.flatMap_congr fun t _ => (atDepth_children (by omega) t).symm

theorem breadthFirst_perm (ts : List (BinaryTree α)) : (breadthFirst ts).Perm (ts.flatMap inorder) := by
  induction ts using breadthFirst.induct with
  | case1 => simp [breadthFirst]
  | case2 ts ih => rw [breadthFirst]; exact ih
  | case3 a l r ts ih =>
    rw [breadthFirst, List.flatMap_cons, inorder_node, List.append_assoc, List.cons_append]
    -- the value comes first in one and between its subtrees in the other
    refine (ih.cons a).trans ?_
    rw [List.flatMap_append]
    refine (List.Perm.cons a ?_).trans List.perm_middle.symm
    have hcomm : (ts.flatMap inorder ++ (inorder l ++ inorder r)).Perm (inorder l ++ inorder r ++ ts.flatMap inorder) :=
      List.perm_append_comm
    simpa using hcomm

/-! ## Complete trees -/

variable {f : ℕ → α} {n i : ℕ}

/-- What is at number `i` and below, where the numbers below `n` are given level by level, from 0 on. -/
def numbered (f : ℕ → α) (n i : ℕ) : BinaryTree α :=
  if i < n then .node (f i) (numbered f n (2 * i + 1)) (numbered f n (2 * i + 2)) else .nil
termination_by n - i

theorem numbered_lt (h : i < n) :
    numbered f n i = .node (f i) (numbered f n (2 * i + 1)) (numbered f n (2 * i + 2)) := by
  rw [numbered, if_pos h]

theorem numbered_ge (h : n ≤ i) : numbered f n i = .nil := by
  rw [numbered, if_neg (by omega)]

/-- Once the numbers below `i` are dealt with, the queue holds the trees from `i` up to the children of the last. -/
theorem breadthFirst_queue (f : ℕ → α) (n i : ℕ) :
    breadthFirst ((List.range' i (i + 1)).map (numbered f n)) = (List.range' i (n - i)).map f := by
  induction hm : n - i generalizing i with
  | zero =>
    refine breadthFirst_eq_nil fun t ht => ?_
    obtain ⟨k, hk, rfl⟩ := List.mem_map.1 ht
    rw [List.mem_range'_1] at hk
    rw [numbered_ge (by omega)]
    exact le_rfl
  | succ m ih =>
    have hqueue : List.range' (i + 1) i ++ [2 * i + 1, 2 * i + 2] = List.range' (i + 1) (i + 1 + 1) := by
      rw [List.range'_1_concat, List.range'_1_concat, List.append_assoc, show i + 1 + i = 2 * i + 1 by omega,
        show i + 1 + (i + 1) = 2 * i + 2 by omega]
      rfl
    rw [List.range'_succ, List.map_cons, numbered_lt (by omega), breadthFirst,
      show [numbered f n (2 * i + 1), numbered f n (2 * i + 2)] = [2 * i + 1, 2 * i + 2].map (numbered f n) from rfl,
      ← List.map_append, hqueue, ih (i + 1) (by omega), List.range'_succ, List.map_cons]

/-- **A complete tree is numbered in breadth-first order.** -/
theorem breadthFirst_numbered (f : ℕ → α) (n : ℕ) : breadthFirst [numbered f n 0] = (List.range n).map f := by
  rw [List.range_eq_range']
  exact breadthFirst_queue f n 0

/-- At every level the numbers double. -/
theorem height_numbered_le {k : ℕ} (h : n < (i + 1) * 2 ^ k) : (numbered f n i).height ≤ k := by
  induction k generalizing i with
  | zero =>
    rw [numbered_ge (by omega)]
    exact le_rfl
  | succ k ih =>
    by_cases hi : i < n
    · have hdouble : (i + 1) * 2 ^ (k + 1) = (2 * i + 1 + 1) * 2 ^ k := by
        rw [pow_succ, Nat.mul_comm (2 ^ k), ← Nat.mul_assoc, Nat.succ_mul, Nat.mul_comm i]
      rw [hdouble] at h
      have hl : (numbered f n (2 * i + 1)).height ≤ k := ih h
      have hr : (numbered f n (2 * i + 2)).height ≤ k := ih (h.trans_le (Nat.mul_le_mul_right _ (by omega)))
      rw [numbered_lt hi]
      simp only [height]
      omega
    · rw [numbered_ge (by omega)]
      exact Nat.zero_le _

theorem height_numbered (f : ℕ → α) (n : ℕ) : (numbered f n 0).height ≤ n.size :=
  height_numbered_le (by simpa using n.lt_size_self)

theorem inorder_numbered (f : ℕ → α) (n : ℕ) : (inorder (numbered f n 0)).Perm ((List.range n).map f) := by
  have hperm := breadthFirst_perm [numbered f n 0]
  rw [breadthFirst_numbered, List.flatMap_singleton] at hperm
  exact hperm.symm

end Libtarp.Lib
