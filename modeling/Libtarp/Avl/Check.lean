import Libtarp.Avl.Search

/-!
# The check of a tree (`isavl`)

The check goes down to the leaves and writes a verdict at every node on its way back. The verdict of a node replaces the
verdicts below it, and at a node the stored factor is only held to the range from -1 to 1.

* `validateAvl_spec`: the verdict left behind is that of the topmost node.
* `isavl_of_valid`: no tree in use is rejected.
* `isavl_iff`: when a tree is accepted exactly if it is right at every node.
-/

namespace Libtarp.Avl

open Lib

variable {ν : Type} {mem : Mem ν} {tree : AvlTree ν} {t : BinaryTree ν} {rounds : ℕ}

/-- `validate_avl`, with what `*priv` holds before and after. The heights are unsigned, so their difference is never
negative. -/
def validateAvl (mem : Mem ν) : ℕ → Option ν → Bool → Except Fault (ℕ × Bool)
  | _, none, priv => .ok (0, priv)
  | 0, some _, _ => .error .rounds
  | rounds + 1, some node, priv => do
    let (heightLeft, priv) ← validateAvl mem rounds (mem node).left priv
    let (heightRight, _) ← validateAvl mem rounds (mem node).right priv
    let height := 1 + max heightLeft heightRight
    let diff : ℤ := ((max heightLeft heightRight - min heightLeft heightRight : ℕ) : ℤ)
    if diff > 1 ∨ diff < -1 ∨ (mem node).bf > 1 ∨ (mem node).bf < -1 then
      pure (height, false)
    else
      pure (height, true)

def isavl (rounds : ℕ) (tree : AvlTree ν) : Except Fault Bool :=
  if tree.count = 0 then .ok true
  else do
    let (_, is) ← validateAvl tree.mem rounds tree.root false
    pure is

/-- What the check asks of the topmost node: that its subtrees differ in height by at most one, and that the factor it
stores is one that a balanced node may have. -/
def TopInRange (bf : ν → ℤ) : BinaryTree ν → Prop
  | .nil => True
  | .node a l r => l.height ≤ r.height + 1 ∧ r.height ≤ l.height + 1 ∧ -1 ≤ bf a ∧ bf a ≤ 1

instance (bf : ν → ℤ) : (t : BinaryTree ν) → Decidable (TopInRange bf t)
  | .nil => inferInstanceAs (Decidable True)
  | .node a l r => inferInstanceAs (Decidable (l.height ≤ r.height + 1 ∧ r.height ≤ l.height + 1 ∧ -1 ≤ bf a ∧ bf a ≤ 1))

open BinaryTree

theorem topInRange_of_balanced {bf : ν → ℤ} (h : HeightBalanced bf t) : TopInRange bf t := by
  cases t with
  | nil => trivial
  | node a l r =>
    obtain ⟨-, -, hbf, hlo, hhi⟩ := h
    refine ⟨?_, ?_, hlo, hhi⟩
    · omega
    · omega

/-- The verdict left behind: that of the topmost node, if there is one. -/
def verdict (bf : ν → ℤ) (priv : Bool) : BinaryTree ν → Bool
  | .nil => priv
  | .node a l r => decide (TopInRange bf (.node a l r))

/-- The traversal measures the tree. Whatever the verdicts below a node were, its own replaces them. -/
theorem validateAvl_spec {p : Option ν} (hl : Linked mem.ch p t) (hr : t.height ≤ rounds) (priv : Bool) :
    validateAvl mem rounds p priv = .ok (t.height, verdict mem.bf priv t) := by
  induction t generalizing p rounds priv with
  | nil =>
    obtain rfl : p = none := hl
    cases rounds <;> rfl
  | node a l r ihl ihr =>
    obtain ⟨rfl, hll, hlr⟩ := hl
    simp only [height] at hr
    obtain ⟨n, rfl⟩ : ∃ n, rounds = n + 1 := ⟨rounds - 1, by omega⟩
    have hleft : validateAvl mem n (mem a).left priv = .ok (l.height, verdict mem.bf priv l) :=
      ihl hll (by omega) priv
    have hright : validateAvl mem n (mem a).right (verdict mem.bf priv l) = .ok (r.height, _) :=
      ihr hlr (by omega) _
    have hheight : 1 + max l.height r.height = (node a l r).height := by rw [height]; omega
    rw [validateAvl, hleft]
    simp only [bind, Except.bind]
    rw [hright]
    simp only [hheight]
    have hbf : mem.bf a = (mem a).bf := rfl
    -- the source tests for a node that is out of range
    split
    · rename_i hout
      have hfalse : ¬TopInRange mem.bf (.node a l r) := by
        rintro ⟨h₁, h₂, h₃, h₄⟩
        omega
      rw [verdict, decide_eq_false hfalse]; rfl
    · rename_i hin
      have htrue : TopInRange mem.bf (.node a l r) := by
        refine ⟨?_, ?_, ?_, ?_⟩ <;> omega
      rw [verdict, decide_eq_true htrue]; rfl

/-- What the check says of a tree. -/
theorem isavl_spec (hl : Linked tree.mem.ch tree.root t) (hc : tree.count = 0 ↔ tree.root = none)
    (hr : t.height ≤ rounds) : isavl rounds tree = .ok (decide (TopInRange tree.mem.bf t)) := by
  unfold isavl
  cases t with
  | nil =>
    have hroot : tree.root = none := hl
    rw [if_pos (hc.2 hroot)]; rfl
  | node a l r =>
    have hroot : tree.root ≠ none := by rw [hl.1]; simp
    rw [if_neg fun h0 => hroot (hc.1 h0), validateAvl_spec hl hr]
    rfl

/-- **Trees in use pass.** -/
theorem isavl_of_valid {cmp : ν → ν → Ordering} (hv : Valid cmp tree t) (hr : t.height ≤ rounds) :
    isavl rounds tree = .ok true := by
  have hc : tree.count = 0 ↔ tree.root = none := by
    rw [hv.count_eq_zero]
    constructor
    · rintro rfl
      exact hv.linked
    · intro hroot
      have hl := hv.linked
      rw [hroot] at hl
      exact linked_none.1 hl
  rw [isavl_spec hv.linked hc hr, decide_eq_true (topInRange_of_balanced hv.balanced)]

/-- **What the check is worth.** Its answer is true exactly for the trees that are right at every node if and only if the
tree is not one whose topmost node alone is in range: a tree that is wrong somewhere and passes at the top is accepted. -/
theorem isavl_iff (hl : Linked tree.mem.ch tree.root t) (hc : tree.count = 0 ↔ tree.root = none)
    (hr : t.height ≤ rounds) : (isavl rounds tree = .ok true ↔ HeightBalanced tree.mem.bf t) ↔
      (TopInRange tree.mem.bf t → HeightBalanced tree.mem.bf t) := by
  rw [isavl_spec hl hc hr, Except.ok.injEq, decide_eq_true_iff]
  constructor
  · intro h
    exact h.1
  · intro h
    exact ⟨h, topInRange_of_balanced⟩

/-- A node with the leaves 1 and 2 below it. -/
def threeNodes : AvlTree ℕ where
  mem n := if n = 0 then { left := some 1, right := some 2, bf := 0 } else { left := none, right := none, bf := 0 }
  root := some 0
  cached := none
  count := 3
  dtor := false

theorem isavl_iff_threeNodes : (isavl 2 threeNodes = .ok true ↔
    HeightBalanced threeNodes.mem.bf (.node 0 (.node 1 .nil .nil) (.node 2 .nil .nil))) ↔
      (TopInRange threeNodes.mem.bf (.node 0 (.node 1 .nil .nil) (.node 2 .nil .nil)) →
        HeightBalanced threeNodes.mem.bf (.node 0 (.node 1 .nil .nil) (.node 2 .nil .nil))) :=
  isavl_iff ⟨rfl, ⟨rfl, rfl, rfl⟩, ⟨rfl, rfl, rfl⟩⟩ (by decide) (by decide)

/-- Two chains of three nodes each below a root, with factors that are all 0. -/
def twoChains : AvlTree ℕ where
  mem n := match n with
    | 0 => { left := some 1, right := some 4, bf := 0 }
    | 1 => { left := some 2, right := none, bf := 0 }
    | 2 => { left := some 3, right := none, bf := 0 }
    | 4 => { left := none, right := some 5, bf := 0 }
    | 5 => { left := none, right := some 6, bf := 0 }
    | _ => { left := none, right := none, bf := 0 }
  root := some 0
  cached := none
  count := 7
  dtor := false

/-- Nodes 1 and 4 have one subtree of height 2 and an empty one, and factors 0 there and at their children. The root has
two subtrees of height 3, and its verdict is the last one written. -/
theorem two_chains_accepted : ∃ t, Linked twoChains.mem.ch twoChains.root t ∧
    (twoChains.count = 0 ↔ twoChains.root = none) ∧ t.height ≤ 4 ∧ isavl 4 twoChains = .ok true ∧
    ¬HeightBalanced twoChains.mem.bf t := by
  refine ⟨.node 0 (.node 1 (.node 2 (.node 3 .nil .nil) .nil) .nil)
    (.node 4 .nil (.node 5 .nil (.node 6 .nil .nil))), ?_, by decide, by decide, by decide, ?_⟩
  · simp [twoChains, Mem.ch, AvlNode.child]
  · rintro ⟨⟨-, -, hbf, -, -⟩, -⟩
    simp [twoChains, Mem.bf, height] at hbf

end Libtarp.Avl
