import Mathlib.Data.Tree.Basic
import Mathlib.Data.Finset.Basic
import Mathlib.Data.Finset.Card
import Mathlib.Data.Int.Notation
import Mathlib.Data.Nat.Fib.Basic
import Mathlib.Tactic.Common

/-!
# Binary search trees and the path to a hole in them

A tree with a hole is the list of frames above the hole, the innermost first. A search
walks down one path, so it ends with such a list and the subtree that fills the hole.

* `inorder_plug`: the sequence of a filled tree is that of the filling with what stands
  before and after the hole.
* `locate_spec`: where a search for a key ends, everything before the hole is smaller
  than the key and everything after it greater.
* `sorted_insert`: how the sequence may change there.
* `balanced_plug`: a balance factor that tells the heights of the subtrees can be checked
  separately for the frames and for the filling.
* `measured_plug`: so can the heights themselves, where they are stored.
* `HeightBalanced.fib_le`: a tree with such factors has few levels for its nodes.
-/

namespace Libtarp.Lib

open BinaryTree

variable {α : Type*}

/-- The child of a node a path goes to. -/
inductive Side
  | left
  | right
  deriving DecidableEq, Repr

def Side.other : Side → Side
  | .left => .right
  | .right => .left

/-- What the height of a child on this side adds to the balance factor. -/
def Side.sign : Side → ℤ
  | .left => -1
  | .right => 1

@[simp] theorem Side.other_ne (s : Side) : s.other ≠ s := by cases s <;> decide

@[simp] theorem Side.sign_other (s : Side) : s.other.sign = -s.sign := by cases s <;> rfl

/-- A node above the hole: where the hole is, and the subtree on the other side. -/
structure Frame (α : Type*) where
  side : Side
  node : α
  sibling : BinaryTree α

/-- The subtree at a frame whose hole holds `t`. -/
def Frame.fill (f : Frame α) (t : BinaryTree α) : BinaryTree α :=
  match f.side with
  | .left => .node f.node t f.sibling
  | .right => .node f.node f.sibling t

/-- The whole tree whose hole holds `t`. -/
def plug : List (Frame α) → BinaryTree α → BinaryTree α
  | [], t => t
  | f :: c, t => plug c (f.fill t)

/-- The values from the leftmost to the rightmost. -/
def inorder : BinaryTree α → List α
  | .nil => []
  | .node a l r => inorder l ++ a :: inorder r

/-- The values, each after those below it. -/
def postorder : BinaryTree α → List α
  | .nil => []
  | .node a l r => postorder l ++ postorder r ++ [a]

/-- What stands before the hole. -/
def before : List (Frame α) → List α
  | [] => []
  | f :: c =>
    match f.side with
    | .left => before c
    | .right => before c ++ (inorder f.sibling ++ [f.node])

/-- What stands after the hole. -/
def after : List (Frame α) → List α
  | [] => []
  | f :: c =>
    match f.side with
    | .left => f.node :: inorder f.sibling ++ after c
    | .right => after c

@[simp] theorem inorder_nil : inorder (.nil : BinaryTree α) = [] := rfl

@[simp] theorem inorder_node (a : α) (l r : BinaryTree α) :
    inorder (.node a l r) = inorder l ++ a :: inorder r := rfl

@[simp] theorem mem_postorder {t : BinaryTree α} {a : α} : a ∈ postorder t ↔ a ∈ inorder t := by
  induction t with
  | nil => rfl
  | node b l r ihl ihr =>
    simp only [postorder, inorder_node, List.mem_append, List.mem_cons, List.not_mem_nil, or_false, ihl, ihr]
    tauto

@[simp] theorem plug_nil (t : BinaryTree α) : plug [] t = t := rfl

@[simp] theorem plug_cons (f : Frame α) (c : List (Frame α)) (t : BinaryTree α) :
    plug (f :: c) t = plug c (f.fill t) := rfl

theorem plug_append (c d : List (Frame α)) (t : BinaryTree α) :
    plug (c ++ d) t = plug d (plug c t) := by
  induction c generalizing t with
  | nil => rfl
  | cons f c ih => exact ih (f.fill t)

theorem plug_eq_nil {c : List (Frame α)} {t : BinaryTree α} : plug c t = .nil ↔ c = [] ∧ t = .nil := by
  induction c generalizing t with
  | nil => simp
  | cons f c ih =>
    rw [plug_cons, ih]
    obtain ⟨side, a, s⟩ := f
    cases side <;> simp [Frame.fill]

theorem plug_ne_nil {c : List (Frame α)} {t : BinaryTree α} (h : c ≠ []) : plug c t ≠ .nil :=
  fun h' => h (plug_eq_nil.1 h').1

theorem inorder_plug (c : List (Frame α)) (t : BinaryTree α) :
    inorder (plug c t) = before c ++ inorder t ++ after c := by
  induction c generalizing t with
  | nil => simp [before, after]
  | cons f c ih =>
    obtain ⟨side, a, s⟩ := f
    rw [plug_cons, ih]
    cases side <;> simp [Frame.fill, before, after]

theorem mem_inorder_fill {f : Frame α} {t : BinaryTree α} {a : α} :
    a ∈ inorder (f.fill t) ↔ a = f.node ∨ a ∈ inorder t ∨ a ∈ inorder f.sibling := by
  obtain ⟨side, b, s⟩ := f
  cases side <;> simp [Frame.fill] <;> tauto

theorem perm_inorder_fill (f : Frame α) (t : BinaryTree α) :
    (inorder (f.fill t)).Perm (f.node :: (inorder t ++ inorder f.sibling)) := by
  obtain ⟨side, b, s⟩ := f
  cases side with
  | left => exact List.perm_middle
  | right => exact List.perm_middle.trans (List.perm_append_comm.cons b)

/-- The same node with its hole on the other side. -/
theorem fill_other (s : Side) (a : α) (t u : BinaryTree α) :
    (Frame.mk s.other a t).fill u = (Frame.mk s a u).fill t := by
  cases s <;> rfl

theorem nodup_fill {f : Frame α} {t : BinaryTree α} : (inorder (f.fill t)).Nodup ↔
    f.node ∉ inorder t ∧ f.node ∉ inorder f.sibling ∧ (inorder t).Nodup ∧ (inorder f.sibling).Nodup ∧
      ∀ a ∈ inorder t, a ∉ inorder f.sibling := by
  rw [(perm_inorder_fill f t).nodup_iff, List.nodup_cons, List.nodup_append', List.mem_append,
    List.disjoint_left]
  tauto

theorem before_append (c d : List (Frame α)) : before (c ++ d) = before d ++ before c := by
  induction c with
  | nil => simp [before]
  | cons f c ih => rw [List.cons_append, before, before, ih]; cases f.side <;> simp

theorem after_append (c d : List (Frame α)) : after (c ++ d) = after c ++ after d := by
  induction c with
  | nil => simp [after]
  | cons f c ih => rw [List.cons_append, after, after, ih]; cases f.side <;> simp

theorem length_inorder (t : BinaryTree α) : (inorder t).length = t.numNodes := by
  induction t with
  | nil => rfl
  | node a l r ihl ihr => simp [ihl, ihr]; omega

/-- The values in the frames: the nodes on the path and those of the subtrees beside it. -/
def ctxValues (c : List (Frame α)) : List α := before c ++ after c

theorem mem_ctxValues_cons {f : Frame α} {c : List (Frame α)} {a : α} :
    a ∈ ctxValues (f :: c) ↔ a = f.node ∨ a ∈ inorder f.sibling ∨ a ∈ ctxValues c := by
  obtain ⟨side, b, s⟩ := f
  cases side <;> simp [ctxValues, before, after] <;> tauto

theorem nodup_plug {c : List (Frame α)} {t : BinaryTree α} : (inorder (plug c t)).Nodup ↔
    (ctxValues c).Nodup ∧ (inorder t).Nodup ∧ ∀ a ∈ ctxValues c, a ∉ inorder t := by
  have hperm : (inorder (plug c t)).Perm (ctxValues c ++ inorder t) := by
    rw [inorder_plug, ctxValues, List.append_assoc, List.append_assoc]
    exact List.perm_append_comm.append_left _
  rw [hperm.nodup_iff, List.nodup_append', List.disjoint_left]

theorem mem_inorder_plug {c : List (Frame α)} {t : BinaryTree α} {a : α} :
    a ∈ inorder (plug c t) ↔ a ∈ ctxValues c ∨ a ∈ inorder t := by
  rw [inorder_plug, ctxValues]; simp only [List.mem_append]; tauto

section Search

variable (cmp : α → α → Ordering)

/-- Every value is smaller than those after it. -/
def Sorted (l : List α) : Prop := l.Pairwise fun a b => cmp a b = .lt

/-- Where the search for `k` in `t`, itself below the frames `c`, ends. -/
def locate (k : α) : BinaryTree α → List (Frame α) → List (Frame α) × BinaryTree α
  | .nil, c => (c, .nil)
  | .node a l r, c =>
    match cmp k a with
    | .lt => locate k l (⟨.left, a, r⟩ :: c)
    | .eq => (c, .node a l r)
    | .gt => locate k r (⟨.right, a, l⟩ :: c)

theorem plug_locate (k : α) (t : BinaryTree α) (c : List (Frame α)) :
    plug (locate cmp k t c).1 (locate cmp k t c).2 = plug c t := by
  induction t generalizing c with
  | nil => rfl
  | node a l r ihl ihr =>
    unfold locate
    split
    · rw [ihl]; rfl
    · rfl
    · rw [ihr]; rfl

variable {cmp} [Std.TransCmp cmp]

/-- **Where a search ends.** With `(c, u)` the place the search for `k` in a sorted tree
ends at: `u` is empty or has a root equal to `k`, and `k` lies between what is before and
what is after the hole. -/
theorem locate_spec {k : α} {t : BinaryTree α} {c : List (Frame α)}
    (hs : Sorted cmp (inorder t)) (hb : ∀ x ∈ before c, cmp k x = .gt)
    (ha : ∀ x ∈ after c, cmp k x = .lt) :
    (∀ x ∈ before (locate cmp k t c).1, cmp k x = .gt) ∧
      (∀ x ∈ after (locate cmp k t c).1, cmp k x = .lt) ∧
      ((locate cmp k t c).2 = .nil ∨ ∃ a l r, (locate cmp k t c).2 = .node a l r ∧ cmp k a = .eq) := by
  induction t generalizing c with
  | nil => exact ⟨hb, ha, .inl rfl⟩
  | node a l r ihl ihr =>
    simp only [Sorted, inorder_node, List.pairwise_append, List.pairwise_cons] at hs
    obtain ⟨hl, ⟨har, hr⟩, hlr⟩ := hs
    unfold locate
    split
    · rename_i hk
      refine ihl hl hb ?_
      intro x hx
      simp only [after, List.mem_cons, List.mem_append] at hx
      rcases hx with (rfl | hx) | hx
      · exact hk
      · exact Std.TransCmp.lt_trans hk (har x hx)
      · exact ha x hx
    · rename_i hk
      exact ⟨hb, ha, .inr ⟨a, l, r, rfl, hk⟩⟩
    · rename_i hk
      refine ihr hr ?_ ha
      intro x hx
      simp only [before, List.mem_append, List.mem_singleton] at hx
      rcases hx with hx | hx | rfl
      · exact hb x hx
      · have hxa : cmp x a = .lt := hlr x hx a (by simp)
        have hak : cmp a k = .lt := Std.OrientedCmp.gt_iff_lt.1 hk
        exact Std.OrientedCmp.gt_iff_lt.2 (Std.TransCmp.lt_trans hxa hak)
      · exact hk

omit [Std.TransCmp cmp] in
/-- A search goes down the frames that lie on its way. -/
theorem locate_frames {k : α} {c d : List (Frame α)} {u : BinaryTree α}
    (h : ∀ f ∈ c, cmp k f.node = match f.side with
      | .left => .lt
      | .right => .gt) : locate cmp k (plug c u) d = locate cmp k u (c ++ d) := by
  induction c using List.reverseRecOn generalizing d with
  | nil => rfl
  | append_singleton c f ih =>
    have hf := h f (by simp)
    rw [plug_append, plug_cons, plug_nil, List.append_assoc, List.singleton_append,
      ← ih fun g hg => h g (by simp [hg])]
    obtain ⟨side, a, s⟩ := f
    cases side <;> (simp only at hf; simp only [Frame.fill, locate, hf])

/-- A search for a value of the tree ends at it. -/
theorem locate_value {a : α} {c : List (Frame α)} {l r : BinaryTree α}
    (hs : Sorted cmp (inorder (plug c (.node a l r)))) :
    locate cmp a (plug c (.node a l r)) [] = (c, .node a l r) := by
  rw [inorder_plug] at hs
  simp only [Sorted, inorder_node, List.pairwise_append] at hs
  obtain ⟨⟨-, -, hb⟩, -, ha⟩ := hs
  have hself : cmp a a = .eq := Std.ReflCmp.compare_self
  rw [locate_frames, List.append_nil, locate, hself]
  intro f hf
  obtain ⟨pre, suf, rfl⟩ := List.append_of_mem hf
  obtain ⟨side, x, s⟩ := f
  cases side with
  | left =>
    refine ha a (by simp) x ?_
    rw [after_append]; simp [after]
  | right =>
    refine Std.OrientedCmp.gt_iff_lt.2 (hb x ?_ a (by simp))
    rw [before_append]; simp [before]

/-- A key that lies strictly between two sorted parts may be put between them. -/
theorem sorted_insert {k : α} {l r : List α} (h : Sorted cmp (l ++ r))
    (hl : ∀ x ∈ l, cmp k x = .gt) (hr : ∀ x ∈ r, cmp k x = .lt) : Sorted cmp (l ++ k :: r) := by
  simp only [Sorted, List.pairwise_append, List.pairwise_cons] at h ⊢
  refine ⟨h.1, ⟨hr, h.2.1⟩, ?_⟩
  intro x hx y hy
  rcases List.mem_cons.1 hy with rfl | hy
  · exact Std.OrientedCmp.gt_iff_lt.1 (hl x hx)
  · exact h.2.2 x hx y hy

omit [Std.TransCmp cmp] in
/-- A subtree of a sorted tree is sorted. -/
theorem Sorted.subtree {c : List (Frame α)} {t : BinaryTree α} (h : Sorted cmp (inorder (plug c t))) :
    Sorted cmp (inorder t) := by
  rw [inorder_plug] at h
  exact (List.pairwise_append.1 (List.pairwise_append.1 h).1).2.1

theorem Sorted.nodup {l : List α} (h : Sorted cmp l) : l.Nodup := by
  refine List.Pairwise.imp ?_ h
  rintro a b hab rfl
  simp [Std.ReflCmp.compare_self] at hab

omit [Std.TransCmp cmp] in
theorem Sorted.reverse {l : List α} (h : Sorted cmp l) : Sorted (fun a b => cmp b a) l.reverse :=
  List.pairwise_reverse.2 h

/-- The smaller values of a sorted sequence are those before. -/
theorem Sorted.countP_lt {l r : List α} {a : α} (h : Sorted cmp (l ++ a :: r)) :
    (l ++ a :: r).countP (fun b => cmp b a = .lt) = l.length := by
  simp only [Sorted, List.pairwise_append, List.pairwise_cons] at h
  have hl : l.countP (fun b => cmp b a = .lt) = l.length :=
    List.countP_eq_length.2 fun b hb => decide_eq_true (h.2.2 b hb a (by simp))
  have hr : r.countP (fun b => cmp b a = .lt) = 0 := by
    refine List.countP_eq_zero.2 fun b hb => ?_
    rw [decide_eq_true_iff, Std.OrientedCmp.gt_iff_lt.2 (h.2.1.1 b hb)]
    decide
  have hself : cmp a a = .eq := Std.ReflCmp.compare_self
  rw [List.countP_append, List.countP_cons, hl, hr, hself]
  simp

/-- **The rank of a value** is its index in the sorted sequence. -/
theorem Sorted.getElem?_iff {l : List α} (h : Sorted cmp l) {i : ℕ} {a : α} :
    l[i]? = some a ↔ a ∈ l ∧ l.countP (fun b => cmp b a = .lt) = i := by
  constructor
  · intro hi
    obtain ⟨hlt, rfl⟩ := List.getElem?_eq_some_iff.1 hi
    have hsplit : l.take i ++ l[i] :: l.drop (i + 1) = l := by
      rw [List.getElem_cons_drop hlt, List.take_append_drop]
    have hsorted : Sorted cmp (l.take i ++ l[i] :: l.drop (i + 1)) := by
      rw [hsplit]
      exact h
    have hrank := hsorted.countP_lt
    rw [hsplit, List.length_take_of_le hlt.le] at hrank
    exact ⟨List.getElem_mem hlt, hrank⟩
  · rintro ⟨ha, rfl⟩
    obtain ⟨s, t, rfl⟩ := List.mem_iff_append.1 ha
    rw [h.countP_lt]
    simp

end Search

theorem top_mem_ctxValues {c : List (Frame α)} {u l r : BinaryTree α} {a : α} (hc : c ≠ [])
    (h : plug c u = .node a l r) : a ∈ ctxValues c := by
  induction c generalizing u with
  | nil => exact absurd rfl hc
  | cons f c ih =>
    cases c with
    | nil =>
      obtain ⟨side, b, s⟩ := f
      cases side <;> simp [Frame.fill] at h <;> simp [ctxValues, before, after, h.1]
    | cons g c => exact mem_ctxValues_cons.2 (.inr (.inr (ih (by simp) h)))

/-- Nothing stands before a hole at the end of a left spine. -/
theorem before_eq_nil {c : List (Frame α)} (h : ∀ f ∈ c, f.side = .left) : before c = [] := by
  induction c with
  | nil => rfl
  | cons f c ih => rw [before, h f (by simp)]; exact ih fun g hg => h g (by simp [hg])

/-- The leftmost node of a tree, below the frames of its left spine. -/
theorem exists_leftmost {t : BinaryTree α} (h : t ≠ .nil) :
    ∃ c a r, t = plug c (.node a .nil r) ∧ ∀ f ∈ c, f.side = .left := by
  induction t with
  | nil => exact absurd rfl h
  | node a l r ihl _ =>
    by_cases hl : l = .nil
    · exact ⟨[], a, r, by rw [hl]; rfl, by simp⟩
    · obtain ⟨c, b, s, rfl, hc⟩ := ihl hl
      refine ⟨c ++ [⟨.left, a, r⟩], b, s, by rw [plug_append]; rfl, ?_⟩
      intro f hf
      rcases List.mem_append.1 hf with hf | hf
      · exact hc f hf
      · rw [List.mem_singleton.1 hf]

/-! ## Balance factors -/

/-- Every node's factor is the height of its right subtree less that of its left one, and
is -1, 0 or 1. -/
def HeightBalanced (bf : α → ℤ) : BinaryTree α → Prop
  | .nil => True
  | .node a l r => HeightBalanced bf l ∧ HeightBalanced bf r ∧ bf a = r.height - l.height ∧ -1 ≤ bf a ∧ bf a ≤ 1

/-- The height of the subtree at a frame whose hole is `h` high. -/
def Frame.height (f : Frame α) (h : ℕ) : ℕ := max h f.sibling.height + 1

/-- What `HeightBalanced` says of the frames above a hole that is `h` high. -/
def CtxBalanced (bf : α → ℤ) : List (Frame α) → ℕ → Prop
  | [], _ => True
  | f :: c, h =>
    HeightBalanced bf f.sibling ∧ bf f.node = f.side.sign * ((h : ℤ) - f.sibling.height) ∧
      -1 ≤ bf f.node ∧ bf f.node ≤ 1 ∧ CtxBalanced bf c (f.height h)

/-- The height of the whole tree whose hole is `h` high. -/
def ctxHeight : List (Frame α) → ℕ → ℕ
  | [], h => h
  | f :: c, h => ctxHeight c (f.height h)

@[simp] theorem height_fill (f : Frame α) (t : BinaryTree α) : (f.fill t).height = f.height t.height := by
  obtain ⟨side, a, s⟩ := f
  cases side <;> simp [Frame.fill, Frame.height, max_comm]

theorem height_plug (c : List (Frame α)) (t : BinaryTree α) :
    (plug c t).height = ctxHeight c t.height := by
  induction c generalizing t with
  | nil => rfl
  | cons f c ih => rw [plug_cons, ih, height_fill, ctxHeight]

theorem le_ctxHeight (c : List (Frame α)) (h : ℕ) : h ≤ ctxHeight c h := by
  induction c generalizing h with
  | nil => exact le_rfl
  | cons f c ih =>
    have := ih (f.height h)
    simp only [ctxHeight, Frame.height] at this ⊢; omega

/-- A subtree is not higher than the tree. -/
theorem height_le_plug (c : List (Frame α)) (t : BinaryTree α) : t.height ≤ (plug c t).height := by
  rw [height_plug]
  exact le_ctxHeight c _

theorem ctxHeight_append (c d : List (Frame α)) (h : ℕ) :
    ctxHeight (c ++ d) h = ctxHeight d (ctxHeight c h) := by
  induction c generalizing h with
  | nil => rfl
  | cons f c ih => exact ih (f.height h)

theorem ctxBalanced_append {bf : α → ℤ} {c d : List (Frame α)} {h : ℕ} :
    CtxBalanced bf (c ++ d) h ↔ CtxBalanced bf c h ∧ CtxBalanced bf d (ctxHeight c h) := by
  induction c generalizing h with
  | nil => simp [CtxBalanced, ctxHeight]
  | cons f c ih => rw [List.cons_append, CtxBalanced, CtxBalanced, ih, ctxHeight]; tauto

/-- Every tree but the empty one is a node with a child on the side `s` and one on the other. -/
theorem exists_fill (s : Side) {t : BinaryTree α} (h : t ≠ .nil) :
    ∃ a u v, t = (Frame.mk s a v).fill u := by
  cases t with
  | nil => exact absurd rfl h
  | node a l r =>
    cases s with
    | left => exact ⟨a, l, r, rfl⟩
    | right => exact ⟨a, r, l, rfl⟩

theorem balanced_fill {bf : α → ℤ} {f : Frame α} {t : BinaryTree α} :
    HeightBalanced bf (f.fill t) ↔ HeightBalanced bf t ∧ HeightBalanced bf f.sibling ∧
      bf f.node = f.side.sign * ((t.height : ℤ) - f.sibling.height) ∧
      -1 ≤ bf f.node ∧ bf f.node ≤ 1 := by
  obtain ⟨side, a, s⟩ := f
  have hneg : bf a = s.height - t.height ↔ bf a = -1 * ((t.height : ℤ) - s.height) := by omega
  have hpos : bf a = t.height - s.height ↔ bf a = 1 * ((t.height : ℤ) - s.height) := by omega
  cases side with
  | left => simp only [Frame.fill, HeightBalanced, Side.sign, hneg]
  | right => simp only [Frame.fill, HeightBalanced, Side.sign, hpos]; tauto

theorem balanced_plug {bf : α → ℤ} {c : List (Frame α)} {t : BinaryTree α} :
    HeightBalanced bf (plug c t) ↔ CtxBalanced bf c t.height ∧ HeightBalanced bf t := by
  induction c generalizing t with
  | nil => simp [CtxBalanced]
  | cons f c ih =>
    rw [plug_cons, ih, height_fill, balanced_fill, CtxBalanced]
    tauto

theorem HeightBalanced.congr {bf bf' : α → ℤ} {t : BinaryTree α} (h : HeightBalanced bf t)
    (heq : ∀ a ∈ inorder t, bf' a = bf a) : HeightBalanced bf' t := by
  induction t with
  | nil => trivial
  | node a l r ihl ihr =>
    obtain ⟨hl, hr, ha⟩ := h
    refine ⟨ihl hl fun x hx => heq x (by simp [hx]), ihr hr fun x hx => heq x (by simp [hx]), ?_⟩
    rw [heq a (by simp)]; exact ha

theorem CtxBalanced.congr {bf bf' : α → ℤ} {c : List (Frame α)} {h : ℕ} (hb : CtxBalanced bf c h)
    (heq : ∀ a ∈ ctxValues c, bf' a = bf a) : CtxBalanced bf' c h := by
  induction c generalizing h with
  | nil => trivial
  | cons f c ih =>
    obtain ⟨hs, hf, hlo, hhi, hc⟩ := hb
    have hn : bf' f.node = bf f.node := heq _ (mem_ctxValues_cons.2 (.inl rfl))
    refine ⟨hs.congr fun a ha => heq a (mem_ctxValues_cons.2 (.inr (.inl ha))), ?_, ?_, ?_,
      ih hc fun a ha => heq a (mem_ctxValues_cons.2 (.inr (.inr ha)))⟩
    · rw [hn]; exact hf
    · rw [hn]; exact hlo
    · rw [hn]; exact hhi

/-- **A balanced tree is not high.** The lowest of its height is a Fibonacci tree. -/
theorem HeightBalanced.fib_le {bf : α → ℤ} {t : BinaryTree α} (h : HeightBalanced bf t) :
    Nat.fib (t.height + 2) ≤ t.numNodes + 1 := by
  induction t with
  | nil => exact le_rfl
  | node a l r ihl ihr =>
    obtain ⟨hl, hr, hbf, hlo, hhi⟩ := h
    have hfl := ihl hl
    have hfr := ihr hr
    have hsum : Nat.fib (max l.height r.height + 1 + 2) =
        Nat.fib (max l.height r.height + 1) + Nat.fib (max l.height r.height + 2) := Nat.fib_add_two
    show Nat.fib (max l.height r.height + 1 + 2) ≤ l.numNodes + r.numNodes + 1 + 1
    -- one subtree is as high as the tree allows, the other at most one level less
    rcases le_total l.height r.height with hle | hle
    · have hother : Nat.fib (r.height + 1) ≤ Nat.fib (l.height + 2) := Nat.fib_mono (by omega)
      rw [max_eq_right hle] at hsum ⊢
      omega
    · have hother : Nat.fib (l.height + 1) ≤ Nat.fib (r.height + 2) := Nat.fib_mono (by omega)
      rw [max_eq_left hle] at hsum ⊢
      omega

/-- As many levels as there are rounds are enough for fewer nodes than the next Fibonacci tree has. -/
theorem HeightBalanced.height_le {bf : α → ℤ} {t : BinaryTree α} (h : HeightBalanced bf t) {rounds : ℕ}
    (hfew : t.numNodes + 1 < Nat.fib (rounds + 3)) : t.height ≤ rounds := by
  by_contra hhigh
  have hmono : Nat.fib (rounds + 3) ≤ Nat.fib (t.height + 2) := Nat.fib_mono (by omega)
  have hfib := h.fib_le
  omega

/-! ## Stored heights -/

/-- Every node knows the height of its subtree, and its factor is as for `HeightBalanced`, of any size. -/
def Measured (height : α → ℕ) (bf : α → ℤ) : BinaryTree α → Prop
  | .nil => True
  | .node a l r => Measured height bf l ∧ Measured height bf r ∧ height a = max l.height r.height + 1 ∧
      bf a = r.height - l.height

/-- What `Measured` says of the frames above a hole that is `h` high. -/
def CtxMeasured (height : α → ℕ) (bf : α → ℤ) : List (Frame α) → ℕ → Prop
  | [], _ => True
  | f :: c, h =>
    Measured height bf f.sibling ∧ height f.node = f.height h ∧
      bf f.node = f.side.sign * ((h : ℤ) - f.sibling.height) ∧ CtxMeasured height bf c (f.height h)

variable {height height' : α → ℕ} {bf bf' : α → ℤ}

theorem measured_fill {f : Frame α} {t : BinaryTree α} :
    Measured height bf (f.fill t) ↔ Measured height bf t ∧ Measured height bf f.sibling ∧
      height f.node = f.height t.height ∧ bf f.node = f.side.sign * ((t.height : ℤ) - f.sibling.height) := by
  obtain ⟨side, a, s⟩ := f
  have hneg : bf a = s.height - t.height ↔ bf a = -1 * ((t.height : ℤ) - s.height) := by omega
  have hpos : bf a = t.height - s.height ↔ bf a = 1 * ((t.height : ℤ) - s.height) := by omega
  cases side with
  | left => simp only [Frame.fill, Measured, Side.sign, hneg, Frame.height]
  | right =>
    simp only [Frame.fill, Measured, Side.sign, hpos, Frame.height, max_comm t.height]
    tauto

theorem measured_plug {c : List (Frame α)} {t : BinaryTree α} :
    Measured height bf (plug c t) ↔ CtxMeasured height bf c t.height ∧ Measured height bf t := by
  induction c generalizing t with
  | nil => simp [CtxMeasured]
  | cons f c ih =>
    rw [plug_cons, ih, height_fill, measured_fill, CtxMeasured]
    tauto

theorem ctxMeasured_append {c d : List (Frame α)} {h : ℕ} : CtxMeasured height bf (c ++ d) h ↔
    CtxMeasured height bf c h ∧ CtxMeasured height bf d (ctxHeight c h) := by
  induction c generalizing h with
  | nil => simp [CtxMeasured, ctxHeight]
  | cons f c ih => rw [List.cons_append, CtxMeasured, CtxMeasured, ih, ctxHeight]; tauto

theorem Measured.congr {t : BinaryTree α} (h : Measured height bf t) (hh : ∀ a ∈ inorder t, height' a = height a)
    (hb : ∀ a ∈ inorder t, bf' a = bf a) : Measured height' bf' t := by
  induction t with
  | nil => trivial
  | node a l r ihl ihr =>
    obtain ⟨hl, hr, ha, hba⟩ := h
    refine ⟨ihl hl (fun x hx => hh x (by simp [hx])) fun x hx => hb x (by simp [hx]),
      ihr hr (fun x hx => hh x (by simp [hx])) fun x hx => hb x (by simp [hx]), ?_, ?_⟩
    · rw [hh a (by simp)]; exact ha
    · rw [hb a (by simp)]; exact hba

theorem CtxMeasured.congr {c : List (Frame α)} {h : ℕ} (hc : CtxMeasured height bf c h)
    (hh : ∀ a ∈ ctxValues c, height' a = height a) (hb : ∀ a ∈ ctxValues c, bf' a = bf a) :
    CtxMeasured height' bf' c h := by
  induction c generalizing h with
  | nil => trivial
  | cons f c ih =>
    obtain ⟨hs, hf, hfb, hc⟩ := hc
    have hmem : f.node ∈ ctxValues (f :: c) := mem_ctxValues_cons.2 (.inl rfl)
    refine ⟨hs.congr (fun a ha => hh a (mem_ctxValues_cons.2 (.inr (.inl ha)))) fun a ha =>
      hb a (mem_ctxValues_cons.2 (.inr (.inl ha))), ?_, ?_, ih hc (fun a ha =>
      hh a (mem_ctxValues_cons.2 (.inr (.inr ha)))) fun a ha => hb a (mem_ctxValues_cons.2 (.inr (.inr ha)))⟩
    · rw [hh _ hmem]; exact hf
    · rw [hb _ hmem]; exact hfb

/-- There is only one factor that tells the heights. -/
theorem HeightBalanced.eq_of_measured {t : BinaryTree α} (h : HeightBalanced bf t) (hm : Measured height bf' t) :
    ∀ a ∈ inorder t, bf' a = bf a := by
  induction t with
  | nil => intro a ha; simp at ha
  | node b l r ihl ihr =>
    obtain ⟨hl, hr, hb, -⟩ := h
    obtain ⟨hml, hmr, -, hmb⟩ := hm
    intro a ha
    simp only [inorder_node, List.mem_append, List.mem_cons] at ha
    rcases ha with ha | rfl | ha
    · exact ihl hl hml a ha
    · exact hmb.trans hb.symm
    · exact ihr hr hmr a ha

/-- The heights from one, the factors from the other. -/
theorem Measured.of_balanced {t : BinaryTree α} (hm : Measured height bf' t) (h : HeightBalanced bf t) :
    Measured height bf t :=
  hm.congr (fun _ _ => rfl) fun a ha => (h.eq_of_measured hm a ha).symm

theorem CtxMeasured.of_balanced {c : List (Frame α)} {h : ℕ} (hm : CtxMeasured height bf' c h)
    (hc : CtxBalanced bf c h) : CtxMeasured height bf c h := by
  induction c generalizing h with
  | nil => trivial
  | cons f c ih =>
    obtain ⟨hms, hmf, -, hmc⟩ := hm
    obtain ⟨hs, hf, -, -, hc⟩ := hc
    exact ⟨hms.of_balanced hs, hmf, hf, ih hmc hc⟩

end Libtarp.Lib
