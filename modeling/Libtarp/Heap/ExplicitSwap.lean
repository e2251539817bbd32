import Libtarp.Heap.Explicit
import Mathlib.Logic.Equiv.Basic

/-!
# Exchanging two nodes of an explicit heap

`swap_nodes` makes two nodes change places, whichever of them is the parent of the other or
whether neither is. Only where they are siblings it must not be given the right one first.

* `relink_left`, `relink_right`, `relink_of_ne`: the memory afterwards, node by node.
* `swapNodes_spec`: none of the assertions fails.
-/

namespace Libtarp.Explicit

open Function

variable {ν : Type} [DecidableEq ν] {mem : Mem ν} {a b x y : ν} {c : Option ν}

/-! ## What the writes do to each field -/

@[simp] theorem adopt_l : (adopt mem c a x).l = (mem x).l := by
  cases c with
  | none => rfl
  | some d => by_cases h : x = d <;> simp [adopt, h]

@[simp] theorem adopt_r : (adopt mem c a x).r = (mem x).r := by
  cases c with
  | none => rfl
  | some d => by_cases h : x = d <;> simp [adopt, h]

@[simp] theorem adopt_p : (adopt mem c a x).p = if c = some x then some a else (mem x).p := by
  cases c with
  | none => rfl
  | some d =>
    by_cases h : x = d
    · simp [adopt, h]
    · simp [adopt, h, Ne.symm h]

@[simp] theorem repoint_p : (repoint mem a b x).p = (mem x).p := by
  unfold repoint
  cases (mem a).p with
  | none => rfl
  | some p => by_cases h : x = p <;> simp only [] <;> split_ifs <;> simp [h]

@[simp] theorem repoint_l : (repoint mem a b x).l =
    if (mem a).p = some x ∧ x ≠ b ∧ (mem x).l = some b then some a else (mem x).l := by
  unfold repoint
  cases (mem a).p with
  | none => simp
  | some p =>
    by_cases h : p = x
    · subst h
      by_cases hb : p = b <;> by_cases hl : (mem p).l = some b <;> simp [hb, hl]
    · have h' : x ≠ p := Ne.symm h
      simp only [Option.some.injEq, h, false_and, if_false]
      split_ifs <;> simp [h']

@[simp] theorem repoint_r : (repoint mem a b x).r =
    if (mem a).p = some x ∧ x ≠ b ∧ (mem x).l ≠ some b then some a else (mem x).r := by
  unfold repoint
  cases (mem a).p with
  | none => simp
  | some p =>
    by_cases h : p = x
    · subst h
      by_cases hb : p = b <;> by_cases hl : (mem p).l = some b <;> simp [hb, hl]
    · have h' : x ≠ p := Ne.symm h
      simp only [Option.some.injEq, h, false_and, if_false]
      split_ifs <;> simp [h']

/-! ## The exchange -/

/-- The links between the nodes of `S` fit together. -/
structure Fits (mem : Mem ν) (S : ν → Prop) : Prop where
  left : ∀ x c, S x → (mem x).l = some c → S c ∧ (mem c).p = some x
  right : ∀ x c, S x → (mem x).r = some c → S c ∧ (mem c).p = some x
  parent : ∀ c x, S c → (mem c).p = some x → S x ∧ ((mem x).l = some c ∨ (mem x).r = some c)
  sides : ∀ x c, S x → (mem x).l = some c → (mem x).r ≠ some c
  acyclic : ∀ x y, S x → (mem x).p = some y → (mem y).p ≠ some x

/-- A link, with `a` and `b` exchanged. -/
def cross (a b : ν) (q : Option ν) : Option ν :=
  if q = some a then some b else if q = some b then some a else q

def XHeapNode.cross (a b : ν) (x : XHeapNode ν) : XHeapNode ν :=
  ⟨Explicit.cross a b x.l, Explicit.cross a b x.r, Explicit.cross a b x.p⟩

/-- The two nodes have exchanged their links; their neighbours do not know yet. -/
def crossed (mem : Mem ν) (a b : ν) : Mem ν := fun x =>
  if x = a then (mem b).cross a b else if x = b then (mem a).cross a b else mem x

variable {q : Option ν}

theorem cross_eq_left : cross a b q = some a ↔ q = some b := by
  unfold cross; grind

theorem cross_eq_right : cross a b q = some b ↔ q = some a := by
  unfold cross; grind

theorem cross_eq_of_ne (ha : x ≠ a) (hb : x ≠ b) : cross a b q = some x ↔ q = some x := by
  unfold cross; grind

theorem crossed_left : crossed mem a b a = (mem b).cross a b := if_pos rfl

theorem crossed_right (hab : a ≠ b) : crossed mem a b b = (mem a).cross a b := by
  unfold crossed; rw [if_neg hab.symm, if_pos rfl]

theorem crossed_of_ne (ha : x ≠ a) (hb : x ≠ b) : crossed mem a b x = mem x := by
  unfold crossed; rw [if_neg ha, if_neg hb]

variable {S : ν → Prop}

omit [DecidableEq ν] in
/-- No node is its own neighbour. -/
theorem Fits.no_loop (hF : Fits mem S) (ha : S a) :
    (mem a).p ≠ some a ∧ (mem a).l ≠ some a ∧ (mem a).r ≠ some a := by
  have hp : (mem a).p ≠ some a := fun h => hF.acyclic a a ha h h
  exact ⟨hp, fun h => hp (hF.left a a ha h).2, fun h => hp (hF.right a a ha h).2⟩

theorem relink_eq (hF : Fits mem S) (ha : S a) (hb : S b) :
    update (update mem a (redirectNode a b (mem b))) b (redirectNode b a (mem a)) = crossed mem a b := by
  obtain ⟨ha₁, ha₂, ha₃⟩ := hF.no_loop ha
  obtain ⟨hb₁, hb₂, hb₃⟩ := hF.no_loop hb
  funext x
  unfold crossed XHeapNode.cross redirectNode redirect cross
  grind

section

variable (hF : Fits mem S) (ha : S a) (hb : S b) (hab : a ≠ b)

include hF ha hb hab

/-- The writes to the neighbours do not reach the two nodes, but where they are neighbours. -/
theorem relink_left : relink mem a b a = (mem b).cross a b := by
  obtain ⟨ha₁, ha₂, ha₃⟩ := hF.no_loop ha
  obtain ⟨hb₁, hb₂, hb₃⟩ := hF.no_loop hb
  have h₁ := hF.left a b ha
  have h₂ := hF.right a b ha
  have h₃ := hF.left b a hb
  have h₄ := hF.right b a hb
  unfold relink
  rw [relink_eq hF ha hb]
  ext1 <;> simp only [adopt_p, adopt_l, adopt_r, repoint_p, repoint_l, repoint_r, crossed_left,
    crossed_right hab, XHeapNode.cross, cross_eq_left, cross_eq_right] <;> grind [cross]

theorem relink_right : relink mem a b b = (mem a).cross a b := by
  obtain ⟨ha₁, ha₂, ha₃⟩ := hF.no_loop ha
  obtain ⟨hb₁, hb₂, hb₃⟩ := hF.no_loop hb
  have h₁ := hF.left a b ha
  have h₂ := hF.right a b ha
  have h₃ := hF.left b a hb
  have h₄ := hF.right b a hb
  unfold relink
  rw [relink_eq hF ha hb]
  ext1 <;> simp only [adopt_p, adopt_l, adopt_r, repoint_p, repoint_l, repoint_r, crossed_left,
    crossed_right hab, XHeapNode.cross, cross_eq_left, cross_eq_right] <;> grind [cross]

/-- A neighbour is told. Of two siblings the left one has to be `a`: the test for the second
would otherwise find the first. -/
theorem relink_of_ne (hsib : ∀ p, S p → (mem p).l = some b → (mem p).r ≠ some a) (hx : S x)
    (hxa : x ≠ a) (hxb : x ≠ b) : relink mem a b x = (mem x).cross a b := by
  obtain ⟨ha₁, ha₂, ha₃⟩ := hF.no_loop ha
  obtain ⟨hb₁, hb₂, hb₃⟩ := hF.no_loop hb
  have h₁ := hF.left a b ha
  have h₂ := hF.right a b ha
  have h₃ := hF.left b a hb
  have h₄ := hF.right b a hb
  have h₅ := hF.acyclic a b ha
  have hl := fun c => hF.left x c hx
  have hr := fun c => hF.right x c hx
  have hp := fun c => hF.parent x c hx
  have hs := fun c => hF.sides x c hx
  have hal := hF.left a x ha
  have har := hF.right a x ha
  have hap := hF.parent a x ha
  have hbl := hF.left b x hb
  have hbr := hF.right b x hb
  have hbp := hF.parent b x hb
  have hsib := hsib x hx
  unfold relink
  rw [relink_eq hF ha hb]
  ext1 <;> simp only [adopt_p, adopt_l, adopt_r, repoint_p, repoint_l, repoint_r, crossed_left,
    crossed_right hab, XHeapNode.cross, cross_eq_left, cross_eq_right, crossed_of_ne hxa hxb,
    cross_eq_of_ne hxa hxb, ne_eq, not_true_eq_false, false_and, and_false, if_false, ha₂, ha₃, hb₂, hb₃,
    not_false_eq_true] <;> grind [cross]

/-- The links of nodes elsewhere stay. -/
theorem relink_outside (hx : ¬S x) : relink mem a b x = mem x := by
  have hxa : x ≠ a := fun h => hx (h ▸ ha)
  have hxb : x ≠ b := fun h => hx (h ▸ hb)
  obtain ⟨ha₁, ha₂, ha₃⟩ := hF.no_loop ha
  obtain ⟨hb₁, hb₂, hb₃⟩ := hF.no_loop hb
  have hal : (mem a).l ≠ some x := fun h => hx (hF.left a x ha h).1
  have har : (mem a).r ≠ some x := fun h => hx (hF.right a x ha h).1
  have hap : (mem a).p ≠ some x := fun h => hx (hF.parent a x ha h).1
  have hbl : (mem b).l ≠ some x := fun h => hx (hF.left b x hb h).1
  have hbr : (mem b).r ≠ some x := fun h => hx (hF.right b x hb h).1
  have hbp : (mem b).p ≠ some x := fun h => hx (hF.parent b x hb h).1
  unfold relink
  rw [relink_eq hF ha hb]
  ext1 <;> simp only [adopt_p, adopt_l, adopt_r, repoint_p, repoint_l, repoint_r, crossed_left,
    crossed_right hab, XHeapNode.cross, cross_eq_left, cross_eq_right, crossed_of_ne hxa hxb,
    cross_eq_of_ne hxa hxb, ne_eq, not_true_eq_false, false_and, and_false, if_false, ha₂, ha₃, hb₂, hb₃] <;>
    grind [cross]

end

/-- **`swap_nodes` makes the two nodes change places**; no assertion fails. -/
theorem swapNodes_spec (hF : Fits mem S) (ha : S a) (hb : S b) (hab : a ≠ b)
    (hsib : ∀ p, S p → (mem p).l = some b → (mem p).r ≠ some a) :
    ∃ mem', swapNodes mem a b = .ok mem' ∧ mem' a = (mem b).cross a b ∧ mem' b = (mem a).cross a b ∧
      (∀ x, S x → x ≠ a → x ≠ b → mem' x = (mem x).cross a b) ∧ ∀ x, ¬S x → mem' x = mem x := by
  obtain ⟨ha₁, ha₂, ha₃⟩ := hF.no_loop ha
  obtain ⟨hb₁, hb₂, hb₃⟩ := hF.no_loop hb
  refine ⟨relink mem a b, ?_, relink_left hF ha hb hab, relink_right hF ha hb hab,
    fun x hx hxa hxb => relink_of_ne hF ha hb hab hsib hx hxa hxb, fun x hx => relink_outside hF ha hb hab hx⟩
  have h₁ : assertNoDirectCycle mem a = .ok () := if_neg (by simp [ha₁, ha₂, ha₃])
  have h₂ : assertNoDirectCycle mem b = .ok () := if_neg (by simp [hb₁, hb₂, hb₃])
  have h₃ : assertNoDirectCycle (relink mem a b) a = .ok () := if_neg (by
    rw [relink_left hF ha hb hab]
    simp [XHeapNode.cross, cross_eq_left, hb₁, hb₂, hb₃])
  have h₄ : assertNoDirectCycle (relink mem a b) b = .ok () := if_neg (by
    rw [relink_right hF ha hb hab]
    simp [XHeapNode.cross, cross_eq_right, ha₁, ha₂, ha₃])
  simp only [swapNodes, h₁, h₂, h₃, h₄]
  rfl

/-- A node exchanged with itself stays where it is. -/
theorem swapNodes_self (hF : Fits mem S) (ha : S a) : swapNodes mem a a = .ok mem := by
  obtain ⟨ha₁, ha₂, ha₃⟩ := hF.no_loop ha
  have hl := fun c => hF.left a c ha
  have hr := fun c => hF.right a c ha
  have hp := fun c => hF.parent a c ha
  have h₀ : update (update mem a (redirectNode a a (mem a))) a (redirectNode a a (mem a)) = mem := by
    have hsame : ∀ q, redirect a a q = q := fun q => by
      unfold redirect; split_ifs with h
      · exact h.symm
      · rfl
    simp only [redirectNode, hsame, update_eq_self]
  have h : relink mem a a = mem := by
    simp only [relink, h₀]
    funext x
    ext1 <;> simp only [adopt_p, adopt_l, adopt_r, repoint_p, repoint_l, repoint_r] <;> grind
  have h₁ : assertNoDirectCycle mem a = .ok () := if_neg (by simp [ha₁, ha₂, ha₃])
  simp only [swapNodes, h, h₁]
  rfl

end Libtarp.Explicit
