import Mathlib.Logic.Function.Basic
import Mathlib.Tactic.Common

/-!
# Cells with one owner each

A store hands out addresses that it never used before, and a cell can be given back once.
`own i` is the cell that the owner `i` answers for.

* `Owned`: every owner's cell is live, no cell has two owners and no live cell is without one.
* `Owned.alloc`, `Owned.release`, `Owned.move`: what keeps it.
* `held`: the value an owner's cell holds, and how each operation changes it.
-/

namespace Libtarp.Lib

open Function

variable {ι γ : Type*}

inductive Cell (γ : Type*) where
  | fresh
  | live (x : γ)
  | freed

structure Store (γ : Type*) where
  cells : ℕ → Cell γ
  next : ℕ

namespace Store

def empty : Store γ := ⟨fun _ => .fresh, 0⟩

def alloc (h : Store γ) (x : γ) : Store γ := ⟨update h.cells h.next (.live x), h.next + 1⟩

/-- Nothing, where the cell is not live. -/
def release (h : Store γ) (a : ℕ) : Option (Store γ) :=
  match h.cells a with
  | .live _ => some ⟨update h.cells a .freed, h.next⟩
  | _ => none

def read (h : Store γ) (a : ℕ) : Option γ :=
  match h.cells a with
  | .live x => some x
  | _ => none

variable {h h' : Store γ} {a b : ℕ} {x : γ}

theorem read_eq_some : h.read a = some x ↔ h.cells a = .live x := by
  unfold read
  cases h.cells a <;> simp

theorem read_alloc_self : (h.alloc x).read h.next = some x := by
  rw [read_eq_some]
  exact update_self ..

theorem read_alloc_of_ne (hb : b ≠ h.next) : (h.alloc x).read b = h.read b := by
  unfold read alloc
  simp only [update_of_ne hb]

theorem release_cases (hr : h.release a = some h') :
    (∃ x, h.cells a = .live x) ∧ h' = ⟨update h.cells a .freed, h.next⟩ := by
  unfold release at hr
  cases hc : h.cells a with
  | fresh => simp [hc] at hr
  | freed => simp [hc] at hr
  | live x =>
    simp only [hc, Option.some.injEq] at hr
    exact ⟨⟨x, rfl⟩, hr.symm⟩

theorem read_release_of_ne (hr : h.release a = some h') (hb : b ≠ a) : h'.read b = h.read b := by
  obtain ⟨-, rfl⟩ := release_cases hr
  unfold read
  simp only [update_of_ne hb]

end Store

/-- The live cells are those of the owners, each with one. -/
structure Owned (h : Store γ) (own : ι → Option ℕ) : Prop where
  live : ∀ i a, own i = some a → ∃ x, h.cells a = .live x
  uniq : ∀ i j a, own i = some a → own j = some a → i = j
  covered : ∀ a x, h.cells a = .live x → ∃ i, own i = some a
  beyond : ∀ a, h.cells a = .fresh ↔ h.next ≤ a

/-- The value in the cell of an owner. -/
def held (h : Store γ) (own : ι → Option ℕ) (i : ι) : Option γ := (own i).bind h.read

variable [DecidableEq ι] {h h' : Store γ} {own : ι → Option ℕ} {i j : ι} {a : ℕ} {x : γ}

omit [DecidableEq ι] in
theorem owned_empty : Owned (Store.empty : Store γ) (fun _ : ι => none) where
  live := fun i a hi => by cases hi
  uniq := fun i j a hi => by cases hi
  covered := fun a x ha => by cases ha
  beyond := fun a => ⟨fun _ => Nat.zero_le a, fun _ => rfl⟩

omit [DecidableEq ι] in
theorem Owned.read (ho : Owned h own) (hi : own i = some a) : ∃ x, h.read a = some x := by
  obtain ⟨x, hx⟩ := ho.live i a hi
  exact ⟨x, Store.read_eq_some.2 hx⟩

omit [DecidableEq ι] in
theorem Owned.ne_next (ho : Owned h own) (hi : own i = some a) : a ≠ h.next := by
  rintro rfl
  obtain ⟨x, hx⟩ := ho.live i _ hi
  have := (ho.beyond h.next).2 (Nat.le_refl _)
  rw [hx] at this
  cases this

theorem held_update (h : Store γ) (own : ι → Option ℕ) (i : ι) (o : Option ℕ) :
    held h (update own i o) = update (held h own) i (o.bind h.read) := by
  funext k
  unfold held
  by_cases hk : k = i
  · subst hk
    simp
  · simp [hk]

/-- A new cell, for an owner that has none. -/
theorem Owned.alloc (ho : Owned h own) (hi : own i = none) (x : γ) :
    Owned (h.alloc x) (update own i (some h.next)) ∧
      held (h.alloc x) (update own i (some h.next)) = update (held h own) i (some x) := by
  have hother : ∀ j a, j ≠ i → own j = some a → (h.alloc x).cells a = h.cells a := fun j a _ hj =>
    update_of_ne (ho.ne_next hj) _ _
  refine ⟨⟨fun j a hj => ?_, fun j k a hj hk => ?_, fun a y ha => ?_, fun a => ?_⟩, ?_⟩
  · by_cases hji : j = i
    · subst hji
      rw [update_self] at hj
      obtain rfl := Option.some.inj hj
      exact ⟨x, update_self ..⟩
    · rw [update_of_ne hji] at hj
      rw [hother j a hji hj]
      exact ho.live j a hj
  · by_cases hji : j = i <;> by_cases hki : k = i
    · rw [hji, hki]
    · rw [hji, update_self] at hj
      rw [update_of_ne hki] at hk
      exact absurd (Option.some.inj hj).symm (ho.ne_next hk)
    · rw [hki, update_self] at hk
      rw [update_of_ne hji] at hj
      exact absurd (Option.some.inj hk).symm (ho.ne_next hj)
    · rw [update_of_ne hji] at hj
      rw [update_of_ne hki] at hk
      exact ho.uniq j k a hj hk
  · by_cases hn : a = h.next
    · exact ⟨i, by rw [hn, update_self]⟩
    · have hlive : h.cells a = .live y := (update_of_ne hn _ _).symm.trans ha
      obtain ⟨j, hj⟩ := ho.covered a y hlive
      have hji : j ≠ i := fun hji => by simp [hji, hi] at hj
      exact ⟨j, by rwa [update_of_ne hji]⟩
  · show update h.cells h.next (.live x) a = .fresh ↔ h.next + 1 ≤ a
    by_cases hn : a = h.next
    · simp [hn]
    · rw [update_of_ne hn, ho.beyond]
      omega
  · funext j
    by_cases hji : j = i
    · subst hji
      rw [update_self]
      unfold held
      rw [update_self]
      exact Store.read_alloc_self
    · rw [update_of_ne hji]
      unfold held
      rw [update_of_ne hji]
      cases hj : own j with
      | none => rfl
      | some a => exact Store.read_alloc_of_ne (ho.ne_next hj)

/-- An owner's cell can be given back. -/
theorem Owned.release (ho : Owned h own) (hi : own i = some a) :
    ∃ h', h.release a = some h' ∧ Owned h' (update own i none) ∧
      held h' (update own i none) = update (held h own) i none := by
  obtain ⟨x, hx⟩ := ho.live i a hi
  have hne : ∀ j b, j ≠ i → own j = some b → b ≠ a := fun j b hji hj hba => hji (ho.uniq j i a (hba ▸ hj) hi)
  have hr : h.release a = some ⟨update h.cells a .freed, h.next⟩ := by
    unfold Store.release
    simp [hx]
  refine ⟨_, hr, ⟨fun j b hj => ?_, fun j k b hj hk => ?_, fun b y hb => ?_, fun b => ?_⟩, ?_⟩
  · have hji : j ≠ i := fun hji => by simp [hji] at hj
    rw [update_of_ne hji] at hj
    obtain ⟨y, hy⟩ := ho.live j b hj
    exact ⟨y, (update_of_ne (hne j b hji hj) _ _).trans hy⟩
  · have hji : j ≠ i := fun hji => by simp [hji] at hj
    have hki : k ≠ i := fun hki => by simp [hki] at hk
    rw [update_of_ne hji] at hj
    rw [update_of_ne hki] at hk
    exact ho.uniq j k b hj hk
  · have hba : b ≠ a := fun hba => by simp [hba] at hb
    obtain ⟨j, hj⟩ := ho.covered b y ((update_of_ne hba _ _).symm.trans hb)
    have hji : j ≠ i := by
      rintro rfl
      exact hba (Option.some.inj (hj.symm.trans hi))
    exact ⟨j, by rwa [update_of_ne hji]⟩
  · show update h.cells a .freed b = .fresh ↔ h.next ≤ b
    by_cases hba : b = a
    · have hnot := mt (ho.beyond a).2 (by rw [hx]; simp)
      simp [hba, hnot]
    · rw [update_of_ne hba]
      exact ho.beyond b
  · funext j
    by_cases hji : j = i
    · subst hji
      unfold held
      simp
    · rw [update_of_ne hji]
      unfold held
      rw [update_of_ne hji]
      cases hj : own j with
      | none => rfl
      | some b => exact Store.read_release_of_ne hr (hne j b hji hj)

/-- A cell goes from one owner to another that has none. -/
theorem Owned.move (ho : Owned h own) (hij : i ≠ j) (hi : own i = none) :
    Owned h (update (update own i (own j)) j none) := by
  have hown : ∀ k, update (update own i (own j)) j none k = if k = j then none else if k = i then own j else own k := by
    intro k
    by_cases hkj : k = j
    · simp [hkj]
    · by_cases hki : k = i
      · simp [hki, hij]
      · simp [hkj, hki]
  refine ⟨fun k a hk => ?_, fun k l a hk hl => ?_, fun a x ha => ?_, ho.beyond⟩
  · rw [hown] at hk
    split_ifs at hk with _ hki
    · exact ho.live j a hk
    · exact ho.live k a hk
  · rw [hown] at hk hl
    split_ifs at hk hl with _ hki _ hli
    · rw [hki, hli]
    · exact absurd (ho.uniq l j a hl hk) ‹_›
    · exact absurd (ho.uniq k j a hk hl) ‹_›
    · exact ho.uniq k l a hk hl
  · obtain ⟨k, hk⟩ := ho.covered a x ha
    by_cases hkj : k = j
    · exact ⟨i, by rw [hown, if_neg hij, if_pos rfl, ← hkj, hk]⟩
    · have hki : k ≠ i := fun hki => by simp [hki, hi] at hk
      exact ⟨k, by rw [hown, if_neg hkj, if_neg hki, hk]⟩

end Libtarp.Lib
