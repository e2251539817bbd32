import Mathlib.Data.List.Basic
import Mathlib.Data.List.InsertIdx
import Mathlib.Data.List.Nodup
import Mathlib.Tactic.Common

/-!
# Places in a list

A list split at one of its members, and what is done there by index: `idxOf`, `insertIdx` and `set` at the length of
what comes before. Two members, and the one directly before another. A list rotated keeps its length.
-/

namespace Libtarp.Lib

variable {α : Type*}

theorem idxOf_split [DecidableEq α] {l₁ l₂ : List α} {a : α} (ha : a ∉ l₁) : (l₁ ++ a :: l₂).idxOf a = l₁.length := by
  rw [List.idxOf_append, if_neg ha, List.idxOf_cons_self, Nat.zero_add]

theorem insertIdx_split (l₁ l₂ : List α) (b : α) : (l₁ ++ l₂).insertIdx l₁.length b = l₁ ++ b :: l₂ := by
  induction l₁ with
  | nil => exact List.insertIdx_zero
  | cons a l₁ ih => rw [List.cons_append, List.length_cons, List.insertIdx_succ_cons, ih, List.cons_append]

theorem set_split (l₁ l₂ : List α) (a b : α) : (l₁ ++ a :: l₂).set l₁.length b = l₁ ++ b :: l₂ := by
  rw [List.set_append_right _ _ (Nat.le_refl _), Nat.sub_self, List.set_cons_zero]

/-- A member of a sequence without repetitions. -/
theorem split_of_mem {l : List α} {a : α} (hn : l.Nodup) (ha : a ∈ l) : ∃ l₁ l₂, l = l₁ ++ a :: l₂ ∧ a ∉ l₁ := by
  obtain ⟨l₁, l₂, rfl⟩ := List.append_of_mem ha
  exact ⟨l₁, l₂, rfl, fun hm => (List.nodup_append.1 hn).2.2 a hm a (List.mem_cons_self ..) rfl⟩

/-- One of two members comes before the other. -/
theorem split_of_mem_mem {l : List α} {a b : α} (ha : a ∈ l) (hb : b ∈ l) (hab : a ≠ b) :
    (∃ l₁ l₂ l₃, l = l₁ ++ a :: (l₂ ++ b :: l₃)) ∨ ∃ l₁ l₂ l₃, l = l₁ ++ b :: (l₂ ++ a :: l₃) := by
  obtain ⟨u, v, rfl⟩ := List.append_of_mem ha
  rcases List.mem_append.1 hb with hb | hb
  · obtain ⟨u, w, rfl⟩ := List.append_of_mem hb
    exact Or.inr ⟨u, w, v, by rw [List.append_assoc, List.cons_append]⟩
  · obtain ⟨w, v, rfl⟩ := List.append_of_mem ((List.mem_cons.1 hb).resolve_left hab.symm)
    exact Or.inl ⟨u, w, v, rfl⟩

/-- A member directly before another one. -/
theorem pair_infix_iff {l₁ l₂ : List α} {a b : α} (hn : (l₁ ++ a :: l₂).Nodup) :
    [b, a] <:+: l₁ ++ a :: l₂ ↔ l₁.getLast? = some b := by
  have ha₁ : a ∉ l₁ := fun hm => (List.nodup_append.1 hn).2.2 a hm a List.mem_cons_self rfl
  have ha₂ : a ∉ l₂ := (List.nodup_cons.1 (List.nodup_append.1 hn).2.1).1
  constructor
  · rintro ⟨u, v, heq⟩
    have hsplit : l₁ ++ a :: l₂ = u ++ [b] ++ a :: v := by
      rw [← heq, List.append_assoc, List.append_assoc]
      rfl
    obtain ⟨rfl, -, -⟩ := (List.append_cons_inj_of_notMem ha₁ ha₂).1 hsplit
    exact List.getLast?_concat
  · intro hlast
    obtain ⟨u, rfl⟩ := List.getLast?_eq_some_iff.1 hlast
    exact ⟨u, l₂, by simp⟩

theorem length_rotateLeft (l : List α) (n : ℕ) : (l.rotateLeft n).length = l.length := by
  unfold List.rotateLeft
  dsimp only
  split_ifs
  · rfl
  · rw [List.length_append, Nat.add_comm, ← List.length_append, List.take_append_drop]

theorem length_rotateRight (l : List α) (n : ℕ) : (l.rotateRight n).length = l.length := by
  unfold List.rotateRight
  dsimp only
  split_ifs
  · rfl
  · rw [List.length_append, Nat.add_comm, ← List.length_append, List.take_append_drop]

end Libtarp.Lib
