import Mathlib.Data.List.Nodup
import Mathlib.Tactic.Common

/-!
# What a stable sort keeps

`mergeSort_stable`: the sorted list is in order, and of items that the order does not tell apart the one that came
first still comes first.
-/

namespace Libtarp.Lib

variable {α : Type*} {l : List α} {a b : α}

/-- Of two items one comes first. -/
theorem pair_sublist (ha : a ∈ l) (hb : b ∈ l) (hne : a ≠ b) : [a, b].Sublist l ∨ [b, a].Sublist l := by
  obtain ⟨s, t, rfl⟩ := List.append_of_mem ha
  rcases List.mem_append.1 hb with hs | ht
  · refine .inr ?_
    have h : ([b] ++ [a]).Sublist (s ++ a :: t) :=
      (List.singleton_sublist.2 hs).append (List.singleton_sublist.2 List.mem_cons_self)
    exact h
  · refine .inl ?_
    have hmem : b ∈ t := (List.mem_cons.1 ht).resolve_left (Ne.symm hne)
    exact ((List.singleton_sublist.2 hmem).cons_cons a).trans (List.sublist_append_right ..)

/-- And only one. -/
theorem not_pair_sublist (hnodup : l.Nodup) (h : [a, b].Sublist l) : ¬[b, a].Sublist l := by
  intro h'
  induction l with
  | nil => cases h
  | cons c l ih =>
    obtain ⟨hc, hl⟩ := List.nodup_cons.1 hnodup
    have hmem : ∀ {x y : α}, [x, y].Sublist l → x ∈ l ∧ y ∈ l := by
      intro x y hxy
      exact ⟨hxy.subset List.mem_cons_self, hxy.subset (List.mem_cons_of_mem _ List.mem_cons_self)⟩
    cases h with
    | cons _ h =>
      cases h' with
      | cons _ h' => exact ih hl h h'
      | cons_cons _ _ => exact hc (hmem h).2
    | cons_cons _ h =>
      cases h' with
      | cons _ h' => exact hc (hmem h').2
      | cons_cons _ h' => exact hc (List.singleton_sublist.1 h)

variable {le : α → α → Bool} {S : α → α → Prop}

/-- **A stable sort** keeps the order of the items that it does not tell apart. -/
theorem mergeSort_stable (trans : ∀ a b c, le a b → le b c → le a c) (total : ∀ a b, le a b || le b a)
    (irrefl : ∀ a, ¬S a a) (h : l.Pairwise S) :
    (l.mergeSort le).Pairwise fun a b => le a b ∧ (le b a → S a b) := by
  have hnodup : l.Nodup := by
    apply h.imp
    rintro a _ hab rfl
    exact irrefl a hab
  have hsorted := List.pairwise_mergeSort trans total l
  have hnodup' : (l.mergeSort le).Nodup := (List.mergeSort_perm l le).nodup_iff.2 hnodup
  rw [List.pairwise_iff_forall_sublist] at h hsorted ⊢
  intro a b hab
  refine ⟨hsorted hab, ?_⟩
  intro hba
  have ha : a ∈ l := List.mem_mergeSort.1 (hab.subset List.mem_cons_self)
  have hb : b ∈ l := List.mem_mergeSort.1 (hab.subset (List.mem_cons_of_mem _ List.mem_cons_self))
  have hne : a ≠ b := (List.pairwise_iff_forall_sublist.1 hnodup') hab
  rcases pair_sublist ha hb hne with hfirst | hlast
  · exact h hfirst
  · -- the sort would not have exchanged them
    exact absurd (List.pair_sublist_mergeSort trans total hba hlast) (not_pair_sublist hnodup' hab)

end Libtarp.Lib
