import Mathlib.Data.List.Basic
import Mathlib.Order.Nat
import Mathlib.Tactic.Common

/-!
# Occurrences of one list in another

* `occurrences`: all the places where a list occurs, also those that overlap.
* `Apart`: no two of them overlap. `leftmost`: the first, the next that does not overlap it, and so on.
* `splice`: a list with what is at some places replaced.
* `splice_length`: how long that is, where the places do not overlap.
* `Separated`: digits with copies of a separator.
-/

namespace Libtarp.Lib

variable {α : Type*} [DecidableEq α] {pat s : List α} {i len n : ℕ} {ps qs : List ℕ}

/-- The places where `pat` occurs in `s`, in order. -/
def occurrences (pat s : List α) : List ℕ := (List.range s.length).filter fun i => pat.isPrefixOf (s.drop i)

theorem mem_occurrences : i ∈ occurrences pat s ↔ i < s.length ∧ pat <+: s.drop i := by
  unfold occurrences
  rw [List.mem_filter, List.mem_range, List.isPrefixOf_iff_prefix]

theorem occurrences_sorted (pat s : List α) : (occurrences pat s).Pairwise (· < ·) :=
  List.pairwise_lt_range.filter _

theorem add_le_of_mem (h : i ∈ occurrences pat s) : i + pat.length ≤ s.length := by
  obtain ⟨hi, hprefix⟩ := mem_occurrences.1 h
  have hle := hprefix.length_le
  rw [List.length_drop] at hle
  omega

/-- A list that is not empty occurs where it is an infix. -/
theorem occurrences_eq_nil_iff (hpat : pat ≠ []) : occurrences pat s = [] ↔ ¬pat <:+: s := by
  rw [List.eq_nil_iff_forall_not_mem, ← not_exists, not_iff_not]
  constructor
  · rintro ⟨i, hi⟩
    obtain ⟨-, hprefix⟩ := mem_occurrences.1 hi
    exact hprefix.isInfix.trans (List.drop_suffix i s).isInfix
  · rintro ⟨before, rest, rfl⟩
    have hpos := List.length_pos_iff.2 hpat
    refine ⟨before.length, mem_occurrences.2 ⟨?_, ?_⟩⟩
    · simp only [List.length_append]
      omega
    · rw [List.append_assoc, List.drop_left]
      exact List.prefix_append ..

/-- A list that is not empty is a suffix where its last occurrence ends. -/
theorem suffix_iff_mem (hpat : pat ≠ []) : pat <:+ s ↔ ∃ i ∈ occurrences pat s, i + pat.length = s.length := by
  have hpos := List.length_pos_iff.2 hpat
  constructor
  · rintro ⟨before, rfl⟩
    refine ⟨before.length, mem_occurrences.2 ⟨?_, ?_⟩, List.length_append.symm⟩
    · rw [List.length_append]
      omega
    · exact ⟨[], (List.append_nil _).trans List.drop_left.symm⟩
  · rintro ⟨i, hi, hend⟩
    obtain ⟨-, hprefix⟩ := mem_occurrences.1 hi
    have hlength : pat.length = (s.drop i).length := by
      rw [List.length_drop]
      omega
    rw [List.IsPrefix.eq_of_length hprefix hlength]
    exact List.drop_suffix i s

/-- What occurs in a part of a list occurs in the list, in the place of that part. -/
theorem exists_mem_of_infix_part (hpat : pat ≠ []) {start stop : ℕ} (h : pat <:+: (s.take stop).drop start) :
    ∃ i ∈ occurrences pat s, start ≤ i ∧ i < stop := by
  obtain ⟨j, hj⟩ := List.exists_mem_of_ne_nil _ (mt (occurrences_eq_nil_iff hpat).1 (not_not.2 h))
  obtain ⟨hlt, hprefix⟩ := mem_occurrences.1 hj
  rw [List.length_drop, List.length_take] at hlt
  rw [List.drop_drop, List.drop_take] at hprefix
  exact ⟨start + j, mem_occurrences.2 ⟨by omega, hprefix.trans (List.take_prefix ..)⟩, by omega, by omega⟩

/-! ## Places that do not overlap -/

/-- No two of the places are less than `len` apart. -/
def Apart (len : ℕ) (ps : List ℕ) : Prop := ps.Pairwise (· + len ≤ ·)

instance : Decidable (Apart len ps) := inferInstanceAs (Decidable (ps.Pairwise _))

/-- From the left, every place from `start` on that does not overlap the one taken before. -/
def select (len : ℕ) : ℕ → List ℕ → List ℕ
  | _, [] => []
  | start, p :: ps => if start ≤ p then p :: select len (p + len) ps else select len start ps

/-- The leftmost occurrences that do not overlap. -/
def leftmost (pat s : List α) : List ℕ := select pat.length 0 (occurrences pat s)

theorem select_length (len start : ℕ) (ps : List ℕ) : (select len start ps).length ≤ ps.length := by
  induction ps generalizing start with
  | nil => exact le_rfl
  | cons p ps ih =>
    unfold select
    split_ifs
    · exact Nat.succ_le_succ (ih _)
    · exact (ih _).trans (Nat.le_succ _)

/-- As long as none overlap all are taken. -/
theorem take_select_of_apart {start k : ℕ} (hstart : ∀ p ∈ ps.take k, start ≤ p) (h : Apart len (ps.take k)) :
    (select len start ps).take k = ps.take k := by
  induction ps generalizing start k with
  | nil => rfl
  | cons p ps ih =>
    cases k with
    | zero => rw [List.take_zero, List.take_zero]
    | succ k =>
      rw [List.take_succ_cons] at hstart h
      obtain ⟨hp, hps⟩ := List.pairwise_cons.1 h
      unfold select
      rw [if_pos (hstart p List.mem_cons_self), List.take_succ_cons, List.take_succ_cons, ih hp hps]

theorem take_leftmost_of_apart {k : ℕ} (h : Apart pat.length ((occurrences pat s).take k)) :
    (leftmost pat s).take k = (occurrences pat s).take k :=
  take_select_of_apart (fun _ _ => Nat.zero_le _) h

/-- Only those are all taken that do not overlap. -/
theorem select_lt_of_not_apart {start : ℕ} (hsorted : ps.Pairwise (· < ·)) (h : ¬Apart len ps) :
    (select len start ps).length < ps.length := by
  induction ps generalizing start with
  | nil => exact absurd List.Pairwise.nil h
  | cons p ps ih =>
    obtain ⟨hp, hps⟩ := List.pairwise_cons.1 hsorted
    unfold select
    split_ifs with hle
    · rw [List.length_cons, List.length_cons, Nat.succ_lt_succ_iff]
      by_cases hrest : Apart len ps
      · -- it is the first that overlaps one of the others, and that is the next
        cases ps with
        | nil => exact absurd (List.pairwise_singleton ..) h
        | cons q qs =>
          have hq : ¬p + len ≤ q := by
            intro hq
            refine h (List.pairwise_cons.2 ⟨fun r hr => ?_, hrest⟩)
            rcases List.mem_cons.1 hr with rfl | hr
            · exact hq
            · exact hq.trans ((List.pairwise_cons.1 hps).1 r hr).le
          unfold select
          rw [if_neg hq]
          exact Nat.lt_succ_of_le (select_length ..)
      · exact ih hps hrest
    · exact Nat.lt_succ_of_le (select_length ..)

/-- Places from `start` on, apart, with room for `len` up to `n`. -/
def Spaced (len n : ℕ) : ℕ → List ℕ → Prop
  | start, [] => start ≤ n
  | start, p :: ps => start ≤ p ∧ Spaced len n (p + len) ps

theorem select_spaced {start : ℕ} (hstart : start ≤ n) (h : ∀ p ∈ ps, p + len ≤ n) :
    Spaced len n start (select len start ps) := by
  induction ps generalizing start with
  | nil => exact hstart
  | cons p ps ih =>
    obtain ⟨hp, hps⟩ := List.forall_mem_cons.1 h
    unfold select
    split_ifs with hle
    · exact ⟨hle, ih hp hps⟩
    · exact ih hstart hps

theorem leftmost_length (pat s : List α) : (leftmost pat s).length ≤ (occurrences pat s).length := select_length ..

theorem leftmost_spaced (pat s : List α) : Spaced pat.length s.length 0 (leftmost pat s) :=
  select_spaced (Nat.zero_le _) fun _ hp => add_le_of_mem hp

theorem leftmost_lt_of_not_apart (h : ¬Apart pat.length (occurrences pat s)) :
    (leftmost pat s).length < (occurrences pat s).length :=
  select_lt_of_not_apart (occurrences_sorted pat s) h

theorem Spaced.start_le {start : ℕ} (h : Spaced len n start ps) : start ≤ n := by
  induction ps generalizing start with
  | nil => exact h
  | cons p ps ih => exact h.1.trans ((Nat.le_add_right ..).trans (ih h.2))

theorem Spaced.take {start : ℕ} (h : Spaced len n start ps) (k : ℕ) : Spaced len n start (ps.take k) := by
  induction ps generalizing start k with
  | nil =>
    rw [List.take_nil]
    exact h
  | cons p ps ih =>
    cases k with
    | zero => exact h.start_le
    | succ k => exact ⟨h.1, ih h.2 k⟩

/-! ## Replacing what is there -/

/-- What is at each of the places, and `len` long, replaced by `rep`; from `start` on. -/
def splice (rep : List α) (len : ℕ) (s : List α) : ℕ → List ℕ → List α
  | start, [] => s.drop start
  | start, p :: ps => (s.take p).drop start ++ rep ++ splice rep len s (p + len) ps

omit [DecidableEq α] in
theorem splice_length (rep : List α) {start : ℕ} (h : Spaced len s.length start ps) :
    (splice rep len s start ps).length + ps.length * len + start = s.length + ps.length * rep.length := by
  induction ps generalizing start with
  | nil =>
    have hle : start ≤ s.length := h
    simp only [splice, List.length_drop, List.length_nil]
    omega
  | cons p ps ih =>
    obtain ⟨hle, hrest⟩ := h
    have hlen := ih hrest
    have hroom := hrest.start_le
    simp only [splice, List.length_append, List.length_drop, List.length_take, List.length_cons, Nat.succ_mul]
    omega

/-! ## Digits with separators

No digit occurs in the separator, so a list can be taken apart in one way only, from its front. -/

section Separated

variable {α : Type}

/-- Digits with copies of a separator before, between and after them. An empty separator stands for none. -/
inductive Separated (digit : α → Bool) (sep : List α) : List α → Prop
  | nil : Separated digit sep []
  | digit {c : α} {s : List α} (hc : digit c = true) (h : Separated digit sep s) : Separated digit sep (c :: s)
  | sep {s : List α} (hsep : sep ≠ []) (h : Separated digit sep s) : Separated digit sep (sep ++ s)

variable {digit : α → Bool} {sep s : List α} {c : α}

/-- What comes first is a digit or the separator. -/
theorem separated_cons_iff : Separated digit sep (c :: s) ↔
    digit c = true ∧ Separated digit sep s ∨ sep ≠ [] ∧ ∃ t, c :: s = sep ++ t ∧ Separated digit sep t := by
  constructor
  · intro h
    generalize hl : c :: s = l at h
    cases h with
    | nil => cases hl
    | digit hc h =>
      obtain ⟨rfl, rfl⟩ := List.cons.inj hl
      exact Or.inl ⟨hc, h⟩
    | sep hsep h => exact Or.inr ⟨hsep, _, rfl, h⟩
  · rintro (⟨hc, h⟩ | ⟨hsep, t, ht, h⟩)
    · exact Separated.digit hc h
    · rw [ht]
      exact Separated.sep hsep h

/-- Where the front is a digit it is not the separator. -/
theorem separated_digit_iff (hfree : ∀ d ∈ sep, digit d = false) (hc : digit c = true) :
    Separated digit sep (c :: s) ↔ Separated digit sep s := by
  rw [separated_cons_iff]
  constructor
  · rintro (⟨-, h⟩ | ⟨hsep, t, ht, -⟩)
    · exact h
    · obtain ⟨d, rest, rfl⟩ := List.exists_cons_of_ne_nil hsep
      obtain rfl := (List.cons.inj ht).1
      rw [hfree c List.mem_cons_self] at hc
      cases hc
  · intro h
    exact Or.inl ⟨hc, h⟩

theorem separated_sep_iff (hfree : ∀ d ∈ sep, digit d = false) (hsep : sep ≠ []) :
    Separated digit sep (sep ++ s) ↔ Separated digit sep s := by
  refine ⟨fun h => ?_, Separated.sep hsep⟩
  obtain ⟨d, rest, hd⟩ := List.exists_cons_of_ne_nil hsep
  have hfront : sep ++ s = d :: (rest ++ s) := by rw [hd, List.cons_append]
  rw [hfront, separated_cons_iff, ← hfront] at h
  obtain ⟨hdigit, -⟩ | ⟨-, t, ht, h⟩ := h
  · rw [hfree d (by rw [hd]; exact List.mem_cons_self)] at hdigit
    cases hdigit
  · rwa [List.append_cancel_left ht]

/-- No digit is in a copy of the separator. -/
theorem countP_separator (hfree : ∀ d ∈ sep, digit d = false) : (sep ++ s).countP digit = s.countP digit := by
  have hzero : sep.countP digit = 0 := by
    rw [List.countP_eq_zero]
    intro d hd
    rw [hfree d hd]
    exact Bool.false_ne_true
  rw [List.countP_append, hzero, Nat.zero_add]

end Separated

end Libtarp.Lib
