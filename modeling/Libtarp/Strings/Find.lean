import Libtarp.Lib.Occurrences
import Mathlib.Algebra.Group.Nat.Defs

/-!
# Searching in strings (`string_utils.cxx`)

Strings are lists of characters. `std::string::substr`, `erase` and `find` are as the standard library has them.

* `findNeedlePositions_eq`: the positions found are those of all occurrences, also of overlapping ones.
-/

namespace Libtarp.Strings

open Lib

variable {α : Type} [DecidableEq α]

/-- `std::out_of_range`. -/
inductive Thrown
  | outOfRange
  deriving DecidableEq

/-- The difference of two values of type `size_t`, which wraps round. -/
def sizeSub (a b : ℕ) : ℕ := if b ≤ a then a - b else a + 2 ^ 64 - b

/-- `std::string::substr`. -/
def substr (s : List α) (pos count : ℕ) : Except Thrown (List α) :=
  if s.length < pos then .error .outOfRange else .ok ((s.drop pos).take count)

/-- `std::string::erase`. -/
def erase (s : List α) (pos count : ℕ) : Except Thrown (List α) :=
  if s.length < pos then .error .outOfRange else .ok (s.take pos ++ s.drop (pos + count))

/-- `std::string::find`. -/
def find (haystack needle : List α) (idx : ℕ) : Option ℕ :=
  (List.range' idx (haystack.length + 1 - idx)).find? fun pos => needle.isPrefixOf (haystack.drop pos)

/-- The loop of `find_needle_positions`. -/
def findNeedleLoop (haystack needle : List α) : ℕ → ℕ → List ℕ → List ℕ
  | 0, _, needlePositions => needlePositions
  | fuel + 1, idx, needlePositions =>
    if idx < haystack.length then
      match find haystack needle idx with
      | none => needlePositions
      | some pos => findNeedleLoop haystack needle fuel (pos + 1) (needlePositions ++ [pos])
    else needlePositions

/-- `find_needle_positions`. Every round starts behind the position found before, so there is one for every character
at most. -/
def findNeedlePositions (haystack needle : List α) : List ℕ :=
  if needle = [] then [] else findNeedleLoop haystack needle haystack.length 0 []

variable {haystack needle : List α}

theorem sizeSub_of_le {a b : ℕ} (h : b ≤ a) : sizeSub a b = a - b := if_pos h

omit [DecidableEq α] in
theorem substr_ok {s : List α} {pos : ℕ} (h : pos ≤ s.length) (count : ℕ) :
    substr s pos count = .ok ((s.drop pos).take count) := if_neg (Nat.not_lt.2 h)

/-- An occurrence where the search begins is found. -/
theorem find_here {idx : ℕ} (hidx : idx < haystack.length) (h : needle.isPrefixOf (haystack.drop idx) = true) :
    find haystack needle idx = some idx := by
  have hsucc : haystack.length + 1 - idx = haystack.length - idx + 1 := by omega
  unfold find
  rw [hsucc, List.range'_succ]
  simp only [List.find?_cons, h]

/-- Otherwise it goes on. -/
theorem find_next {idx : ℕ} (hidx : idx < haystack.length) (h : needle.isPrefixOf (haystack.drop idx) = false) :
    find haystack needle idx = find haystack needle (idx + 1) := by
  have hsucc : haystack.length + 1 - idx = haystack.length + 1 - (idx + 1) + 1 := by omega
  unfold find
  rw [hsucc, List.range'_succ]
  simp only [List.find?_cons, h]

/-- No list that is not empty occurs at the end. -/
theorem find_end (hneedle : needle ≠ []) : find haystack needle haystack.length = none := by
  unfold find
  rw [Nat.add_sub_cancel_left, List.find?_eq_none]
  intro pos hpos hprefix
  obtain rfl : pos = haystack.length := List.mem_singleton.1 hpos
  rw [List.drop_length] at hprefix
  exact hneedle (List.prefix_nil.1 (List.isPrefixOf_iff_prefix.1 hprefix))

/-- What the loop finds from `idx` on. -/
theorem findNeedleLoop_eq (hneedle : needle ≠ []) {rest fuel idx : ℕ} (hrest : idx + rest = haystack.length)
    (hfuel : rest ≤ fuel) (found : List ℕ) :
    findNeedleLoop haystack needle fuel idx found =
      found ++ (List.range' idx rest).filter fun i => needle.isPrefixOf (haystack.drop i) := by
  induction rest generalizing fuel idx found with
  | zero =>
    have hend : ¬idx < haystack.length := by omega
    rw [List.range'_zero, List.filter_nil, List.append_nil]
    cases fuel with
    | zero => rfl
    | succ fuel => exact if_neg hend
  | succ rest ih =>
    obtain ⟨fuel, rfl⟩ : ∃ k, fuel = k + 1 := ⟨fuel - 1, by omega⟩
    have hidx : idx < haystack.length := by omega
    cases hocc : needle.isPrefixOf (haystack.drop idx) with
    | true =>
      rw [findNeedleLoop, if_pos hidx, find_here hidx hocc]
      dsimp only
      rw [ih (by omega) (by omega)]
      simp only [List.range'_succ, List.filter_cons, hocc, if_true, List.append_assoc, List.singleton_append]
    | false =>
      have hlater := @ih (fuel + 1) (idx + 1) (by omega) (by omega) found
      simp only [List.range'_succ, List.filter_cons, hocc, Bool.false_eq_true, if_false]
      rw [← hlater, findNeedleLoop, if_pos hidx, find_next hidx hocc, findNeedleLoop]
      split_ifs with hnext
      · rfl
      · have hend : idx + 1 = haystack.length := by omega
        rw [hend, find_end hneedle]

/-- **All occurrences are found**, in order. -/
theorem findNeedlePositions_eq (hneedle : needle ≠ []) :
    findNeedlePositions haystack needle = occurrences needle haystack := by
  unfold findNeedlePositions occurrences
  rw [if_neg hneedle, findNeedleLoop_eq hneedle (Nat.zero_add _) le_rfl, List.nil_append, List.range_eq_range']

end Libtarp.Strings
