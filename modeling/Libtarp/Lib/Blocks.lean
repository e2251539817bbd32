import Mathlib.Data.List.Basic
import Mathlib.Tactic.Common

/-!
# Lists cut into blocks

* `blocks n xs`: the full blocks of `n` elements, and `rest n xs`, what follows the last of them.
* `blocks_induction`: a list is short, or a block in front of another list.
* `blocks_append`, `rest_append`: a stream in two pieces is cut like the first piece, and then
  what was left of it with the second.
* `Absorbed`: a state that takes a stream in block by block, and what it has not yet taken in.
-/

namespace Libtarp.Lib

variable {α : Type*} {n : ℕ} {xs : List α}

def blocks (n : ℕ) (xs : List α) : List (List α) :=
  if _h : 0 < n ∧ n ≤ xs.length then xs.take n :: blocks n (xs.drop n) else []
termination_by xs.length
decreasing_by
  rw [List.length_drop]
  omega

def rest (n : ℕ) (xs : List α) : List α := xs.drop (xs.length / n * n)

theorem blocks_induction (hn : 0 < n) {P : List α → Prop} (short : ∀ xs, xs.length < n → P xs)
    (step : ∀ b xs, b.length = n → P xs → P (b ++ xs)) (xs : List α) : P xs := by
  rcases Nat.lt_or_ge xs.length n with h | h
  · exact short xs h
  · have ih := blocks_induction hn short step (xs.drop n)
    have hb := step (xs.take n) (xs.drop n) (List.length_take_of_le h) ih
    rwa [List.take_append_drop] at hb
termination_by xs.length
decreasing_by
  rw [List.length_drop]
  omega

theorem blocks_short (h : xs.length < n) : blocks n xs = [] := by
  rw [blocks, dif_neg (by omega)]

theorem blocks_block (hn : 0 < n) {b : List α} (hb : b.length = n) : blocks n (b ++ xs) = b :: blocks n xs := by
  rw [blocks, dif_pos ⟨hn, by rw [List.length_append]; omega⟩, ← hb, List.take_left, List.drop_left]

theorem rest_short (h : xs.length < n) : rest n xs = xs := by
  unfold rest
  rw [Nat.div_eq_of_lt h, Nat.zero_mul, List.drop_zero]

theorem rest_block (hn : 0 < n) {b : List α} (hb : b.length = n) : rest n (b ++ xs) = rest n xs := by
  unfold rest
  rw [List.length_append, hb, Nat.add_div_left _ hn, Nat.succ_mul, Nat.add_comm, ← List.drop_drop, ← hb,
    List.drop_left]

theorem blocks_nil (hn : 0 < n) : blocks n ([] : List α) = [] := blocks_short hn

theorem rest_nil (n : ℕ) : rest n ([] : List α) = [] := List.drop_nil

/-- A list that is one block. -/
theorem blocks_exact (hn : 0 < n) (h : xs.length = n) : blocks n xs = [xs] := by
  have hb : blocks n (xs ++ []) = xs :: blocks n [] := blocks_block hn h
  rwa [List.append_nil, blocks_nil hn] at hb

theorem rest_exact (hn : 0 < n) (h : xs.length = n) : rest n xs = [] := by
  rw [← List.append_nil xs, rest_block hn h, rest_nil]

theorem rest_length (n : ℕ) (xs : List α) : (rest n xs).length = xs.length % n := by
  unfold rest
  rw [List.length_drop, Nat.mod_eq_sub_div_mul]

theorem rest_length_lt (hn : 0 < n) (xs : List α) : (rest n xs).length < n := by
  rw [rest_length]
  exact Nat.mod_lt _ hn

/-- **A stream in two pieces.** -/
theorem blocks_append (hn : 0 < n) (xs ys : List α) :
    blocks n (xs ++ ys) = blocks n xs ++ blocks n (rest n xs ++ ys) := by
  refine blocks_induction hn (P := fun xs => blocks n (xs ++ ys) = blocks n xs ++ blocks n (rest n xs ++ ys)) ?_ ?_ xs
  · intro xs h
    rw [blocks_short h, rest_short h, List.nil_append]
  · intro b xs hb ih
    rw [List.append_assoc, blocks_block hn hb, ih, blocks_block hn hb, rest_block hn hb, List.cons_append]

theorem rest_append (hn : 0 < n) (xs ys : List α) : rest n (xs ++ ys) = rest n (rest n xs ++ ys) := by
  refine blocks_induction hn (P := fun xs => rest n (xs ++ ys) = rest n (rest n xs ++ ys)) ?_ ?_ xs
  · intro xs h
    rw [rest_short h]
  · intro b xs hb ih
    rw [List.append_assoc, rest_block hn hb, ih, rest_block hn hb]

/-! ## Streams taken in block by block -/

/-- The state after the blocks of `xs`, and what is left of `xs`. -/
structure Absorbed {σ : Type*} (n : ℕ) (take : σ → List α → σ) (start : σ) (xs : List α) (s : σ) (part : List α) :
    Prop where
  state : s = (blocks n xs).foldl take start
  part : part = rest n xs

section Absorbed

variable {σ : Type*} {take : σ → List α → σ} {start s : σ} {part ys : List α}

theorem absorbed_nil (hn : 0 < n) : Absorbed n take start [] start [] :=
  ⟨by rw [blocks_nil hn, List.foldl_nil], (rest_nil n).symm⟩

theorem Absorbed.length (h : Absorbed n take start xs s part) : part.length = xs.length % n := by
  rw [h.part, rest_length]

/-- More of a block that is not yet full. -/
theorem Absorbed.short (h : Absorbed n take start xs s part) (hn : 0 < n) (hlt : (part ++ ys).length < n) :
    Absorbed n take start (xs ++ ys) s (part ++ ys) := by
  constructor
  · rw [blocks_append hn, ← h.part, blocks_short hlt, List.append_nil]
    exact h.state
  · rw [rest_append hn, ← h.part, rest_short hlt]

/-- What fills a block up. -/
theorem Absorbed.block (h : Absorbed n take start xs s part) (hn : 0 < n) (hlen : (part ++ ys).length = n) :
    Absorbed n take start (xs ++ ys) (take s (part ++ ys)) [] := by
  constructor
  · rw [blocks_append hn, ← h.part, blocks_exact hn hlen, List.foldl_append, ← h.state]
    rfl
  · rw [rest_append hn, ← h.part, rest_exact hn hlen]

end Absorbed

end Libtarp.Lib
