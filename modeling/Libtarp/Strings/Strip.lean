import Libtarp.Lib.Text
import Libtarp.Strings.Find

/-!
# Stripping strings (`string_utils.cxx`)

A slice of a string that is stripped of everything is the pair of 0 and 0. `rstrip` takes the end of it, which makes
the empty string; `lstrip` takes the start, and with it the whole string.

* `findNonmatchingSlice_eq`: the slice.
* `rstrip_eq`, `strip_eq`, `lstrip_eq`, `lstrip_all`: what is left.
* `strips_iff`: stripping is right unless `lstrip` is to strip everything.
-/

namespace Libtarp.Strings

open Lib

/-- What a call throws. -/
inductive Exception
  | outOfRange
  | invalidArgument (what : String)
  | logicError (what : String)
  deriving DecidableEq, Repr

/-- The exceptions of the standard library, among those of a call. -/
def Thrown.toException : Thrown → Exception
  | .outOfRange => .outOfRange

/-- How a call ends that does not return. -/
inductive Failure
  | thrown (e : Exception)
  /-- An access behind the last element. -/
  | outOfBounds (index : ℕ)
  deriving DecidableEq, Repr

/-- Whether a character is stripped: a blank, unless `characters` says which are. -/
def strips (characters : Option (List Char)) (c : Char) : Bool :=
  match characters with
  | none => isSpace c
  | some chars => c ∈ chars

/-- The loop from the left, at the index `i`. -/
def skipForward (strips : Char → Bool) : List Char → ℕ → ℕ
  | [], i => i
  | c :: cs, i => if strips c then skipForward strips cs (i + 1) else i

/-- The loop from the right, at the index `j`; the characters in front of it come last first. -/
def skipBackward (strips : Char → Bool) : List Char → ℤ → ℤ
  | [], j => j
  | c :: cs, j => if strips c then skipBackward strips cs (j - 1) else j

/-- `find_nonmatching_slice`. -/
def findNonmatchingSlice (input : List Char) (characters : Option (List Char)) : Except Exception (ℕ × ℕ) :=
  if input = [] then .ok (0, 0)
  else if characters = some [] then .ok (0, input.length)
  else
    let i := skipForward (strips characters) input 0
    if i ≥ input.length then .ok (0, 0)
    else
      let j := skipBackward (strips characters) input.reverse (input.length - 1)
      if j < 0 then .ok (0, 0)
      else if i > (j + 1).toNat then .error (.logicError "Bad string slice: start_index > end_index!")
      else .ok (i, (j + 1).toNat)

/-- `rstrip`. -/
def rstrip (input : List Char) (characters : Option (List Char)) : Except Exception (List Char) := do
  let (_, endi) ← findNonmatchingSlice input characters
  (substr input 0 endi).mapError Thrown.toException

/-- `lstrip`. -/
def lstrip (input : List Char) (characters : Option (List Char)) : Except Exception (List Char) := do
  let (starti, _) ← findNonmatchingSlice input characters
  (substr input starti (sizeSub input.length starti)).mapError Thrown.toException

/-- `strip`. -/
def strip (input : List Char) (characters : Option (List Char)) : Except Exception (List Char) := do
  lstrip (← rstrip input characters) characters

variable {input : List Char} {characters : Option (List Char)}

/-! ## The slice -/

theorem strips_nothing (c : Char) : strips (some []) c = false := by
  unfold strips
  exact decide_eq_false List.not_mem_nil

theorem skipForward_eq (strips : Char → Bool) (s : List Char) (i : ℕ) :
    skipForward strips s i = i + (s.takeWhile strips).length := by
  induction s generalizing i with
  | nil => rfl
  | cons c cs ih =>
    unfold skipForward
    cases hc : strips c with
    | true =>
      rw [if_pos rfl, ih, List.takeWhile_cons_of_pos hc, List.length_cons]
      omega
    | false => rw [if_neg Bool.false_ne_true, List.takeWhile_cons_of_neg (Bool.eq_false_iff.1 hc), List.length_nil, Nat.add_zero]

theorem skipBackward_eq (strips : Char → Bool) (s : List Char) (j : ℤ) :
    skipBackward strips s j = j - (s.takeWhile strips).length := by
  induction s generalizing j with
  | nil => exact (Int.sub_zero j).symm
  | cons c cs ih =>
    unfold skipBackward
    cases hc : strips c with
    | true =>
      rw [if_pos rfl, ih, List.takeWhile_cons_of_pos hc, List.length_cons]
      omega
    | false =>
      rw [if_neg Bool.false_ne_true, List.takeWhile_cons_of_neg (Bool.eq_false_iff.1 hc)]
      exact (Int.sub_zero j).symm

/-- A string that is stripped of everything. -/
theorem findNonmatchingSlice_all (hall : ∀ c ∈ input, strips characters c = true) :
    findNonmatchingSlice input characters = .ok (0, 0) := by
  unfold findNonmatchingSlice
  by_cases hinput : input = []
  · rw [if_pos hinput]
  · have hchars : characters ≠ some [] := by
      rintro rfl
      obtain ⟨c, cs, rfl⟩ := List.exists_cons_of_ne_nil hinput
      exact absurd (hall c List.mem_cons_self) (Bool.eq_false_iff.1 (strips_nothing c))
    have hwhole : input.takeWhile (strips characters) = input := List.takeWhile_eq_self_iff.2 hall
    rw [if_neg hinput, if_neg hchars]
    dsimp only
    rw [skipForward_eq, hwhole, if_pos (by omega)]

/-- A string in which something is left: what is in front of it, and what is behind it. -/
theorem findNonmatchingSlice_parts {a b w : List Char} (ha : ∀ c ∈ a, strips characters c = true)
    (hb : ∀ c ∈ b, strips characters c = true) (hw : w ≠ []) (hhead : ∀ c ∈ w.head?, strips characters c = false)
    (hlast : ∀ c ∈ w.getLast?, strips characters c = false) :
    findNonmatchingSlice (a ++ w ++ b) characters = .ok (a.length, a.length + w.length) := by
  have hlength : (a ++ w ++ b).length = a.length + w.length + b.length := by
    rw [List.length_append, List.length_append]
  have hpos := List.length_pos_iff.2 hw
  unfold findNonmatchingSlice
  rw [if_neg (List.append_ne_nil_of_left_ne_nil (List.append_ne_nil_of_right_ne_nil _ hw) _)]
  by_cases hchars : characters = some []
  · -- nothing is to be stripped
    subst hchars
    have hnone : ∀ s : List Char, (∀ c ∈ s, strips (some []) c = true) → s = [] := by
      intro s hs
      rcases s with _ | ⟨c, cs⟩
      · rfl
      · exact absurd (hs c List.mem_cons_self) (Bool.eq_false_iff.1 (strips_nothing c))
    obtain rfl := hnone a ha
    obtain rfl := hnone b hb
    rw [if_pos rfl, hlength]
    rfl
  · -- the scan from the front ends before `w`, and the one from the back after it
    have hforward : (a ++ w ++ b).takeWhile (strips characters) = a := by
      rw [List.append_assoc]
      refine takeWhile_append_stop ha fun c hc => hhead c ?_
      obtain ⟨c', cs, rfl⟩ := List.exists_cons_of_ne_nil hw
      exact hc
    have hbackward : (a ++ w ++ b).reverse.takeWhile (strips characters) = b.reverse := by
      rw [List.reverse_append]
      refine takeWhile_append_stop (fun c hc => hb c (List.mem_reverse.1 hc)) fun c hc => hlast c ?_
      rw [List.head?_reverse, List.getLast?_append_of_ne_nil _ hw] at hc
      exact hc
    rw [if_neg hchars]
    dsimp only
    rw [skipForward_eq, skipBackward_eq, hforward, hbackward, List.length_reverse, hlength, if_neg (by omega),
      if_neg (by omega), if_neg (by omega)]
    congr 2
    · omega
    · omega

/-! ## What is left -/

/-- A string is stripped of everything, or something is left between what is stripped. -/
theorem strips_cases (p : Char → Bool) (s : List Char) :
    (∀ c ∈ s, p c = true) ∨ ∃ a w b, s = a ++ w ++ b ∧ w ≠ [] ∧ (∀ c ∈ a, p c = true) ∧ (∀ c ∈ b, p c = true) ∧
      (∀ c ∈ w.head?, p c = false) ∧ ∀ c ∈ w.getLast?, p c = false := by
  by_cases hnil : trimmed p s = []
  · exact .inl (trimmed_eq_nil_iff.1 hnil)
  · obtain ⟨a, b, hs, ha, hb⟩ := trimmed_split p s
    exact .inr ⟨a, _, b, hs, hnil, ha, hb, trimmed_head p s, trimmed_last p s⟩

theorem rstrip_eq (input : List Char) (characters : Option (List Char)) :
    rstrip input characters = .ok (input.rdropWhile (strips characters)) := by
  unfold rstrip
  obtain hall | ⟨a, w, b, rfl, hw, ha, hb, hhead, hlast⟩ := strips_cases (strips characters) input
  · rw [findNonmatchingSlice_all hall, List.rdropWhile_eq_nil_iff.2 hall]
    rfl
  · have hkept : (a ++ w ++ b).rdropWhile (strips characters) = a ++ w := by
      refine rdropWhile_append_stop (fun c hc => hlast c ?_) hb
      rwa [List.getLast?_append_of_ne_nil _ hw] at hc
    rw [findNonmatchingSlice_parts ha hb hw hhead hlast, hkept]
    dsimp only [bind, Except.bind]
    rw [substr_ok (Nat.zero_le _), List.drop_zero, ← List.length_append, List.take_left]
    rfl

/-- `lstrip` is right where something is left. -/
theorem lstrip_eq (hleft : ∃ c ∈ input, strips characters c = false) :
    lstrip input characters = .ok (input.dropWhile (strips characters)) := by
  unfold lstrip
  obtain hall | ⟨a, w, b, rfl, hw, ha, hb, hhead, hlast⟩ := strips_cases (strips characters) input
  · obtain ⟨c, hc, hkept⟩ := hleft
    rw [hall c hc] at hkept
    cases hkept
  · have hkept : (a ++ w ++ b).dropWhile (strips characters) = w ++ b := by
      rw [List.append_assoc]
      refine dropWhile_append_stop ha fun c hc => hhead c ?_
      obtain ⟨c', cs, rfl⟩ := List.exists_cons_of_ne_nil hw
      exact hc
    have hle : a.length ≤ (a ++ w ++ b).length := by
      rw [List.append_assoc, List.length_append]
      omega
    rw [findNonmatchingSlice_parts ha hb hw hhead hlast, hkept]
    dsimp only [bind, Except.bind]
    rw [substr_ok hle, sizeSub_of_le hle, List.take_of_length_le (List.length_drop ..).le, List.append_assoc, List.drop_left]
    rfl

/-- Where nothing is, `lstrip` strips nothing. -/
theorem lstrip_all (hall : ∀ c ∈ input, strips characters c = true) : lstrip input characters = .ok input := by
  unfold lstrip
  rw [findNonmatchingSlice_all hall]
  dsimp only [bind, Except.bind]
  rw [substr_ok (Nat.zero_le _), sizeSub_of_le (Nat.zero_le _), List.drop_zero, Nat.sub_zero, List.take_length]
  rfl

/-- **`strip` strips both ends**, also of a string of which nothing is left. -/
theorem strip_eq (input : List Char) (characters : Option (List Char)) :
    strip input characters = .ok (trimmed (strips characters) input) := by
  unfold strip trimmed
  rw [rstrip_eq]
  dsimp only [bind, Except.bind]
  by_cases hnil : input.rdropWhile (strips characters) = []
  · rw [hnil]
    exact lstrip_all (List.forall_mem_nil _)
  · refine lstrip_eq ⟨(input.rdropWhile (strips characters)).getLast hnil, List.getLast_mem hnil, ?_⟩
    exact rdropWhile_last _ _ _ (List.getLast?_eq_some_getLast hnil)

/-- What is stripped of a string is the longest part that can be, at the start, at the end, and at both; stripping
again strips nothing, and the order of the ends does not matter. -/
structure StripsRight (input : List Char) (characters : Option (List Char)) : Prop where
  left : lstrip input characters = .ok (input.dropWhile (strips characters))
  right : rstrip input characters = .ok (input.rdropWhile (strips characters))
  both : strip input characters = .ok (trimmed (strips characters) input)
  again : (strip input characters >>= fun s => strip s characters) = strip input characters
  order : (rstrip input characters >>= fun s => lstrip s characters) =
    lstrip input characters >>= fun s => rstrip s characters

theorem strip_strip (input : List Char) (characters : Option (List Char)) :
    (strip input characters >>= fun s => strip s characters) = strip input characters := by
  rw [strip_eq]
  dsimp only [bind, Except.bind]
  rw [strip_eq, trimmed_trimmed]

/-- Stripping the end first or the start first comes to the same. -/
theorem lstrip_rstrip (input : List Char) (characters : Option (List Char)) :
    (rstrip input characters >>= fun s => lstrip s characters) =
      lstrip input characters >>= fun s => rstrip s characters := by
  have hstrip : (rstrip input characters >>= fun s => lstrip s characters) = strip input characters := rfl
  rw [hstrip, strip_eq]
  obtain hall | ⟨a, w, b, rfl, hw, ha, hb, hhead, hlast⟩ := strips_cases (strips characters) input
  · rw [lstrip_all hall]
    dsimp only [bind, Except.bind]
    rw [rstrip_eq, trimmed_eq_nil_iff.2 hall, List.rdropWhile_eq_nil_iff.2 hall]
  · obtain ⟨c, cs, rfl⟩ := List.exists_cons_of_ne_nil hw
    have hleft : ∃ x ∈ a ++ c :: cs ++ b, strips characters x = false :=
      ⟨c, List.mem_append_left _ (List.mem_append_right _ List.mem_cons_self), hhead c rfl⟩
    rw [lstrip_eq hleft, trimmed_append ha hb hhead hlast, List.append_assoc,
      dropWhile_append_stop ha (b := c :: cs ++ b) hhead]
    dsimp only [bind, Except.bind]
    rw [rstrip_eq, rdropWhile_append_stop hlast hb]

/-- **Stripping is right** unless the string is not empty and all of it is to be stripped. -/
theorem strips_iff (input : List Char) (characters : Option (List Char)) :
    StripsRight input characters ↔ input = [] ∨ ∃ c ∈ input, strips characters c = false := by
  constructor
  · intro hright
    by_contra hnone
    obtain ⟨hinput, hnone⟩ := not_or.1 hnone
    push Not at hnone
    have hall : ∀ c ∈ input, strips characters c = true := fun c hc => eq_true_of_ne_false (hnone c hc)
    -- `lstrip` is to make the empty string, and makes the input
    have hleft := (lstrip_all hall).symm.trans hright.left
    rw [List.dropWhile_eq_nil_iff.2 hall] at hleft
    exact hinput (Except.ok.inj hleft)
  · intro h
    refine ⟨?_, rstrip_eq .., strip_eq .., strip_strip .., lstrip_rstrip ..⟩
    rcases h with rfl | hleft
    · exact lstrip_all (List.forall_mem_nil _)
    · exact lstrip_eq hleft

/-- A blank: `lstrip` leaves it, where nothing is to be left. -/
theorem blank_kept : lstrip [' '] none = .ok [' '] ∧ ¬StripsRight [' '] none := by
  have hkept : lstrip [' '] none = .ok [' '] := by decide +kernel
  exact ⟨hkept, fun hright => absurd (hkept.symm.trans hright.left) (by decide +kernel)⟩

end Libtarp.Strings
