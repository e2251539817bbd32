import Libtarp.Strings.Strip

/-!
# Booleans in strings (`string_utils.cxx`)

`to_boolean` makes room for the stripped string, and then writes all of the string into it.

* `transformInto_ok`, `transformInto_beyond`: what is written, and that more than there is room for is written beyond it.
* `boolean_iff`: it is right for a string of blanks, and for one that blanks do not surround.
-/

namespace Libtarp.Strings

open Lib

/-- `std::transform`, from a string to the place `i` of `out` on. -/
def transformInto (f : Char → Char) : List Char → ℕ → List Char → Except Failure (List Char)
  | [], _, out => .ok out
  | c :: cs, i, out => if i < out.length then transformInto f cs (i + 1) (out.set i (f c)) else .error (.outOfBounds i)

/-- `to_boolean`. -/
def toBoolean (s : List Char) : Except Failure (Option Bool) :=
  match strip s none with
  | .error e => .error (.thrown e)
  | .ok input =>
    if input = [] then .ok none
    else
      match transformInto Char.toLower s 0 input with
      | .error e => .error e
      | .ok input =>
        if input = "true".toList ∨ input = "1".toList then .ok (some true)
        else if input = "false".toList ∨ input = "0".toList then .ok (some false)
        else .ok none

/-- `is_boolean`. -/
def isBoolean (s : List Char) : Except Failure Bool := (toBoolean s).map Option.isSome

/-- The boolean that a text in lower case stands for. -/
def booleanOf (text : List Char) : Option Bool :=
  if text = "true".toList ∨ text = "1".toList then some true
  else if text = "false".toList ∨ text = "0".toList then some false
  else none

/-- What is returned depends on the stripped string in lower case, and nothing is written elsewhere. -/
structure BooleanRight (s : List Char) : Prop where
  value : toBoolean s = .ok (booleanOf ((trimmed isSpace s).map Char.toLower))
  known : isBoolean s = .ok (booleanOf ((trimmed isSpace s).map Char.toLower)).isSome

variable {f : Char → Char} {s out : List Char} {i : ℕ}

/-- What is written takes the place of as many characters. -/
theorem transformInto_ok (h : i + s.length ≤ out.length) :
    transformInto f s i out = .ok (out.take i ++ s.map f ++ out.drop (i + s.length)) := by
  induction s generalizing i out with
  | nil =>
    rw [List.map_nil, List.append_nil]
    exact congrArg Except.ok (List.take_append_drop i out).symm
  | cons c cs ih =>
    rw [List.length_cons] at h
    have hi : i < out.length := by omega
    have hroom : i + 1 + cs.length ≤ (out.set i (f c)).length := by
      rw [List.length_set]
      omega
    have hfront : (out.set i (f c)).take (i + 1) = out.take i ++ [f c] := by
      rw [List.take_add_one, List.take_set_of_le (Nat.le_refl i), List.getElem?_set_self hi]
      rfl
    have hrest : (out.set i (f c)).drop (i + 1 + cs.length) = out.drop (i + (c :: cs).length) := by
      rw [List.drop_set_of_lt (by omega), List.length_cons, Nat.add_assoc, Nat.add_comm 1]
    unfold transformInto
    rw [if_pos hi, ih hroom, hfront, hrest, List.append_assoc (out.take i), List.map_cons]
    rfl

/-- There is no room for more characters than the string has. -/
theorem transformInto_beyond (hi : i ≤ out.length) (h : out.length < i + s.length) :
    transformInto f s i out = .error (.outOfBounds out.length) := by
  induction s generalizing i out with
  | nil =>
    rw [List.length_nil] at h
    omega
  | cons c cs ih =>
    rw [List.length_cons] at h
    unfold transformInto
    by_cases hlt : i < out.length
    · have hset : (out.set i (f c)).length = out.length := List.length_set
      rw [if_pos hlt, ih (by omega) (by omega), hset]
    · obtain rfl : i = out.length := by omega
      rw [if_neg hlt]

/-- `to_boolean`, by the stripped string. -/
theorem toBoolean_eq (s : List Char) : toBoolean s =
    if trimmed isSpace s = [] then .ok none
    else (transformInto Char.toLower s 0 (trimmed isSpace s)).map booleanOf := by
  have hstrips : strips none = isSpace := rfl
  unfold toBoolean
  rw [strip_eq, hstrips]
  dsimp only
  split_ifs with hnil
  · rfl
  · cases transformInto Char.toLower s 0 (trimmed isSpace s) with
    | error e => rfl
    | ok input =>
      unfold booleanOf
      dsimp only [Except.map]
      split_ifs <;> rfl

theorem toBoolean_blank (hblank : ∀ c ∈ s, isSpace c = true) : toBoolean s = .ok none := by
  rw [toBoolean_eq, if_pos (trimmed_eq_nil_iff.2 hblank)]

/-- A string that blanks do not surround. -/
theorem toBoolean_trimmed (hself : trimmed isSpace s = s) : toBoolean s = .ok (booleanOf (s.map Char.toLower)) := by
  rw [toBoolean_eq, hself]
  split_ifs with hnil
  · rw [hnil]
    rfl
  · rw [transformInto_ok (Nat.zero_add _).le, List.take_zero, Nat.zero_add, List.drop_length, List.nil_append,
      List.append_nil]
    rfl

/-- Of a string with blanks around it more is written than there is room for. -/
theorem toBoolean_beyond (hnil : trimmed isSpace s ≠ []) (hself : trimmed isSpace s ≠ s) :
    toBoolean s = .error (.outOfBounds (trimmed isSpace s).length) := by
  have hlt : (trimmed isSpace s).length < s.length := by
    obtain ⟨pre, post, hs, -⟩ := trimmed_split isSpace s
    have hlength := congrArg List.length hs
    rw [List.length_append, List.length_append] at hlength
    by_contra hge
    have hpre : pre = [] := List.eq_nil_of_length_eq_zero (by omega)
    have hpost : post = [] := List.eq_nil_of_length_eq_zero (by omega)
    rw [hpre, hpost, List.nil_append, List.append_nil] at hs
    exact hself hs.symm
  rw [toBoolean_eq, if_neg hnil, transformInto_beyond (Nat.zero_le _) (by omega)]
  rfl

/-- **`to_boolean` is right** for a string of blanks only, and for one that no blanks surround. -/
theorem boolean_iff (s : List Char) : BooleanRight s ↔ (∀ c ∈ s, isSpace c = true) ∨
    (∀ c ∈ s.head?, isSpace c = false) ∧ ∀ c ∈ s.getLast?, isSpace c = false := by
  rw [← trimmed_eq_nil_iff, ← trimmed_eq_self_iff]
  constructor
  · intro hright
    by_contra hnot
    obtain ⟨hnil, hself⟩ := not_or.1 hnot
    exact absurd ((toBoolean_beyond hnil hself).symm.trans hright.value) nofun
  · intro h
    have hvalue : toBoolean s = .ok (booleanOf ((trimmed isSpace s).map Char.toLower)) := by
      rcases h with hnil | hself
      · rw [toBoolean_blank (trimmed_eq_nil_iff.1 hnil), hnil]
        rfl
      · rw [toBoolean_trimmed hself, hself]
    refine ⟨hvalue, ?_⟩
    unfold isBoolean
    rw [hvalue]
    rfl

/-- A blank in front: of five characters the last is written behind the four that there is room for. -/
theorem blank_in_front : toBoolean " true".toList = .error (.outOfBounds 4) ∧ ¬BooleanRight " true".toList := by
  have hbeyond : toBoolean " true".toList = .error (.outOfBounds 4) := by decide +kernel
  exact ⟨hbeyond, fun hright => absurd (hbeyond.symm.trans hright.value) nofun⟩

end Libtarp.Strings
