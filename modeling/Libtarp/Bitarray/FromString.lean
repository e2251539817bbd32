import Libtarp.Bitarray.Strings

/-!
# Parsing a bit array (`bitarray.c`, `Bitr_fromstring`)

The check counts the digits and accepts any sequence of digits and separators that is not empty: also one without a
digit. Such a string fails an assertion of the allocation, or is stored, with no effect, in the array that is given.

* `ParseRight`: what is asked for. `ParseSafe`: the strings and arrays for which it holds.
* `fromstring_iff`: these are all.
* `separator_asserts`: the separator alone.
-/

namespace Libtarp.Bitr

open Lib Bits

variable {a r : Bitarray} {dest : Option Bitarray} {s : List Char} {sep : Option (List Char)}

/-! ## What is asked for -/

/-- A separator that has no digits, or no separator. -/
def ProperSep (sep : Option (List Char)) : Prop := ∀ p, sep = some p → p ≠ [] ∧ NoDigits p

/-- Digits and separators, at least one digit, and not more of them than a given array has bits. -/
def Accepted (dest : Option Bitarray) (s : List Char) (sep : Option (List Char)) : Prop :=
  Separated isBit (sep.getD []) s ∧ 0 < s.countP isBit ∧ ∀ a, dest = some a → s.countP isBit ≤ a.width

/-- The digits of a string are in the first bits of an array, the last digit in bit 1. -/
structure Stored (dest : Option Bitarray) (s : List Char) (r : Bitarray) : Prop where
  bits : ∀ i, 1 ≤ i → i ≤ s.countP isBit →
    ∃ v, (digitBits s)[s.countP isBit - i]? = some v ∧ bitrGet r i = .ok (v.toNat : ℤ)
  fresh : dest = none → r.width = s.countP isBit
  rest : ∀ a, dest = some a → r.width = a.width ∧ ∀ i, s.countP isBit ≤ i → r.bit? i = a.bit? i

def ParseRight (dest : Option Bitarray) (s : List Char) (sep : Option (List Char)) : Prop :=
  (¬ Accepted dest s sep → bitrFromstring dest s sep = .ok (dest, none)) ∧
    (Accepted dest s sep → (dest = none → allocateBitarray (s.countP isBit) ≠ .ok none) →
      ∃ r, bitrFromstring dest s sep = .ok (dest.map fun _ => r, some r) ∧ Stored dest s r)

/-- How many digits an array is good for: a new one for fewer than 2³², a given one for as many as its buffer holds. -/
def Holdable (dest : Option Bitarray) (n : ℕ) : Prop :=
  match dest with
  | none => n < 2 ^ 32
  | some a => n ≤ a.width → n ≤ 8 * a.size

/-- A string that is accepted has a digit, and the buffer has room for its digits. -/
def ParseSafe (dest : Option Bitarray) (s : List Char) (sep : Option (List Char)) : Prop :=
  s ≠ [] → Separated isBit (sep.getD []) s → 0 < s.countP isBit ∧ Holdable dest (s.countP isBit)

/-! ## The digits from both ends -/

theorem countP_reverse_isBit : s.reverse.countP isBit = s.countP isBit := List.countP_reverse

theorem digitBits_reverse (s : List Char) : digitBits s.reverse = (digitBits s).reverse := by
  unfold digitBits
  rw [List.filter_reverse, List.map_reverse]

theorem digitBits_reverse_getElem? {i : ℕ} (hi : i < s.countP isBit) :
    (digitBits s.reverse)[i]? = (digitBits s)[s.countP isBit - (i + 1)]? := by
  rw [digitBits_reverse, List.getElem?_reverse (by rwa [digitBits_length]), digitBits_length]
  congr 1
  omega

/-- The digits were copied from the end of the string. -/
theorem Wrote.stored_bits (h : Wrote a r 0 (s.countP isBit) fun i => (digitBits s.reverse)[i - 0]?)
    (hwidth : s.countP isBit ≤ a.width) (i : ℕ) (h1 : 1 ≤ i) (hi : i ≤ s.countP isBit) :
    ∃ v, (digitBits s)[s.countP isBit - i]? = some v ∧ bitrGet r i = .ok (v.toNat : ℤ) := by
  obtain ⟨k, rfl⟩ := Nat.exists_eq_add_of_le' h1
  have hlt : s.countP isBit - (k + 1) < (digitBits s).length := by
    rw [digitBits_length]
    omega
  have hsome := List.getElem?_eq_getElem hlt
  refine ⟨_, hsome, ?_⟩
  rw [bitrGet_eq (by rw [h.width]; omega), h.bits, if_pos ⟨Nat.zero_le k, by omega⟩, Nat.sub_zero,
    digitBits_reverse_getElem? (by omega), hsome, Option.elim_some]

/-! ## The function on accepted strings -/

theorem allocateBitarray_ne_none (nbits : ℕ) : allocateBitarray nbits ≠ .ok none := by
  have hcap := calculateRequiredSize_le (nbits % 2 ^ 64)
  unfold allocateBitarray
  split_ifs with h0 hmax
  · intro h
    cases h
  · rw [bitrMaxcap_eq] at hmax
    omega
  · intro h
    cases Except.ok.inj h

theorem bitrFromstring_invalid (h : isValidBitstring s sep = none) : bitrFromstring dest s sep = .ok (dest, none) := by
  unfold bitrFromstring
  rw [h]
  rfl

/-- The digits go into a new array. -/
theorem bitrFromstring_new {n : ℕ} (h : isValidBitstring s sep = some n) (hn : n = s.countP isBit) (hpos : 0 < n)
    (hlt : n < 2 ^ 32) : ∃ r, bitrFromstring none s sep = .ok (none, some r) ∧ Stored none s r := by
  obtain ⟨new, hnew, hwidth, -⟩ := allocateBitarray_eq hpos (by omega)
  have hsize := size_eq new
  rw [hwidth, calculateRequiredSize_of_lt hlt] at hsize
  have hcount : 0 + s.reverse.countP isBit = n := by rw [countP_reverse_isBit, Nat.zero_add, hn]
  obtain ⟨r, hr, hwrote⟩ := copyDigits_bit hcount (show n ≤ new.width by omega) (by omega)
  refine ⟨r, ?_, ?_, ?_, ?_⟩
  · unfold bitrFromstring
    simp only [h, hnew]
    change (copyDigits n s.reverse 1 new >>= _) = _
    rw [hr]
    rfl
  · rw [hn] at hwrote hwidth
    exact hwrote.stored_bits hwidth.ge
  · intro _
    rw [hwrote.width, hwidth, hn]
  · intro a ha
    cases ha

/-- The digits go into the array that is given. -/
theorem bitrFromstring_given {n : ℕ} (h : isValidBitstring s sep = some n) (hwidth : n ≤ a.width) :
    bitrFromstring (some a) s sep = (fun r => (some r, some r)) <$> copyDigits n s.reverse 1 a := by
  unfold bitrFromstring
  simp only [h]
  rw [if_neg (by omega)]
  cases copyDigits n s.reverse 1 a <;> rfl

/-! ## When it is right -/

theorem ParseRight.new_lt (h : ParseRight none s sep) (hsep : Separated isBit (sep.getD []) s)
    (hpos : 0 < s.countP isBit) : s.countP isBit < 2 ^ 32 := by
  have hacc : Accepted none s sep := by
    refine ⟨hsep, hpos, fun a ha => ?_⟩
    cases ha
  obtain ⟨r, -, hbits, hfresh, -⟩ := h.2 hacc fun _ => allocateBitarray_ne_none _
  have hwidth := hfresh rfl
  rw [← hwidth]
  refine width_lt_of_bits fun i hi => ?_
  obtain ⟨v, -, hget⟩ := hbits (i + 1) (by omega) (by omega)
  rw [bitrGet_eq hi] at hget
  cases hbit : r.bit? i with
  | none => rw [hbit] at hget; cases hget
  | some v => exact ⟨v, rfl⟩

theorem parseRight_new_iff (hvalid : isValidBitstring s sep = some (s.countP isBit))
    (hsep : Separated isBit (sep.getD []) s) : ParseRight none s sep ↔ 0 < s.countP isBit ∧ s.countP isBit < 2 ^ 32 := by
  constructor
  · intro h
    have hpos : 0 < s.countP isBit := by
      -- an array of no bits cannot be allocated
      by_contra hzero
      have herr : bitrFromstring none s sep = .error .assertion := by
        unfold bitrFromstring
        simp only [hvalid, Nat.eq_zero_of_not_pos hzero]
        rfl
      rw [h.1 fun hacc => hzero hacc.2.1] at herr
      cases herr
    exact ⟨hpos, h.new_lt hsep hpos⟩
  · rintro ⟨hpos, hlt⟩
    obtain ⟨r, hr, hstored⟩ := bitrFromstring_new hvalid rfl hpos hlt
    refine ⟨fun hnot => absurd ⟨hsep, hpos, fun a ha => ?_⟩ hnot, fun _ _ => ⟨r, hr, hstored⟩⟩
    cases ha

theorem parseRight_given_iff (hvalid : isValidBitstring s sep = some (s.countP isBit))
    (hsep : Separated isBit (sep.getD []) s) :
    ParseRight (some a) s sep ↔ 0 < s.countP isBit ∧ (s.countP isBit ≤ a.width → s.countP isBit ≤ 8 * a.size) := by
  by_cases hwide : a.width < s.countP isBit
  · have hnone : bitrFromstring (some a) s sep = .ok (some a, none) := by
      unfold bitrFromstring
      simp only [hvalid, if_pos hwide]
      rfl
    refine ⟨fun _ => ⟨by omega, fun hle => by omega⟩, fun _ => ⟨fun _ => hnone, fun hacc => ?_⟩⟩
    have hle := hacc.2.2 a rfl
    omega
  have hle := Nat.le_of_not_lt hwide
  have hcall := bitrFromstring_given hvalid hle
  have hcount : 0 + s.reverse.countP isBit = s.countP isBit := by rw [countP_reverse_isBit, Nat.zero_add]
  have hacc (hpos : 0 < s.countP isBit) : Accepted (some a) s sep := by
    refine ⟨hsep, hpos, fun b hb => ?_⟩
    obtain rfl := Option.some.inj hb
    exact hle
  constructor
  · intro h
    have hpos : 0 < s.countP isBit := by
      -- nothing is copied, and the array is returned all the same
      by_contra hzero
      rw [h.1 fun hacc => hzero hacc.2.1] at hcall
      cases hcopy : copyDigits (s.countP isBit) s.reverse 1 a with
      | error e => rw [hcopy] at hcall; cases hcall
      | ok r => rw [hcopy] at hcall; cases hcall
    refine ⟨hpos, fun _ => ?_⟩
    by_contra hroom
    obtain ⟨r, hr, -⟩ := h.2 (hacc hpos) fun hnone => by cases hnone
    rw [hcall, copyDigits_outside hcount hle (Nat.zero_le _) (by omega)] at hr
    cases hr
  · rintro ⟨hpos, hroom⟩
    obtain ⟨r, hr, hwrote⟩ := copyDigits_bit hcount hle (hroom hle)
    refine ⟨fun hnot => absurd (hacc hpos) hnot, fun _ _ => ⟨r, ?_, hwrote.stored_bits hle, ?_, ?_⟩⟩
    · rw [hcall, hr]
      rfl
    · intro hnone
      cases hnone
    · intro b hb
      obtain rfl := Option.some.inj hb
      refine ⟨hwrote.width, fun i hi => ?_⟩
      rw [hwrote.bits, if_neg (by omega)]

/-- **A string is parsed as it should be unless it is accepted without a digit, or has more digits than the buffer
has bits.** -/
theorem fromstring_iff (dest : Option Bitarray) (s : List Char) (sep : Option (List Char)) (hproper : ProperSep sep) :
    ParseRight dest s sep ↔ ParseSafe dest s sep := by
  have hfree : NoDigits (sep.getD []) := by
    cases sep with
    | none => intro c hc; cases hc
    | some p => exact (hproper p rfl).2
  by_cases haccept : s ≠ [] ∧ Separated isBit (sep.getD []) s
  · obtain ⟨hne, hsep⟩ := haccept
    have hvalid := (isValidBitstring_iff hfree).2 ⟨hne, hsep, rfl⟩
    have hsafe : ParseSafe dest s sep ↔ 0 < s.countP isBit ∧ Holdable dest (s.countP isBit) :=
      ⟨fun h => h hne hsep, fun h _ _ => h⟩
    rw [hsafe]
    cases dest with
    | none => exact parseRight_new_iff hvalid hsep
    | some a => exact parseRight_given_iff hvalid hsep
  · have hinvalid : isValidBitstring s sep = none := by
      cases hvalid : isValidBitstring s sep with
      | none => rfl
      | some n =>
        obtain ⟨hne, hsep, -⟩ := (isValidBitstring_iff hfree).1 hvalid
        exact absurd ⟨hne, hsep⟩ haccept
    refine ⟨fun _ hne hsep => absurd ⟨hne, hsep⟩ haccept,
      fun _ => ⟨fun _ => bitrFromstring_invalid hinvalid, fun hacc => absurd ⟨?_, hacc.1⟩ haccept⟩⟩
    rintro rfl
    exact Nat.lt_irrefl 0 hacc.2.1

theorem fromstring_one_dot : ParseRight none ['1', '.', '0'] (some ['.']) := by
  refine (fromstring_iff none ['1', '.', '0'] (some ['.']) fun p hp => ?_).2 fun _ _ => ⟨by decide, show 2 < 2 ^ 32 by decide⟩
  obtain rfl := Option.some.inj hp
  exact ⟨List.cons_ne_nil _ _, noDigits_singleton (by decide)⟩

/-- **The separator alone is accepted, and an array of no bits cannot be allocated.** -/
theorem separator_asserts : ¬ ParseRight none [':'] (some [':']) := by
  intro h
  have herr : bitrFromstring none [':'] (some [':']) = .error .assertion := by rfl
  have hnot : ¬ Accepted none [':'] (some [':']) := fun hacc => absurd hacc.2.1 (by decide)
  rw [h.1 hnot] at herr
  cases herr

end Libtarp.Bitr
