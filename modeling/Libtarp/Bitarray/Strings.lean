import Libtarp.Bitarray.Model
import Libtarp.Lib.Occurrences

/-!
# Bit arrays and strings (`bitarray.c`, `bits.c`)

* `bitrTostring`: the string is allocated first and then written from its end down, so that what matters is how many
  bytes are left. A write below the string is stopped with `MemFault.outside`.
* `isValidBitstring`, `bitrFromstring`: a string is checked from its front and copied from its end.
* `isValidBitstring_iff`: the strings that are accepted. `copyDigits_bit`: where their digits go.
-/

namespace Libtarp.Bitr

open Lib Bits

/-! ## The functions of the source -/

/-- A string under construction: how many bytes are still free, and what stands after them. -/
structure Dump where
  room : ℕ
  text : List Char

/-- Characters are written to the end of the free bytes. -/
def Dump.put (d : Dump) (p : List Char) : Except MemFault Dump :=
  if p.length ≤ d.room then return ⟨d.room - p.length, p ++ d.text⟩ else throw .outside

/-- The bytes of the allocation, from `calloc`, with the terminator. -/
def Dump.memory (d : Dump) : List Char := List.replicate d.room '\x00' ++ d.text ++ ['\x00']

/-- The number of separators in the dump of an array. -/
def separators (width groupsz : ℕ) : ℕ :=
  if 0 < groupsz ∧ groupsz < width then width / groupsz - (if width % groupsz ≠ 0 then 0 else 1) else 0

/-- The loop of `Bitr_tostring`, `rounds` positions from `i` on. -/
def dumpBits (bitr : Bitarray) (groupsz : ℕ) (sep : List Char) : ℕ → ℕ → ℕ → Dump → Except MemFault Dump
  | 0, _, _, d => return d
  | rounds + 1, i, groups, d => do
    let bit ← bitrGet bitr i
    let d ← d.put [if bit = 1 then '1' else '0']
    if 1 < groups ∧ i % groupsz = 0 then
      if groups - 1 ≠ 0 then
        if sep = [] then throw .assertion
        else do
          let d ← d.put sep
          dumpBits bitr groupsz sep rounds (i + 1) (groups - 1) d
      else dumpBits bitr groupsz sep rounds (i + 1) (groups - 1) d
    else dumpBits bitr groupsz sep rounds (i + 1) groups d

/-- `Bitr_tostring`: the string that is allocated. -/
def bitrTostring (bitr : Bitarray) (splitEvery : ℕ) (sep : Option (List Char)) : Except MemFault (List Char) :=
  let sep := sep.getD []
  let groups := if 0 < splitEvery ∧ splitEvery < bitr.width then separators bitr.width splitEvery + 1 else 0
  let totsz := (bitr.width + 1 + sep.length * separators bitr.width splitEvery) % 2 ^ 64
  -- nothing is allocated
  if totsz = 0 then throw .nullPointer
  else Dump.memory <$> dumpBits bitr splitEvery sep bitr.width 1 groups ⟨totsz - 1, []⟩

def isBit (c : Char) : Bool := c == '1' || c == '0'

/-- The loop of `is_valid_bitstring`; a string is not visited more often than it is long. -/
def scanBits (sep : List Char) : ℕ → List Char → ℕ → Option ℕ
  | _, [], len => some len
  | 0, _ :: _, _ => none
  | rounds + 1, c :: s, len =>
    if isBit c then scanBits sep rounds s len
    else if sep ≠ [] ∧ sep <+: c :: s then scanBits sep rounds ((c :: s).drop sep.length) (len - sep.length)
    else none

/-- `is_valid_bitstring`: the length without the separators. An empty separator is none. -/
def isValidBitstring (s : List Char) (sep : Option (List Char)) : Option ℕ :=
  if s.length = 0 then none else scanBits (sep.getD []) s.length s s.length

/-- The loop of `Bitr_fromstring`, over the characters from the end of the string on. -/
def copyDigits (trueLen : ℕ) : List Char → ℕ → Bitarray → Except MemFault Bitarray
  | [], _, a => return a
  | c :: s, bai, a =>
    if trueLen < bai then return a
    else if isBit c then do
      let (a, _) ← bitrSetval a bai (if c = '1' then 1 else 0)
      copyDigits trueLen s (bai + 1) a
    else copyDigits trueLen s bai a

/-- `Bitr_fromstring`: the array that was given, after the call, and the array that is returned. -/
def bitrFromstring (bitr : Option Bitarray) (bitstring : List Char) (sep : Option (List Char)) :
    Except MemFault (Option Bitarray × Option Bitarray) :=
  match isValidBitstring bitstring sep with
  | none => return (bitr, none)
  | some trueLen =>
    match bitr with
    | some a =>
      if a.width < trueLen then return (some a, none)
      else do
        let a ← copyDigits trueLen bitstring.reverse 1 a
        return (some a, some a)
    | none => do
      match ← allocateBitarray trueLen with
      | none => return (none, none)
      | some new =>
        let new ← copyDigits trueLen bitstring.reverse 1 new
        return (none, some new)

/-! ## The strings that are accepted -/

/-- No digit is in a separator. -/
def NoDigits (sep : List Char) : Prop := ∀ c ∈ sep, isBit c = false

theorem noDigits_singleton {c : Char} (h : isBit c = false) : NoDigits [c] := by
  intro d hd
  rw [List.mem_singleton.1 hd]
  exact h

variable {a : Bitarray} {sep s : List Char}

theorem scanBits_iff (hfree : NoDigits sep) {rounds len n : ℕ} (hrounds : s.length ≤ rounds) :
    scanBits sep rounds s len = some n ↔ Separated isBit sep s ∧ n = len - s.countP fun c => !isBit c := by
  induction rounds generalizing s len with
  | zero =>
    obtain rfl := List.length_eq_zero_iff.1 (Nat.le_zero.1 hrounds)
    unfold scanBits
    rw [Option.some.injEq, List.countP_nil, Nat.sub_zero, eq_comm]
    exact ⟨fun h => ⟨Separated.nil, h⟩, And.right⟩
  | succ rounds ih =>
    cases s with
    | nil =>
      unfold scanBits
      rw [Option.some.injEq, List.countP_nil, Nat.sub_zero, eq_comm]
      exact ⟨fun h => ⟨Separated.nil, h⟩, And.right⟩
    | cons c s =>
      rw [List.length_cons] at hrounds
      unfold scanBits
      by_cases hc : isBit c = true
      · rw [if_pos hc, ih (by omega), separated_digit_iff hfree hc, List.countP_cons_of_neg]
        rw [hc]
        exact Bool.false_ne_true
      rw [if_neg hc]
      by_cases hsep : sep ≠ [] ∧ sep <+: c :: s
      · obtain ⟨hne, t, ht⟩ := hsep
        -- no character of a separator is a digit, so each is taken off the length
        have hall : sep.countP (fun c => !isBit c) = sep.length := by
          rw [List.countP_eq_length]
          intro d hd
          rw [hfree d hd]
          rfl
        have hpos := List.length_pos_of_ne_nil hne
        have hlen := congrArg List.length ht
        rw [List.length_append, List.length_cons] at hlen
        rw [if_pos ⟨hne, t, ht⟩, ← ht, List.drop_left, ih (by omega), separated_sep_iff hfree hne, List.countP_append,
          hall, Nat.sub_sub]
      · rw [if_neg hsep, separated_cons_iff]
        constructor
        · intro h
          cases h
        · rintro ⟨⟨hdigit, -⟩ | ⟨hne, t, ht, -⟩, -⟩
          · exact absurd hdigit hc
          · exact absurd ⟨hne, t, ht.symm⟩ hsep

theorem isValidBitstring_iff {sep : Option (List Char)} (hfree : NoDigits (sep.getD [])) {n : ℕ} :
    isValidBitstring s sep = some n ↔ s ≠ [] ∧ Separated isBit (sep.getD []) s ∧ n = s.countP isBit := by
  have hcount := List.length_eq_countP_add_countP isBit (l := s)
  have hrest : s.length - s.countP (fun c => !isBit c) = s.countP isBit := by
    have hnot : (s.countP fun c => !isBit c) = s.countP fun c => decide ¬ isBit c = true := by
      congr 1
      funext c
      cases isBit c <;> rfl
    omega
  unfold isValidBitstring
  by_cases h0 : s = []
  · rw [h0, List.length_nil, if_pos rfl]
    constructor
    · intro h
      cases h
    · rintro ⟨hne, -⟩
      exact absurd rfl hne
  · rw [if_neg fun h => h0 (List.length_eq_zero_iff.1 h), scanBits_iff hfree le_rfl, hrest]
    exact ⟨fun h => ⟨h0, h⟩, And.right⟩

/-! ## Copying the digits -/

variable {r : Bitarray} {trueLen bai : ℕ}

theorem bitrSetval_outside {i : ℕ} (hi : i < a.width) (hsize : 8 * a.size ≤ i) (v : Bool) :
    bitrSetval a (i + 1) v.toNat = .error .outside := by
  have hv : (v.toNat : ℤ) = 1 ∨ (v.toNat : ℤ) = 0 := by cases v <;> decide
  have hnone : a.bytes[i / 8]? = none := by
    rw [List.getElem?_eq_none_iff]
    change a.size ≤ i / 8
    omega
  unfold bitrSetval changeBit byteAt
  rw [if_pos hv, if_pos (inrange_succ.2 hi), Nat.add_sub_cancel, hnone]
  rfl

/-- The bit of a digit. -/
theorem digit_toNat (c : Char) : (if c = '1' then (1 : ℤ) else 0) = ((decide (c = '1')).toNat : ℤ) := by
  by_cases h : c = '1'
  · rw [if_pos h, decide_eq_true h]
    rfl
  · rw [if_neg h, decide_eq_false h]
    rfl

/-- The digits, from the end of a string on, as bits. -/
def digitBits (s : List Char) : List Bool := (s.filter isBit).map fun c => decide (c = '1')

theorem digitBits_length (s : List Char) : (digitBits s).length = s.countP isBit := by
  unfold digitBits
  rw [List.length_map, List.countP_eq_length_filter]

theorem digitBits_cons_of_pos {c : Char} (hc : isBit c = true) : digitBits (c :: s) = decide (c = '1') :: digitBits s := by
  unfold digitBits
  rw [List.filter_cons_of_pos hc, List.map_cons]

theorem digitBits_cons_of_neg {c : Char} (hc : ¬ isBit c = true) : digitBits (c :: s) = digitBits s := by
  unfold digitBits
  rw [List.filter_cons_of_neg hc]

/-- The digits that are left go to the next bits. -/
theorem copyDigits_bit (hlen : bai + s.countP isBit = trueLen) (hwidth : trueLen ≤ a.width) (hsize : trueLen ≤ 8 * a.size) :
    ∃ r, copyDigits trueLen s (bai + 1) a = .ok r ∧ Wrote a r bai trueLen fun i => (digitBits s)[i - bai]? := by
  induction s generalizing a bai with
  | nil =>
    rw [List.countP_nil, Nat.add_zero] at hlen
    subst hlen
    exact ⟨a, rfl, Wrote.nil a⟩
  | cons c s ih =>
    by_cases hc : isBit c = true
    · rw [List.countP_cons_of_pos hc] at hlen
      obtain ⟨b, hset, hwrote⟩ := bitrSetval_bit (a := a) (i := bai) (by omega) (by omega) (decide (c = '1'))
      obtain ⟨r, hrest, hlast⟩ := ih (show bai + 1 + s.countP isBit = trueLen by omega)
        (show trueLen ≤ b.width by rw [hwrote.width]; exact hwidth) (by rw [hwrote.size]; exact hsize)
      refine ⟨r, ?_, (hwrote.congr fun i h1 h2 => ?_).trans (hlast.congr fun i h1 h2 => ?_) (by omega) (by omega)⟩
      · unfold copyDigits
        rw [if_neg (by omega), if_pos hc, digit_toNat, hset]
        exact hrest
      · obtain rfl : i = bai := by omega
        rw [digitBits_cons_of_pos hc, Nat.sub_self, List.getElem?_cons_zero]
      · have hnext : i - bai = i - (bai + 1) + 1 := by omega
        rw [digitBits_cons_of_pos hc, hnext, List.getElem?_cons_succ]
    · rw [List.countP_cons_of_neg hc] at hlen
      rw [digitBits_cons_of_neg hc]
      unfold copyDigits
      by_cases hdone : trueLen < bai + 1
      · have hnil : s.countP isBit = 0 := by omega
        obtain rfl : bai = trueLen := by omega
        rw [if_pos hdone]
        exact ⟨a, rfl, Wrote.nil a⟩
      · rw [if_neg hdone, if_neg hc]
        exact ih hlen hwidth hsize

/-- More digits than there are bits in the buffer. -/
theorem copyDigits_outside (hlen : bai + s.countP isBit = trueLen) (hwidth : trueLen ≤ a.width)
    (hbai : bai ≤ 8 * a.size) (hsize : 8 * a.size < trueLen) :
    copyDigits trueLen s (bai + 1) a = .error .outside := by
  induction s generalizing a bai with
  | nil =>
    rw [List.countP_nil] at hlen
    omega
  | cons c s ih =>
    unfold copyDigits
    rw [if_neg (by omega)]
    by_cases hc : isBit c = true
    · rw [List.countP_cons_of_pos hc] at hlen
      rw [if_pos hc, digit_toNat]
      by_cases hroom : bai < 8 * a.size
      · obtain ⟨b, hset, hwrote⟩ := bitrSetval_bit (a := a) (i := bai) (by omega) hroom (decide (c = '1'))
        rw [hset]
        have hleft : bai + 1 + s.countP isBit = trueLen := by omega
        exact ih hleft (by rw [hwrote.width]; exact hwidth) (by rw [hwrote.size]; omega)
          (by rw [hwrote.size]; exact hsize)
      · rw [bitrSetval_outside (by omega) (by omega)]
        rfl
    · rw [List.countP_cons_of_neg hc] at hlen
      rw [if_neg hc]
      exact ih hlen hwidth hbai hsize

end Libtarp.Bitr
