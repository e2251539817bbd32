import Libtarp.Bitarray.Model

/-!
# Several bits at once (`bitarray.c`, `Bitr_setn`, `Bitr_clearn`, `Bitr_togglen`)

The positions are visited from `pos` down. The range check before the loop compares `nbits` with `pos`; that `pos` is
in the array is checked by the setter of a bit, for the highest position first, so that nothing was changed when it
fails.

* `forBits_bit`: the loop changes the bits it visits.
* `bulk_call`: what each of the three calls does.
-/

namespace Libtarp.Bitr

open Lib Bits

/-! ## The functions of the source -/

/-- The loop of `do_for_bits` over `count` positions, from `i` down. -/
def forBits (bitfunc : Bitarray → ℕ → Except MemFault (Bitarray × ℤ)) :
    ℕ → ℕ → Bitarray → Except MemFault (Bitarray × ℤ)
  | 0, _, a => return (a, 0)
  | count + 1, i, a => do
    let (a, rc) ← bitfunc a i
    if rc ≠ 0 then return (a, rc) else forBits bitfunc count (i - 1) a

/-- `do_for_bits`. -/
def doForBits (bitfunc : Bitarray → ℕ → Except MemFault (Bitarray × ℤ)) (a : Bitarray) (pos : UInt32) (nbits : ℕ) :
    Except MemFault (Bitarray × ℤ) :=
  let pos := if 0 < pos.toNat then pos else UInt32.ofNat a.width
  let nbits := if 0 < nbits then nbits else pos.toNat
  -- `check_position_and_nbits_within_range`: `pos` is the width of the first check
  if !inrange pos.toNat nbits then return (a, outOfBounds)
  else if pos.toNat < nbits then return (a, outOfBounds)
  else forBits bitfunc nbits pos.toNat a

def bitrSetn (a : Bitarray) (pos : UInt32) (nbits : ℕ) : Except MemFault (Bitarray × ℤ) :=
  doForBits bitrSet a pos nbits

def bitrClearn (a : Bitarray) (pos : UInt32) (nbits : ℕ) : Except MemFault (Bitarray × ℤ) :=
  doForBits bitrClear a pos nbits

def bitrTogglen (a : Bitarray) (pos : UInt32) (nbits : ℕ) : Except MemFault (Bitarray × ℤ) :=
  doForBits bitrToggle a pos nbits

/-! ## What is asked for -/

/-- The three calls. -/
inductive Bulk
  | set
  | clear
  | toggle
  deriving DecidableEq, Repr

namespace Bulk

def bitfunc : Bulk → Bitarray → ℕ → Except MemFault (Bitarray × ℤ)
  | set => bitrSet
  | clear => bitrClear
  | toggle => bitrToggle

def call : Bulk → Bitarray → UInt32 → ℕ → Except MemFault (Bitarray × ℤ)
  | set => bitrSetn
  | clear => bitrClearn
  | toggle => bitrTogglen

/-- What becomes of a bit. -/
def bit : Bulk → Bool → Bool
  | set, _ => true
  | clear, _ => false
  | toggle, v => !v

end Bulk

/-- The position a call begins at, by default the highest one. -/
def fromPos (a : Bitarray) (pos : ℕ) : ℕ := if pos = 0 then a.width else pos

/-- How many positions a call is for, by default all from `pos` down. -/
def rangeLength (a : Bitarray) (pos nbits : ℕ) : ℕ := if nbits = 0 then fromPos a pos else nbits

/-- The bits at the positions `pos`, `pos - 1`, …, `pos - nbits + 1` were changed, and nothing else. -/
def Changed (g : Bool → Bool) (a r : Bitarray) (pos nbits : ℕ) : Prop :=
  r.width = a.width ∧ ∀ i, r.bit? i = if pos < i + 1 + nbits ∧ i + 1 ≤ pos then (a.bit? i).map g else a.bit? i

/-! ## The loop -/

variable {a : Bitarray} {pos : UInt32} {nbits : ℕ}

theorem bitfunc_bit (op : Bulk) {i : ℕ} (hi : i < a.width) (hsize : i < 8 * a.size) :
    ∃ r, op.bitfunc a (i + 1) = .ok (r, 0) ∧ Wrote a r i (i + 1) fun k => (a.bit? k).map op.bit := by
  cases op with
  | set =>
    obtain ⟨r, hset, hwrote⟩ := bitrSetval_bit hi hsize true
    obtain ⟨old, hold⟩ : ∃ old, a.bit? i = some old := exists_bitAt hsize
    refine ⟨r, hset, hwrote.congr fun k h1 h2 => ?_⟩
    obtain rfl : k = i := by omega
    rw [hold]
    rfl
  | clear => exact changeBit_bit (fun byte _ _ hj => getLsbD_clearBit byte hj) hi hsize
  | toggle => exact changeBit_bit (fun byte _ _ hj => getLsbD_toggleBit byte hj) hi hsize

/-- The bits not visited yet are as they were. -/
theorem forBits_bit (op : Bulk) {start count : ℕ} (hin : start + count ≤ a.width) (hsize : start + count ≤ 8 * a.size) :
    ∃ r, forBits op.bitfunc count (start + count) a = .ok (r, 0) ∧
      Wrote a r start (start + count) fun k => (a.bit? k).map op.bit := by
  induction count generalizing a with
  | zero => exact ⟨a, rfl, Wrote.nil a⟩
  | succ count ih =>
    obtain ⟨b, hfirst, hwrote⟩ := bitfunc_bit op (show start + count < a.width by omega) (by omega)
    obtain ⟨r, hrest, hlast⟩ := ih (a := b) (by rw [hwrote.width]; omega) (by rw [hwrote.size]; omega)
    refine ⟨r, ?_, hwrote.trans_down (hlast.congr fun k h1 h2 => ?_) (by omega) (by omega)⟩
    · unfold forBits
      rw [← Nat.add_assoc, hfirst, Nat.add_sub_cancel]
      exact hrest
    · rw [hwrote.bits, if_neg (by omega)]

/-- A position outside the array is refused. -/
theorem bitfunc_outside (op : Bulk) {i : ℕ} (hi : a.width < i) : op.bitfunc a i = .ok (a, outOfBounds) := by
  have hout : ¬ inrange a.width i = true := by
    unfold inrange
    rw [decide_eq_true_iff]
    omega
  cases op with
  | set =>
    change bitrSetval a i 1 = _
    unfold bitrSetval changeBit
    rw [if_pos (Or.inl rfl), if_neg hout]
    rfl
  | clear => exact if_neg hout
  | toggle => exact if_neg hout

/-- The loop stops at the first position. -/
theorem forBits_outside (op : Bulk) {i count : ℕ} (hcount : 0 < count) (hi : a.width < i) :
    forBits op.bitfunc count i a = .ok (a, outOfBounds) := by
  obtain ⟨count, rfl⟩ := Nat.exists_eq_add_of_le' hcount
  unfold forBits
  rw [bitfunc_outside op hi]
  rfl

/-! ## The calls -/

theorem rangeLength_pos (a : Bitarray) (pos nbits : ℕ) : 0 < rangeLength a pos nbits := by
  have hpos := a.width_pos
  unfold rangeLength fromPos
  split_ifs <;> omega

theorem call_eq (op : Bulk) : op.call a pos nbits = doForBits op.bitfunc a pos nbits := by
  cases op <;> rfl

/-- With the defaults in place, the checks of `do_for_bits` are one. -/
theorem doForBits_eq (bitfunc : Bitarray → ℕ → Except MemFault (Bitarray × ℤ)) (hwidth : a.width < 2 ^ 32) :
    doForBits bitfunc a pos nbits =
      if fromPos a pos.toNat < rangeLength a pos.toNat nbits then .ok (a, outOfBounds)
      else forBits bitfunc (rangeLength a pos.toNat nbits) (fromPos a pos.toNat) a := by
  have hfrom : (if 0 < pos.toNat then pos else UInt32.ofNat a.width).toNat = fromPos a pos.toNat := by
    unfold fromPos
    by_cases h0 : pos.toNat = 0
    · rw [if_neg (by omega), if_pos h0]
      exact UInt32.toNat_ofNat_of_lt' hwidth
    · rw [if_pos (by omega), if_neg h0]
  have hlen : (if 0 < nbits then nbits else fromPos a pos.toNat) = rangeLength a pos.toNat nbits := by
    unfold rangeLength
    by_cases h0 : nbits = 0
    · rw [if_neg (by omega), if_pos h0]
    · rw [if_pos (by omega), if_neg h0]
  have hlen_pos := rangeLength_pos a pos.toNat nbits
  unfold doForBits
  simp only [hfrom, hlen]
  by_cases hlt : fromPos a pos.toNat < rangeLength a pos.toNat nbits
  · have hout : inrange (fromPos a pos.toNat) (rangeLength a pos.toNat nbits) = false := by
      unfold inrange
      rw [decide_eq_false_iff_not]
      omega
    rw [hout, if_pos hlt, if_pos hlt]
    rfl
  · have hin : inrange (fromPos a pos.toNat) (rangeLength a pos.toNat nbits) = true := by
      unfold inrange
      rw [decide_eq_true_iff]
      omega
    rw [hin, if_neg hlt, if_neg hlt]
    rfl

/-- **A call changes exactly its positions, or refuses and changes nothing.** -/
theorem bulk_call (op : Bulk) (a : Bitarray) (pos : UInt32) (nbits : ℕ) (hwidth : a.width < 2 ^ 32) :
    (¬ (fromPos a pos.toNat < rangeLength a pos.toNat nbits ∨ a.width < fromPos a pos.toNat) →
        ∃ r, op.call a pos nbits = .ok (r, 0) ∧
          Changed op.bit a r (fromPos a pos.toNat) (rangeLength a pos.toNat nbits)) ∧
      (fromPos a pos.toNat < rangeLength a pos.toNat nbits ∨ a.width < fromPos a pos.toNat →
        op.call a pos nbits = .ok (a, outOfBounds)) := by
  have hsize := size_eq a
  rw [calculateRequiredSize_of_lt hwidth] at hsize
  rw [call_eq, doForBits_eq op.bitfunc hwidth]
  constructor
  · intro hin
    obtain ⟨start, hstart⟩ : ∃ start, fromPos a pos.toNat = start + rangeLength a pos.toNat nbits :=
      ⟨fromPos a pos.toNat - rangeLength a pos.toNat nbits, by omega⟩
    obtain ⟨r, hr, hwrote⟩ := forBits_bit op (show start + rangeLength a pos.toNat nbits ≤ a.width by omega) (by omega)
    rw [if_neg (by omega), hstart]
    refine ⟨r, hr, hwrote.width, fun i => ?_⟩
    rw [hwrote.bits]
    by_cases hi : start ≤ i ∧ i < start + rangeLength a pos.toNat nbits
    · rw [if_pos hi, if_pos (by omega)]
    · rw [if_neg hi, if_neg (by omega)]
  · intro hout
    by_cases hlt : fromPos a pos.toNat < rangeLength a pos.toNat nbits
    · rw [if_pos hlt]
    · have hfrom : a.width < fromPos a pos.toNat := hout.resolve_left hlt
      rw [if_neg hlt]
      exact forBits_outside op (rangeLength_pos a pos.toNat nbits) hfrom

theorem sized_dozen : [(240 : UInt8), 3].length = calculateRequiredSize 12 ∧ 0 < 12 ∧ 12 < 2 ^ 64 := by decide

/-- The width is 12: the bits 5 to 10 are on. -/
def dozen : Bitarray := ofBytes 12 [240, 3] sized_dozen

theorem bulk_call_dozen : (∃ r, bitrTogglen dozen 11 8 = .ok (r, 0) ∧ Changed (!·) dozen r 11 8) ∧
    bitrClearn dozen 13 1 = .ok (dozen, outOfBounds) :=
  ⟨(bulk_call .toggle dozen 11 8 (by decide)).1 (by decide), (bulk_call .clear dozen 13 1 (by decide)).2 (by decide)⟩

end Libtarp.Bitr
