import Libtarp.Bitarray.Bulk

/-!
# Shifts and rotations (`bitarray.c`, `Bitr_lshift`, `Bitr_rshift`)

The bits are moved in place, each one read before it is written over; for a rotation the bits that are shifted off
are kept in a slice.

* `moveUp_bit`, `moveDown_bit`: the two loops.
* `bitrLshift_bit`, `bitrRshift_bit`: the bits of the result.
* `shift_rotate`: shifts and rotations of the number the array is.
-/

namespace Libtarp.Bitr

open Lib Bits

/-! ## The functions of the source -/

/-- The loop of `Bitr_lshift`, `count` positions from `i` down. -/
def moveUp (n : ℕ) : ℕ → ℕ → Bitarray → Except MemFault Bitarray
  | 0, _, a => return a
  | count + 1, i, a => do
    let bit ← bitrGet a (i - n)
    let (a, _) ← bitrSetval a i bit
    moveUp n count (i - 1) a

/-- The loop of `Bitr_rshift`, over the positions up to `count`. -/
def moveDown (n : ℕ) : ℕ → Bitarray → Except MemFault Bitarray
  | 0, a => return a
  | i + 1, a => do
    let a ← moveDown n i a
    let bit ← bitrGet a (i + 1 + n)
    let (a, _) ← bitrSetval a (i + 1) bit
    return a

def bitrLshift (bitr : Bitarray) (n : ℕ) (rotate : Bool) : Except MemFault Bitarray :=
  if bitr.width < n then throw .assertion
  else if n = 0 then return bitr
  else if rotate then do
    let slice ← bitrSlice bitr (bitr.width + 1 - n) 0
    let bitr ← moveUp n (bitr.width - n) bitr.width bitr
    copyBits slice 0 0 slice.width bitr
  else do
    let bitr ← moveUp n (bitr.width - n) bitr.width bitr
    let (bitr, _) ← bitrClearn bitr (UInt32.ofNat n) n
    return bitr

def bitrRshift (bitr : Bitarray) (n : ℕ) (rotate : Bool) : Except MemFault Bitarray :=
  if bitr.width < n then throw .assertion
  else if n = 0 then return bitr
  else if rotate then do
    let slice ← bitrSlice bitr 1 ((n + 1) % 2 ^ 64)
    let bitr ← moveDown n (bitr.width - n) bitr
    copyBits slice 0 (bitr.width - n) slice.width bitr
  else do
    let bitr ← moveDown n (bitr.width - n) bitr
    let (bitr, _) ← bitrClearn bitr (UInt32.ofNat bitr.width) n
    return bitr

/-! ## What is asked for -/

/-- The number the bits are. -/
def Bitarray.value (a : Bitarray) : BitVec a.width := BitVec.ofNat a.width (leValue a.bytes)

/-- The bits that are read are those of a number. -/
def IsValue (a : Bitarray) {w : ℕ} (v : BitVec w) : Prop :=
  a.width = w ∧ ∀ i < w, bitrGet a (i + 1) = .ok ((v.getLsbD i).toNat : ℤ)

/-! ## The loops -/

variable {a bitr r : Bitarray} {n : ℕ} {rotate : Bool}

theorem one_bit {i j : ℕ} (hwidth : a.width < 2 ^ 32) (hi : i < a.width) (hj : j < a.width) :
    ∃ v r, bitrGet a (i + 1) = .ok v ∧ bitrSetval a (j + 1) v = .ok (r, 0) ∧ Wrote a r j (j + 1) fun _ => a.bit? i := by
  have hsize := size_eq a
  rw [calculateRequiredSize_of_lt hwidth] at hsize
  obtain ⟨v, hv⟩ := exists_bit hwidth hi
  obtain ⟨r, hset, hwrote⟩ := bitrSetval_bit hj (by omega) v
  refine ⟨v.toNat, r, ?_, hset, hwrote.congr fun _ _ _ => hv.symm⟩
  rw [bitrGet_eq hi, hv, Option.elim_some]

/-- The bits not moved yet are as they were. -/
theorem moveUp_bit {count : ℕ} (hwidth : a.width < 2 ^ 32) (hin : n + count ≤ a.width) :
    ∃ r, moveUp n count (n + count) a = .ok r ∧ Wrote a r n (n + count) fun i => a.bit? (i - n) := by
  induction count generalizing a with
  | zero => exact ⟨a, rfl, Wrote.nil a⟩
  | succ count ih =>
    obtain ⟨v, b, hget, hset, hwrote⟩ := one_bit hwidth (show count < a.width by omega) (show n + count < a.width by omega)
    obtain ⟨r, hrest, hlast⟩ := ih (a := b) (by rw [hwrote.width]; omega) (by rw [hwrote.width]; omega)
    have hfrom : n + (count + 1) - n = count + 1 := by omega
    refine ⟨r, ?_, (hwrote.congr fun i h1 h2 => ?_).trans_down (hlast.congr fun i h1 h2 => ?_) (by omega) (by omega)⟩
    · unfold moveUp
      rw [hfrom, hget, ← Nat.add_assoc, Nat.add_sub_cancel]
      change (bitrSetval a (n + count + 1) v >>= _) = _
      rw [hset]
      exact hrest
    · congr 1
      omega
    · rw [hwrote.bits, if_neg (by omega)]

theorem moveDown_bit {count : ℕ} (hwidth : a.width < 2 ^ 32) (hin : n + count ≤ a.width) :
    ∃ r, moveDown n count a = .ok r ∧ Wrote a r 0 count fun i => a.bit? (i + n) := by
  induction count with
  | zero => exact ⟨a, rfl, Wrote.nil a⟩
  | succ count ih =>
    obtain ⟨b, hmoved, hwrote⟩ := ih (by omega)
    obtain ⟨v, r, hget, hset, hlast⟩ := one_bit (a := b) (i := count + n) (j := count) (by rw [hwrote.width]; omega)
      (by rw [hwrote.width]; omega) (by rw [hwrote.width]; omega)
    have hfrom : count + 1 + n = count + n + 1 := by omega
    refine ⟨r, ?_, hwrote.trans (hlast.congr fun i h1 h2 => ?_) (by omega) (by omega)⟩
    · simp only [moveDown, hmoved, hfrom, hget, hset, bind, Except.bind, pure, Except.pure]
    · obtain rfl : i = count := by omega
      rw [hwrote.bits, if_neg (by omega)]

/-! ## The calls -/

theorem bitrClearn_bit (hwidth : a.width < 2 ^ 32) {start count : ℕ} (hcount : 0 < count) (hin : start + count ≤ a.width) :
    ∃ r, bitrClearn a (UInt32.ofNat (start + count)) count = .ok (r, 0) ∧
      Wrote a r start (start + count) fun _ => some false := by
  have hsize := size_eq a
  rw [calculateRequiredSize_of_lt hwidth] at hsize
  have hpos : (UInt32.ofNat (start + count)).toNat = start + count := UInt32.toNat_ofNat_of_lt' (show start + count < 2 ^ 32 by omega)
  have hfrom : fromPos a (start + count) = start + count := if_neg (by omega)
  have hlen : rangeLength a (start + count) count = count := if_neg (by omega)
  obtain ⟨r, hr, hwrote⟩ := forBits_bit .clear hin (by omega)
  change ∃ r, doForBits (Bulk.bitfunc .clear) _ _ _ = _ ∧ _
  rw [doForBits_eq _ hwidth, hpos, hfrom, hlen, if_neg (by omega)]
  refine ⟨r, hr, hwrote.congr fun i h1 h2 => ?_⟩
  obtain ⟨v, hv⟩ := exists_bit hwidth (show i < a.width by omega)
  rw [hv]
  rfl

theorem bitrSlice_to_end {start : ℕ} (hwidth : a.width + 1 < 2 ^ 64) :
    bitrSlice a (start + 1) 0 = bitrSlice a (start + 1) (a.width + 1) := by
  unfold bitrSlice
  simp only [if_pos, if_neg (Nat.succ_ne_zero a.width), Nat.mod_eq_of_lt hwidth]

/-- Bits that were kept are put back. -/
theorem slice_copied {moved : Bitarray} {start count dest : ℕ} (hcount : 0 < count) (hin : start + count ≤ a.width)
    (hwidth : a.width < 2 ^ 32) (hdest : dest + count ≤ a.width) (hmoved : moved.width = a.width) :
    ∃ slice r, bitrSlice a (start + 1) (start + count + 1) = .ok slice ∧
      copyBits slice 0 dest slice.width moved = .ok r ∧
      Wrote moved r dest (dest + count) fun i => a.bit? (start + (i - dest)) := by
  obtain ⟨slice, hslice, rfl, hbit⟩ := bitrSlice_bit hcount hin hwidth
  obtain ⟨r, hr, hwrote⟩ := copyBits_bit (show 0 + slice.width ≤ slice.width by omega) (by omega)
    (show dest + slice.width ≤ moved.width by omega) (by omega)
  refine ⟨slice, r, hslice, hr, hwrote.congr fun i h1 h2 => ?_⟩
  rw [Nat.zero_add, hbit _ (by omega)]

/-- The bits of an array shifted to the left. -/
def lshifted (a : Bitarray) (n : ℕ) (rotate : Bool) (i : ℕ) : Option Bool :=
  if n ≤ i then a.bit? (i - n) else if rotate then a.bit? (a.width - n + i) else some false

/-- The bits of an array shifted to the right. -/
def rshifted (a : Bitarray) (n : ℕ) (rotate : Bool) (i : ℕ) : Option Bool :=
  if i < a.width - n then a.bit? (i + n) else if rotate then a.bit? (i - (a.width - n)) else some false

theorem bitrLshift_bit (rotate : Bool) (hwidth : a.width < 2 ^ 32) (hn : n ≤ a.width) :
    ∃ r, bitrLshift a n rotate = .ok r ∧ Wrote a r 0 a.width (lshifted a n rotate) := by
  unfold bitrLshift
  rw [if_neg (by omega)]
  by_cases h0 : n = 0
  · rw [if_pos h0]
    refine ⟨a, rfl, rfl, fun i => ?_⟩
    unfold lshifted
    rw [h0, if_pos (Nat.zero_le i), Nat.sub_zero, ite_self]
  have hcount : n + (a.width - n) = a.width := by omega
  obtain ⟨moved, hmoved, hwrote⟩ := moveUp_bit hwidth hcount.le
  rw [hcount] at hmoved hwrote
  have hmoved_width := hwrote.width
  have hup : Wrote a moved n a.width (lshifted a n rotate) := by
    refine hwrote.congr fun i h1 _ => ?_
    unfold lshifted
    rw [if_pos h1]
  rw [if_neg h0]
  cases rotate with
  | true =>
    have hstart : a.width + 1 - n = a.width - n + 1 := by omega
    have hstop : a.width - n + n + 1 = a.width + 1 := by omega
    obtain ⟨slice, r, hslice, hr, hback⟩ := slice_copied (Nat.pos_of_ne_zero h0)
      (show a.width - n + n ≤ a.width by omega) hwidth (show 0 + n ≤ a.width by omega) hmoved_width
    rw [hstop] at hslice
    rw [Nat.zero_add] at hback
    -- the bits shifted off at the top are those of the slice
    rw [if_pos rfl, hstart, bitrSlice_to_end (by omega), hslice]
    change ∃ r, (moveUp n (a.width - n) a.width a >>= _) = _ ∧ _
    rw [hmoved]
    refine ⟨r, hr, hup.trans_down (hback.congr fun i _ hi => ?_) (Nat.zero_le n) hn⟩
    unfold lshifted
    rw [if_neg (by omega), if_pos rfl, Nat.sub_zero]
  | false =>
    obtain ⟨r, hr, hcleared⟩ := bitrClearn_bit (by omega) (Nat.pos_of_ne_zero h0) (show 0 + n ≤ moved.width by omega)
    rw [Nat.zero_add] at hr hcleared
    rw [if_neg Bool.false_ne_true, hmoved]
    change ∃ r, (bitrClearn moved (UInt32.ofNat n) n >>= _) = _ ∧ _
    rw [hr]
    refine ⟨r, rfl, hup.trans_down (hcleared.congr fun i _ hi => ?_) (Nat.zero_le n) hn⟩
    unfold lshifted
    rw [if_neg (by omega), if_neg Bool.false_ne_true]

theorem bitrRshift_bit (rotate : Bool) (hwidth : a.width < 2 ^ 32) (hn : n ≤ a.width) :
    ∃ r, bitrRshift a n rotate = .ok r ∧ Wrote a r 0 a.width (rshifted a n rotate) := by
  unfold bitrRshift
  rw [if_neg (by omega)]
  by_cases h0 : n = 0
  · rw [if_pos h0]
    refine ⟨a, rfl, rfl, fun i => ?_⟩
    unfold rshifted
    rw [h0, Nat.sub_zero]
    by_cases hi : 0 ≤ i ∧ i < a.width
    · rw [if_pos hi, if_pos hi.2, Nat.add_zero]
    · rw [if_neg hi]
  have hcount : a.width - n + n = a.width := by omega
  obtain ⟨moved, hmoved, hwrote⟩ := moveDown_bit hwidth (show n + (a.width - n) ≤ a.width by omega)
  have hmoved_width := hwrote.width
  have hdown : Wrote a moved 0 (a.width - n) (rshifted a n rotate) := by
    refine hwrote.congr fun i _ h2 => ?_
    unfold rshifted
    rw [if_pos h2]
  rw [if_neg h0]
  cases rotate with
  | true =>
    have hwrap : (n + 1) % 2 ^ 64 = 0 + n + 1 := by omega
    obtain ⟨slice, r, hslice, hr, hback⟩ := slice_copied (Nat.pos_of_ne_zero h0) (show 0 + n ≤ a.width by omega) hwidth
      (show a.width - n + n ≤ a.width by omega) hmoved_width
    rw [hcount] at hback
    -- the bits shifted off at the bottom are those of the slice
    rw [if_pos rfl, hwrap, hslice]
    change ∃ r, (moveDown n (a.width - n) a >>= _) = _ ∧ _
    rw [hmoved]
    refine ⟨r, ?_, hdown.trans (hback.congr fun i hi _ => ?_) (Nat.zero_le _) (Nat.sub_le _ _)⟩
    · rw [← hmoved_width] at hr
      exact hr
    · unfold rshifted
      rw [if_neg (by omega), if_pos rfl, Nat.zero_add]
  | false =>
    obtain ⟨r, hr, hcleared⟩ := bitrClearn_bit (by omega) (Nat.pos_of_ne_zero h0)
      (show a.width - n + n ≤ moved.width by omega)
    rw [hcount] at hr hcleared
    rw [if_neg Bool.false_ne_true, hmoved]
    change ∃ r, (bitrClearn moved (UInt32.ofNat moved.width) n >>= _) = _ ∧ _
    rw [hmoved_width, hr]
    refine ⟨r, rfl, hdown.trans (hcleared.congr fun i hi _ => ?_) (Nat.zero_le _) (Nat.sub_le _ _)⟩
    unfold rshifted
    rw [if_neg (by omega), if_neg Bool.false_ne_true]

/-! ## The bits and the number -/

theorem value_bit (hwidth : a.width < 2 ^ 32) {i : ℕ} (hi : i < a.width) : a.bit? i = some (a.value.getLsbD i) := by
  have hsize := size_eq a
  rw [calculateRequiredSize_of_lt hwidth] at hsize
  unfold Bitarray.bit? Bitarray.value
  rw [bitAt_leValue (by change i < 8 * a.size; omega), BitVec.getLsbD_ofNat, decide_eq_true hi, Bool.true_and]

theorem isValue_of_bits {v : BitVec a.width} (hwidth : r.width = a.width)
    (hbit : ∀ i < a.width, r.bit? i = some (v.getLsbD i)) : IsValue r v := by
  refine ⟨hwidth, fun i hi => ?_⟩
  rw [bitrGet_eq (by omega), hbit i hi, Option.elim_some]

theorem Wrote.isValue {v : BitVec a.width} {bit : ℕ → Option Bool} (h : Wrote a r 0 a.width bit)
    (hbit : ∀ i < a.width, bit i = some (v.getLsbD i)) : IsValue r v := by
  refine isValue_of_bits h.width fun i hi => ?_
  rw [h.bits, if_pos ⟨Nat.zero_le i, hi⟩, hbit i hi]

theorem lshifted_value (hwidth : a.width < 2 ^ 32) {i : ℕ} (hi : i < a.width) :
    lshifted a n false i = some ((a.value <<< n).getLsbD i) := by
  unfold lshifted
  rw [BitVec.getLsbD_shiftLeft, decide_eq_true hi, Bool.true_and]
  by_cases h : n ≤ i
  · rw [if_pos h, value_bit hwidth (by omega), decide_eq_false (by omega), Bool.not_false, Bool.true_and]
  · rw [if_neg h, if_neg Bool.false_ne_true, decide_eq_true (by omega), Bool.not_true, Bool.false_and]

theorem rshifted_value (hwidth : a.width < 2 ^ 32) {i : ℕ} (hn : n ≤ a.width) :
    rshifted a n false i = some ((a.value >>> n).getLsbD i) := by
  unfold rshifted
  rw [BitVec.getLsbD_ushiftRight]
  by_cases h : i < a.width - n
  · rw [if_pos h, Nat.add_comm, value_bit hwidth (by omega)]
  · rw [if_neg h, if_neg Bool.false_ne_true, BitVec.getLsbD_of_ge _ _ (by omega)]

theorem lshifted_rotate (hwidth : a.width < 2 ^ 32) {i : ℕ} (hn : n ≤ a.width) (hi : i < a.width) :
    lshifted a n true i = some ((a.value.rotateLeft n).getLsbD i) := by
  unfold lshifted
  rw [BitVec.getLsbD_rotateLeft, if_pos rfl]
  -- a rotation by the whole width is one by 0
  by_cases hall : n = a.width
  · rw [hall, if_neg (by omega), Nat.mod_self, decide_eq_false (Nat.not_lt_zero i), cond_false, decide_eq_true hi,
      Nat.sub_self, Nat.zero_add, Nat.sub_zero, Bool.true_and, value_bit hwidth hi]
  rw [Nat.mod_eq_of_lt (by omega)]
  by_cases h : n ≤ i
  · rw [if_pos h, value_bit hwidth (by omega), decide_eq_false (by omega), cond_false, decide_eq_true hi, Bool.true_and]
  · rw [if_neg h, value_bit hwidth (by omega), decide_eq_true (by omega), cond_true]

theorem rshifted_rotate (hwidth : a.width < 2 ^ 32) {i : ℕ} (hn : n ≤ a.width) (hi : i < a.width) :
    rshifted a n true i = some ((a.value.rotateRight n).getLsbD i) := by
  unfold rshifted
  rw [BitVec.getLsbD_rotateRight, if_pos rfl]
  by_cases hall : n = a.width
  · rw [hall, if_neg (by omega), Nat.mod_self, Nat.sub_zero, decide_eq_true hi, cond_true, Nat.sub_self, Nat.sub_zero,
      Nat.zero_add, value_bit hwidth hi]
  rw [Nat.mod_eq_of_lt (by omega)]
  by_cases h : i < a.width - n
  · rw [if_pos h, value_bit hwidth (by omega), decide_eq_true h, cond_true, Nat.add_comm]
  · rw [if_neg h, value_bit hwidth (by omega), decide_eq_false h, cond_false, decide_eq_true hi, Bool.true_and]

/-- To the left by some positions is to the right by the others. -/
theorem lshifted_eq_rshifted {i : ℕ} (hn : n ≤ a.width) :
    lshifted a n true i = rshifted a (a.width - n) true i := by
  have hback : a.width - (a.width - n) = n := by omega
  unfold lshifted rshifted
  rw [hback, if_pos rfl, if_pos rfl]
  by_cases h : n ≤ i
  · rw [if_pos h, if_neg (by omega)]
  · rw [if_neg h, if_pos (by omega), Nat.add_comm]

/-- What is moved by `shift` is moved back by `back`. -/
theorem undone {shift back : ℕ → Option Bool} {r' : Bitarray} (h : Wrote a r 0 a.width shift)
    (h' : Wrote r r' 0 r.width back) (hback : ∀ i < a.width, back i = a.bit? i) : r' = a := by
  refine eq_of_bits (h'.width.trans h.width) fun i => ?_
  rw [h'.bits, h.bits, h.width]
  by_cases hi : 0 ≤ i ∧ i < a.width
  · rw [if_pos hi, hback i hi.2]
  · rw [if_neg hi, if_neg hi]

theorem Wrote.rshifted_back (h : Wrote a r 0 a.width (lshifted a n true)) (hn : n ≤ a.width) {i : ℕ} (hi : i < a.width) :
    rshifted r n true i = a.bit? i := by
  unfold rshifted
  rw [h.width, if_pos rfl]
  by_cases hlow : i < a.width - n
  · rw [if_pos hlow, h.bits, if_pos ⟨Nat.zero_le _, by omega⟩]
    unfold lshifted
    rw [if_pos (by omega), Nat.add_sub_cancel]
  · have hpos : a.width - n + (i - (a.width - n)) = i := by omega
    rw [if_neg hlow, h.bits, if_pos ⟨Nat.zero_le _, by omega⟩]
    unfold lshifted
    rw [if_neg (by omega), if_pos rfl, hpos]

theorem Wrote.lshifted_back (h : Wrote a r 0 a.width (rshifted a n true)) (hn : n ≤ a.width) {i : ℕ} (hi : i < a.width) :
    lshifted r n true i = a.bit? i := by
  have hback : a.width - (a.width - n) = n := by omega
  have hleft : Wrote a r 0 a.width (lshifted a (a.width - n) true) := by
    refine h.congr fun j _ _ => ?_
    rw [lshifted_eq_rshifted (Nat.sub_le _ _), hback]
  rw [lshifted_eq_rshifted (by rw [h.width]; exact hn), h.width]
  exact hleft.rshifted_back (Nat.sub_le _ _) hi

/-- **Shifts are logical shifts, and rotations are rotations.** -/
theorem shift_rotate (a : Bitarray) (n : ℕ) (hwidth : a.width < 2 ^ 32) (hn : n ≤ a.width) :
    IsValue a a.value ∧
      (∃ r, bitrLshift a n false = .ok r ∧ IsValue r (a.value <<< n)) ∧
      (∃ r, bitrRshift a n false = .ok r ∧ IsValue r (a.value >>> n)) ∧
      (∃ r, bitrLshift a n true = .ok r ∧ IsValue r (a.value.rotateLeft n) ∧ bitrRshift r n true = .ok a) ∧
      (∃ r, bitrRshift a n true = .ok r ∧ IsValue r (a.value.rotateRight n) ∧ bitrLshift r n true = .ok a) ∧
      bitrLshift a n true = bitrRshift a (a.width - n) true := by
  obtain ⟨l, hl, hl_wrote⟩ := bitrLshift_bit false hwidth hn
  obtain ⟨r, hr, hr_wrote⟩ := bitrRshift_bit false hwidth hn
  obtain ⟨lrot, hlrot, hlrot_wrote⟩ := bitrLshift_bit true hwidth hn
  obtain ⟨rrot, hrrot, hrrot_wrote⟩ := bitrRshift_bit true hwidth hn
  have hlrot_width := hlrot_wrote.width
  have hrrot_width := hrrot_wrote.width
  refine ⟨isValue_of_bits rfl fun i hi => value_bit hwidth hi, ⟨l, hl, ?_⟩, ⟨r, hr, ?_⟩, ⟨lrot, hlrot, ?_, ?_⟩,
    ⟨rrot, hrrot, ?_, ?_⟩, ?_⟩
  · exact hl_wrote.isValue fun i hi => lshifted_value hwidth hi
  · exact hr_wrote.isValue fun i _ => rshifted_value hwidth hn
  · exact hlrot_wrote.isValue fun i hi => lshifted_rotate hwidth hn hi
  · obtain ⟨back, hback, hback_wrote⟩ := bitrRshift_bit (a := lrot) (n := n) true (by omega) (by omega)
    rw [hback, undone hlrot_wrote hback_wrote fun i hi => hlrot_wrote.rshifted_back hn hi]
  · exact hrrot_wrote.isValue fun i hi => rshifted_rotate hwidth hn hi
  · obtain ⟨back, hback, hback_wrote⟩ := bitrLshift_bit (a := rrot) (n := n) true (by omega) (by omega)
    rw [hback, undone hrrot_wrote hback_wrote fun i hi => hrrot_wrote.lshifted_back hn hi]
  · obtain ⟨other, hother, hother_wrote⟩ := bitrRshift_bit (a := a) (n := a.width - n) true hwidth (Nat.sub_le _ _)
    rw [hlrot, hother, hlrot_wrote.eq_of_cover (hother_wrote.congr fun i _ _ => (lshifted_eq_rshifted hn).symm)]

theorem shift_rotate_dozen : bitrLshift dozen 5 true = bitrRshift dozen 7 true :=
  (shift_rotate dozen 5 (by decide) (by decide)).2.2.2.2.2

end Libtarp.Bitr
