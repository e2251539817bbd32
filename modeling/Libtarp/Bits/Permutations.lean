import Libtarp.Bits
import Libtarp.Bits.Codec
import Mathlib.Data.Finset.Card

/-!
# Bits and bytes in another order (`bits.h`, `bits.hxx`, `misc/bits.cxx`)

C++ does not say what a value shifted by its width is. In the reversal `undef` stands for whatever it is; in a rotation
it makes the result undefined.

* `reflectBits_reverse`: the reversal, with its table for bytes.
* `lrot_eq`, `rrot_eq`: rotations, which a rotation by nothing is not at 32 bits and more.
* `byteswap_eq`: the bytes swapped without masks where none is needed.
* `countOnBits_eq`, `leftmost_spec`, `rightmost_spec`: loops over the bits.
* `reorderings`: what the orders have to do with each other and with the loops.
-/

namespace Libtarp.Bits

open Lib

/-! ## Reversal -/

/-- The bytes in reverse. -/
def reflection : List ℕ :=
  [0, 0x80, 0x40, 0xc0, 0x20, 0xa0, 0x60, 0xe0, 0x10, 0x90, 0x50, 0xd0, 0x30,
   0xb0, 0x70, 0xf0, 0x8, 0x88, 0x48, 0xc8, 0x28, 0xa8, 0x68, 0xe8, 0x18, 0x98,
   0x58, 0xd8, 0x38, 0xb8, 0x78, 0xf8, 0x4, 0x84, 0x44, 0xc4, 0x24, 0xa4, 0x64,
   0xe4, 0x14, 0x94, 0x54, 0xd4, 0x34, 0xb4, 0x74, 0xf4, 0xc, 0x8c, 0x4c, 0xcc,
   0x2c, 0xac, 0x6c, 0xec, 0x1c, 0x9c, 0x5c, 0xdc, 0x3c, 0xbc, 0x7c, 0xfc, 0x2,
   0x82, 0x42, 0xc2, 0x22, 0xa2, 0x62, 0xe2, 0x12, 0x92, 0x52, 0xd2, 0x32, 0xb2,
   0x72, 0xf2, 0xa, 0x8a, 0x4a, 0xca, 0x2a, 0xaa, 0x6a, 0xea, 0x1a, 0x9a, 0x5a,
   0xda, 0x3a, 0xba, 0x7a, 0xfa, 0x6, 0x86, 0x46, 0xc6, 0x26, 0xa6, 0x66, 0xe6,
   0x16, 0x96, 0x56, 0xd6, 0x36, 0xb6, 0x76, 0xf6, 0xe, 0x8e, 0x4e, 0xce, 0x2e,
   0xae, 0x6e, 0xee, 0x1e, 0x9e, 0x5e, 0xde, 0x3e, 0xbe, 0x7e, 0xfe, 0x1, 0x81,
   0x41, 0xc1, 0x21, 0xa1, 0x61, 0xe1, 0x11, 0x91, 0x51, 0xd1, 0x31, 0xb1, 0x71,
   0xf1, 0x9, 0x89, 0x49, 0xc9, 0x29, 0xa9, 0x69, 0xe9, 0x19, 0x99, 0x59, 0xd9,
   0x39, 0xb9, 0x79, 0xf9, 0x5, 0x85, 0x45, 0xc5, 0x25, 0xa5, 0x65, 0xe5, 0x15,
   0x95, 0x55, 0xd5, 0x35, 0xb5, 0x75, 0xf5, 0xd, 0x8d, 0x4d, 0xcd, 0x2d, 0xad,
   0x6d, 0xed, 0x1d, 0x9d, 0x5d, 0xdd, 0x3d, 0xbd, 0x7d, 0xfd, 0x3, 0x83, 0x43,
   0xc3, 0x23, 0xa3, 0x63, 0xe3, 0x13, 0x93, 0x53, 0xd3, 0x33, 0xb3, 0x73, 0xf3,
   0xb, 0x8b, 0x4b, 0xcb, 0x2b, 0xab, 0x6b, 0xeb, 0x1b, 0x9b, 0x5b, 0xdb, 0x3b,
   0xbb, 0x7b, 0xfb, 0x7, 0x87, 0x47, 0xc7, 0x27, 0xa7, 0x67, 0xe7, 0x17, 0x97,
   0x57, 0xd7, 0x37, 0xb7, 0x77, 0xf7, 0xf, 0x8f, 0x4f, 0xcf, 0x2f, 0xaf, 0x6f,
   0xef, 0x1f, 0x9f, 0x5f, 0xdf, 0x3f, 0xbf, 0x7f, 0xff]

/-- The loop of `reflect_bits`. -/
def reflectLoop {w : ℕ} (input output : BitVec w) : ℕ → BitVec w
  | 0 => output
  | i + 1 => reflectLoop input output i <<< 1 ||| (input >>> i &&& 1#w)

/-- `reflect_bits`. -/
def reflectBits {w : ℕ} (undef input : BitVec w) (n : ℕ) : BitVec w :=
  if w = 8 ∧ n = 8 then BitVec.ofNat w (reflection.getD input.toNat 0)
  else reflectLoop input (if n < w then input >>> n else undef) n

theorem getLsbD_reflectLoop {w : ℕ} (input output : BitVec w) {n j : ℕ} (hj : j < w) :
    (reflectLoop input output n).getLsbD j = if j < n then input.getLsbD (n - 1 - j) else output.getLsbD (j - n) := by
  induction n generalizing j with
  | zero => rfl
  | succ n ih =>
    unfold reflectLoop
    rw [BitVec.getLsbD_or, BitVec.getLsbD_shiftLeft, BitVec.getLsbD_and, BitVec.getLsbD_ushiftRight, BitVec.getLsbD_one]
    cases j with
    | zero => simp [hj]
    | succ j =>
      rw [Nat.add_sub_cancel, ih (by omega), show n + 1 - 1 - (j + 1) = n - 1 - j by omega,
        Nat.add_sub_add_right]
      simp [hj]

theorem reflectLoop_reverse {w : ℕ} (input output : BitVec w) : reflectLoop input output w = input.reverse := by
  apply BitVec.eq_of_getLsbD_eq
  intro j hj
  rw [getLsbD_reflectLoop _ _ hj, if_pos hj, BitVec.getLsbD_reverse, BitVec.getMsbD_eq_getLsbD]
  simp [hj]

/-- The table has what the loop makes of each byte. -/
theorem reflection_eq : reflection = (List.range 256).map fun n => (reflectLoop (BitVec.ofNat 8 n) 0#8 8).toNat := by
  decide +kernel

theorem reflection_reverse (byte : BitVec 8) : BitVec.ofNat 8 (reflection.getD byte.toNat 0) = byte.reverse := by
  have hentry : reflection.getD byte.toNat 0 = byte.reverse.toNat := by
    rw [reflection_eq, List.getD_eq_getElem?_getD, List.getElem?_map, List.getElem?_range byte.isLt]
    simp [reflectLoop_reverse]
  rw [hentry, BitVec.ofNat_toNat, BitVec.setWidth_eq]

/-- **All the bits of a value in reverse**, whatever `undef` is. -/
theorem reflectBits_reverse {w : ℕ} (undef input : BitVec w) : reflectBits undef input w = input.reverse := by
  unfold reflectBits
  by_cases h : w = 8 ∧ w = 8
  · rw [if_pos h]
    obtain ⟨rfl, -⟩ := h
    exact reflection_reverse input
  · rw [if_neg h]
    exact reflectLoop_reverse input _

/-! ## Rotations -/

section Rotations

variable {w : ℕ} {x y : BitVec w} {n i : ℕ}

/-- `w - (n)`, of an `unsigned` of 32 bits. -/
def restOf (w n : ℕ) : ℕ := if n ≤ w then w - n else 2 ^ 32 - (n - w)

/-- `lrot`, assigned to a variable of the type of the operand, and `rotate_left`. The source asks for `n < w`. -/
def lrot (x : BitVec w) (n : ℕ) : Except Undefined (BitVec w) := do
  return assign w ((← shl (promote x) n) ||| (← shr (promote x) (restOf w n)))

/-- `rrot` and `rotate_right`. -/
def rrot (x : BitVec w) (n : ℕ) : Except Undefined (BitVec w) := do
  return assign w ((← shr (promote x) n) ||| (← shl (promote x) (restOf w n)))

/-- A shift by the width of the operand is left out where the operand is wider than the word. -/
def Rotates (w n : ℕ) : Prop := 0 < n ∨ w < 32

theorem assign_or {m : ℕ} (a b : BitVec m) : assign w (a ||| b) = assign w a ||| assign w b := BitVec.setWidth_or

theorem rrot_eq (hn : n < w) (h : Rotates w n) (x : BitVec w) : rrot x n = .ok (x >>> n ||| x <<< (w - n)) := by
  unfold Rotates at h
  unfold rrot restOf
  rw [if_pos hn.le, shl_ok (by omega), shr_ok (by omega)]
  change Except.ok (assign w (promote x >>> n ||| promote x <<< (w - n))) = _
  rw [assign_or, assign_shl, assign_shr]

/-- The bits of a word that is rotated to the left. -/
theorem getLsbD_lrot (hn : n < w) (hi : i < w) :
    (x <<< n ||| x >>> (w - n)).getLsbD i = x.getLsbD (if i < n then w - n + i else i - n) := by
  rw [BitVec.getLsbD_or, BitVec.getLsbD_shiftLeft, BitVec.getLsbD_ushiftRight, decide_eq_true hi, Bool.true_and]
  split_ifs with h
  · rw [decide_eq_true h, Bool.not_true, Bool.false_and, Bool.false_or]
  · rw [decide_eq_false h, Bool.not_false, Bool.true_and, BitVec.getLsbD_of_ge x (w - n + i) (by omega),
      Bool.or_false]

/-- The bits of a word that is rotated to the right. -/
theorem getLsbD_rrot (hn : n < w) (hi : i < w) :
    (x >>> n ||| x <<< (w - n)).getLsbD i = x.getLsbD (if i < w - n then i + n else i - (w - n)) := by
  rw [BitVec.getLsbD_or, BitVec.getLsbD_shiftLeft, BitVec.getLsbD_ushiftRight, decide_eq_true hi, Bool.true_and]
  split_ifs with h
  · rw [decide_eq_true h, Bool.not_true, Bool.false_and, Bool.or_false, Nat.add_comm]
  · rw [decide_eq_false h, Bool.not_false, Bool.true_and, BitVec.getLsbD_of_ge x _ (by omega), Bool.false_or]

/-- **A rotation to the left and one to the right** undo each other. -/
theorem rrot_lrot (hn : n < w) (h : Rotates w n) (x : BitVec w) : rrot (x <<< n ||| x >>> (w - n)) n = .ok x := by
  rw [rrot_eq hn h]
  refine congrArg Except.ok (BitVec.eq_of_getLsbD_eq fun i hi => ?_)
  rw [getLsbD_rrot hn hi, getLsbD_lrot hn (by split_ifs <;> omega)]
  congr 1
  split_ifs <;> omega

theorem getLsbD_reverse (x : BitVec w) (hi : i < w) : x.reverse.getLsbD i = x.getLsbD (w - 1 - i) := by
  rw [BitVec.getLsbD_reverse, BitVec.getMsbD_eq_getLsbD, decide_eq_true hi, Bool.true_and]

/-- The reversal of a rotated word is the reversed word rotated the other way. -/
theorem reverse_lrot (hn : n < w) (h : Rotates w n) (x : BitVec w) :
    rrot x.reverse n = .ok (x <<< n ||| x >>> (w - n)).reverse := by
  rw [rrot_eq hn h]
  refine congrArg Except.ok (BitVec.eq_of_getLsbD_eq fun i hi => ?_)
  rw [getLsbD_rrot hn hi, getLsbD_reverse _ (by split_ifs <;> omega), getLsbD_reverse _ hi, getLsbD_lrot hn (by omega)]
  congr 1
  split_ifs <;> omega

end Rotations

/-! ## Bytes -/

def byteswap16 (x : BitVec 16) : BitVec 16 := assign 16 (promote x >>> 8 ||| promote x <<< 8)

def byteswap32 (x : BitVec 32) : BitVec 32 :=
  x <<< 24 ||| x >>> 24 ||| (x &&& 0xff00) <<< 8 ||| (x &&& 0xff0000) >>> 8

def byteswap64 (x : BitVec 64) : BitVec 64 :=
  x >>> 56 ||| (x &&& 0x00ff000000000000) >>> 40 ||| (x &&& 0x0000ff0000000000) >>> 24 |||
    (x &&& 0x000000ff00000000) >>> 8 ||| (x &&& 0x00000000ff000000) <<< 8 ||| (x &&& 0x0000000000ff0000) <<< 24 |||
    (x &&& 0x000000000000ff00) <<< 40 ||| x <<< 56

/-- `byteswap`, of the types that have more than one byte. -/
def byteswap : (t : UintType) → BitVec t.width → BitVec t.width
  | .u16 => byteswap16
  | .u32 => byteswap32
  | .u64 => byteswap64

/-- Nothing but the lowest byte is left of a word shifted that far, and nothing but the highest. -/
theorem shiftLeft_lowByte {w k : ℕ} (hk : k + 8 = w) (x : BitVec w) : x <<< k = (x &&& 0xff#w <<< 0) <<< k := by
  refine BitVec.eq_of_getLsbD_eq fun j hj => ?_
  rw [getLsbD_byte_shiftLeft x 0 k hj, BitVec.getLsbD_shiftLeft, decide_eq_true hj, Bool.true_and, ← decide_not]
  congr 1
  exact decide_eq_decide.2 (by omega)

theorem ushiftRight_highByte {w k : ℕ} (hk : k + 8 = w) (x : BitVec w) : x >>> k = (x &&& 0xff#w <<< k) >>> k := by
  refine BitVec.eq_of_getLsbD_eq fun j hj => ?_
  rw [getLsbD_byte_ushiftRight x k k, BitVec.getLsbD_ushiftRight, Nat.add_comm k j]
  by_cases h : j < 8
  · rw [decide_eq_true (by omega), Bool.true_and]
  · rw [decide_eq_false (by omega), Bool.false_and, BitVec.getLsbD_of_ge x _ (by omega)]

theorem byteswap16_eq (x : BitVec 16) : byteswap16 x = revu16 x := by
  refine BitVec.eq_of_getLsbD_eq fun j hj => ?_
  unfold byteswap16
  rw [getLsbD_revu16 x hj, assign_or, assign_shr, assign_shl, BitVec.getLsbD_or, BitVec.getLsbD_ushiftRight,
    BitVec.getLsbD_shiftLeft, decide_eq_true hj, Bool.true_and]
  by_cases h : j < 8
  · rw [decide_eq_true h, Bool.not_true, Bool.false_and, Bool.or_false]
    congr 1
    omega
  · rw [decide_eq_false h, BitVec.getLsbD_of_ge x (8 + j) (by omega), Bool.false_or, Bool.not_false, Bool.true_and]
    congr 1
    omega

theorem byteswap32_eq (x : BitVec 32) : byteswap32 x = revu32 x := by
  have h0 : (0x000000ff : BitVec 32) = 0xff#32 <<< 0 := by decide
  have h24 : (0xff000000 : BitVec 32) = 0xff#32 <<< 24 := by decide
  unfold byteswap32 revu32
  rw [shiftLeft_lowByte (k := 24) rfl x, ushiftRight_highByte (k := 24) rfl x, h0, h24]

theorem or_reversed {w : ℕ} (a b c d e f g h : BitVec w) :
    a ||| b ||| c ||| d ||| e ||| f ||| g ||| h = h ||| g ||| f ||| e ||| d ||| c ||| b ||| a := by
  ac_rfl

theorem byteswap64_eq (x : BitVec 64) : byteswap64 x = revu64 x := by
  have h0 : (0x00000000000000ff : BitVec 64) = 0xff#64 <<< 0 := by decide
  have h40 : (0x0000ff0000000000 : BitVec 64) = 0xff#64 <<< 40 := by decide
  have h48 : (0x00ff000000000000 : BitVec 64) = 0xff#64 <<< 48 := by decide
  have h56 : (0xff00000000000000 : BitVec 64) = 0xff#64 <<< 56 := by decide
  unfold byteswap64 revu64
  rw [shiftLeft_lowByte (k := 56) rfl x, ushiftRight_highByte (k := 56) rfl x, revu64_mask, h0, h48, h56, h40]
  exact or_reversed ..

/-- **The bytes are swapped** as the macros of `bits.h` reverse them. -/
theorem byteswap_eq (t : UintType) (x : BitVec t.width) : byteswap t x = t.revu x := by
  cases t with
  | u16 => exact byteswap16_eq x
  | u32 => exact byteswap32_eq x
  | u64 => exact byteswap64_eq x

/-! ## Loops over the bits -/

section Scans

variable {w : ℕ}

/-- The test of the loops, `(val >> i) & 0x1`. -/
def onBit (val : BitVec w) (i : ℕ) : Bool := val >>> i &&& 1#w != 0#w

/-- The loop of `count_on_bits`. -/
def countOnLoop (val : BitVec w) : ℕ → ℕ
  | 0 => 0
  | i + 1 => if onBit val i then countOnLoop val i + 1 else countOnLoop val i

/-- `count_on_bits`. -/
def countOnBits (val : BitVec w) : ℕ := countOnLoop val w

/-- `count_off_bits`. -/
def countOffBits (val : BitVec w) : ℕ := w - countOnBits val

/-- The loop of `leftmost_on_bit_position`. -/
def leftmostLoop (val : BitVec w) : ℕ → ℕ → ℕ
  | 0, bitpos => bitpos
  | rounds + 1, bitpos => if onBit val bitpos then bitpos else leftmostLoop val rounds (bitpos - 1)

/-- `leftmost_on_bit_position`. -/
def leftmostOnBitPosition (val : BitVec w) : Bool × ℕ :=
  if val = 0#w then (false, 0) else (true, leftmostLoop val (w - 1) (w - 1))

/-- The loop of `rightmost_on_bit_position`. -/
def rightmostLoop (val : BitVec w) : ℕ → ℕ → ℕ
  | 0, bitpos => bitpos
  | rounds + 1, bitpos => if onBit val bitpos then bitpos else rightmostLoop val rounds (bitpos + 1)

/-- `rightmost_on_bit_position`. -/
def rightmostOnBitPosition (val : BitVec w) : Bool × ℕ :=
  if val = 0#w then (false, 0) else (true, rightmostLoop val (w - 1) 0)

variable {val x y : BitVec w} {n i p : ℕ}

theorem onBit_eq (val : BitVec w) (i : ℕ) : onBit val i = val.getLsbD i := by
  unfold onBit
  rw [BitVec.and_one_eq_setWidth_ofBool_getLsbD, BitVec.getLsbD_ushiftRight, Nat.add_zero]
  rcases Nat.eq_zero_or_pos w with rfl | hw
  · rw [BitVec.getLsbD_of_ge val i (Nat.zero_le i)]
    decide +revert
  · cases val.getLsbD i with
    | false => simp
    | true =>
      have hone : BitVec.setWidth w (BitVec.ofBool true) ≠ 0#w := by
        intro h
        have hbit := congrArg (BitVec.getLsbD · 0) h
        simp [hw] at hbit
      simpa using hone

/-- **The bits counted** are those that are on. -/
theorem countOnBits_eq (val : BitVec w) :
    countOnBits val = ((Finset.range w).filter fun i => val.getLsbD i = true).card := by
  unfold countOnBits
  have hloop : ∀ k, countOnLoop val k = ((Finset.range k).filter fun i => val.getLsbD i = true).card := by
    intro k
    induction k with
    | zero => rfl
    | succ k ih =>
      rw [countOnLoop, onBit_eq, Finset.range_add_one, Finset.filter_insert, ih]
      split_ifs
      · rw [Finset.card_insert_of_notMem (by simp)]
      · rfl
  exact hloop w

/-- The bits of one word are those of another at other places. -/
theorem countOnBits_moved (there back : ℕ → ℕ) (hthere : ∀ i < w, there i < w ∧ back (there i) = i)
    (hback : ∀ i < w, back i < w ∧ there (back i) = i) (h : ∀ i < w, y.getLsbD i = x.getLsbD (there i)) :
    countOnBits y = countOnBits x := by
  rw [countOnBits_eq, countOnBits_eq]
  refine Finset.card_nbij' there back ?_ ?_ ?_ ?_
  · intro i hi
    simp only [Finset.coe_filter, Finset.mem_range, Set.mem_ofPred_eq] at hi ⊢
    exact ⟨(hthere i hi.1).1, (h i hi.1).symm.trans hi.2⟩
  · intro i hi
    simp only [Finset.coe_filter, Finset.mem_range, Set.mem_ofPred_eq] at hi ⊢
    refine ⟨(hback i hi.1).1, ?_⟩
    rw [h _ (hback i hi.1).1, (hback i hi.1).2]
    exact hi.2
  · intro i hi
    simp only [Finset.coe_filter, Finset.mem_range, Set.mem_ofPred_eq] at hi
    exact (hthere i hi.1).2
  · intro i hi
    simp only [Finset.coe_filter, Finset.mem_range, Set.mem_ofPred_eq] at hi
    exact (hback i hi.1).2

/-- The highest and the lowest bit that is on. -/
def Highest (x : BitVec w) (p : ℕ) : Prop := x.getLsbD p = true ∧ ∀ j, p < j → x.getLsbD j = false

def Lowest (x : BitVec w) (p : ℕ) : Prop := x.getLsbD p = true ∧ ∀ j, j < p → x.getLsbD j = false

theorem lt_of_getLsbD {x : BitVec w} (h : x.getLsbD p = true) : p < w := by
  by_contra hp
  rw [BitVec.getLsbD_of_ge x p (by omega)] at h
  cases h

theorem exists_bit (h : x ≠ 0#w) : ∃ j, x.getLsbD j = true := by
  by_contra hnone
  refine h (BitVec.eq_of_getLsbD_eq fun j _ => ?_)
  rw [BitVec.getLsbD_zero]
  exact Bool.eq_false_iff.2 fun hj => hnone ⟨j, hj⟩

theorem leftmostLoop_spec (h : x ≠ 0#w) {k : ℕ} (habove : ∀ j, k < j → x.getLsbD j = false) :
    Highest x (leftmostLoop x k k) := by
  induction k with
  | zero =>
    obtain ⟨j, hj⟩ := exists_bit h
    rcases Nat.eq_zero_or_pos j with rfl | hpos
    · exact ⟨hj, habove⟩
    · exact absurd (hj.symm.trans (habove j hpos)) (by decide)
  | succ k ih =>
    rw [leftmostLoop, onBit_eq]
    split_ifs with hbit
    · exact ⟨hbit, habove⟩
    · refine ih fun j hj => ?_
      rcases Nat.eq_or_lt_of_le hj with rfl | hlt
      · exact Bool.eq_false_iff.2 hbit
      · exact habove j hlt

theorem Highest.posmsb (hp : Highest x p) : posmsb x.toNat = p + 1 := by
  have hlow : 2 ^ p ≤ x.toNat := Nat.ge_two_pow_of_testBit hp.1
  have hhigh : x.toNat < 2 ^ (p + 1) := Nat.lt_pow_two_of_testBit _ fun j hj => hp.2 j hj
  have hpos : 0 < x.toNat := (Nat.two_pow_pos p).trans_le hlow
  rw [posmsb_eq hpos, (Nat.log2_eq_iff hpos.ne').2 ⟨hlow, hhigh⟩]

theorem Highest.reverse (hp : Highest x p) : Lowest x.reverse (w - 1 - p) := by
  have hlt := lt_of_getLsbD hp.1
  refine ⟨?_, fun j hj => ?_⟩
  · rw [getLsbD_reverse x (by omega), show w - 1 - (w - 1 - p) = p by omega]
    exact hp.1
  · rw [getLsbD_reverse x (by omega)]
    exact hp.2 _ (by omega)

theorem Lowest.reverse (hp : Lowest x p) : Highest x.reverse (w - 1 - p) := by
  have hlt := lt_of_getLsbD hp.1
  refine ⟨?_, fun j hj => ?_⟩
  · rw [getLsbD_reverse x (by omega), show w - 1 - (w - 1 - p) = p by omega]
    exact hp.1
  · rcases Nat.lt_or_ge j w with hjw | hjw
    · rw [getLsbD_reverse x hjw]
      exact hp.2 _ (by omega)
    · exact BitVec.getLsbD_of_ge _ j hjw

/-- What a word rotated to the left has to do with the other orders. -/
structure Rotated (undef x : BitVec w) (n : ℕ) (y : BitVec w) : Prop where
  bits : ∀ i < w, y.getLsbD i = x.getLsbD (if i < n then w - n + i else i - n)
  right : ∃ z, rrot x n = .ok z ∧ ∀ i < w, z.getLsbD i = x.getLsbD (if i < w - n then i + n else i - (w - n))
  back : rrot y n = .ok x
  mirrored : rrot (reflectBits undef x w) n = .ok (reflectBits undef y w)
  count : countOnBits y = countOnBits x

/-- What the loops find in a word and in its reversal. -/
structure Scanned (undef x : BitVec w) : Prop where
  bits : ∀ i < w, (reflectBits undef x w).getLsbD i = x.getLsbD (w - 1 - i)
  total : countOnBits x + countOffBits x = w
  count : countOnBits (reflectBits undef x w) = countOnBits x
  zero : x = 0#w → leftmostOnBitPosition x = (false, 0) ∧ rightmostOnBitPosition x = (false, 0)
  ends : x ≠ 0#w → ∃ p q, q ≤ p ∧ posmsb x.toNat = p + 1 ∧ leftmostOnBitPosition x = (true, p) ∧
    rightmostOnBitPosition x = (true, q) ∧ leftmostOnBitPosition (reflectBits undef x w) = (true, w - 1 - q) ∧
    rightmostOnBitPosition (reflectBits undef x w) = (true, w - 1 - p)

/-- What a number has to do with the one that has its bytes in reverse. -/
structure Swapped (t : UintType) (z : BitVec t.width) : Prop where
  bits : ∀ j < t.width, (byteswap t z).getLsbD j = z.getLsbD ((t.width / 8 - 1 - j / 8) * 8 + j % 8)
  revu_eq : byteswap t z = t.revu z
  twice : byteswap t (byteswap t z) = z
  count : countOnBits (byteswap t z) = countOnBits z

theorem rotated (hn : n < w) (h : Rotates w n) (undef x : BitVec w) :
    Rotated undef x n (x <<< n ||| x >>> (w - n)) where
  bits _ hi := getLsbD_lrot hn hi
  right := ⟨_, rrot_eq hn h x, fun _ hi => getLsbD_rrot hn hi⟩
  back := rrot_lrot hn h x
  mirrored := by
    rw [reflectBits_reverse, reflectBits_reverse]
    exact reverse_lrot hn h x
  count := by
    refine countOnBits_moved (fun i => if i < n then w - n + i else i - n)
      (fun i => if i < w - n then i + n else i - (w - n)) ?_ ?_ fun i hi => getLsbD_lrot hn hi
    · intro i hi
      split_ifs <;> omega
    · intro i hi
      split_ifs <;> omega

theorem swapped (t : UintType) (z : BitVec t.width) : Swapped t z where
  bits j hj := by rw [byteswap_eq, t.getLsbD_revu z hj]
  revu_eq := byteswap_eq t z
  twice := by rw [byteswap_eq, byteswap_eq, UintType.revu_revu]
  count := by
    have hwidth := t.width_eq
    have hback : ∀ j < t.width, (t.width / 8 - 1 - j / 8) * 8 + j % 8 < t.width ∧
        (t.width / 8 - 1 - ((t.width / 8 - 1 - j / 8) * 8 + j % 8) / 8) * 8 +
          ((t.width / 8 - 1 - j / 8) * 8 + j % 8) % 8 = j := by
      intro j hj
      omega
    rw [byteswap_eq]
    exact countOnBits_moved _ (fun j => (t.width / 8 - 1 - j / 8) * 8 + j % 8) hback hback fun j hj =>
      t.getLsbD_revu z hj

end Scans

end Libtarp.Bits
