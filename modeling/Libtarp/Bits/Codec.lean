import Libtarp.Lib.Promotion
import Mathlib.Data.Nat.Init

/-!
# Numbers packed in buffers (`bits.h`)

* `packBuffLe`, `packBuffBe`, `loadUintLe`, `loadUintBe`: the bytes of a number in a buffer, and back.
* `revu16`, `revu32`, `revu64`: a number with its bytes the other way round, by masks.
* `load_pack`: what is loaded in one order of what is packed in one.
* `getLsbD_revu`: the bits of the masks.
-/

namespace Libtarp.Bits

open Lib

variable {N n : ℕ}

/-! ## The macros of the source -/

/-- `((num >> bytes2bits(pos_)) & FULL_BYTE)`, stored in a byte. -/
def packedByte (num : BitVec N) (pos : ℕ) : Except Undefined UInt8 := do
  return UInt8.ofBitVec (assign 8 ((← shr (promote num) (pos * 8)) &&& 0xFF))

/-- The loops of `pack_buff_le` and `pack_buff_be`, with the places of the bytes. -/
def packBytes (num : BitVec N) (place : ℕ → ℕ) : ℕ → List UInt8 → Except Undefined (List UInt8)
  | 0, buff => .ok buff
  | pos + 1, buff => do
    let buff ← packBytes num place pos buff
    return buff.set (place pos) (← packedByte num pos)

/-- `pack_buff_le`. -/
def packBuffLe (num : BitVec N) (buff : List UInt8) : Except Undefined (List UInt8) :=
  packBytes num (fun pos => pos) (N / 8) buff

/-- `pack_buff_be`: `p_` goes down from the end. -/
def packBuffBe (num : BitVec N) (buff : List UInt8) : Except Undefined (List UInt8) :=
  packBytes num (fun pos => N / 8 - 1 - pos) (N / 8) buff

/-- The loops of `load_uint_le` and `load_uint_be`, with the places of the bytes in the number. -/
def loadBytes (N : ℕ) (buff : List UInt8) (place : ℕ → ℕ) : ℕ → Except Undefined (BitVec N)
  | 0 => .ok 0
  | i + 1 => do
    let num ← loadBytes N buff place i
    let part ← shl (promote (BitVec.ofNat N (buff.getD i 0).toNat)) (place i * 8)
    return assign N (promote num ||| part)

/-- `load_uint_le`. -/
def loadUintLe (N : ℕ) (buff : List UInt8) : Except Undefined (BitVec N) := loadBytes N buff (fun i => i) (N / 8)

/-- `load_uint_be`. -/
def loadUintBe (N : ℕ) (buff : List UInt8) : Except Undefined (BitVec N) :=
  loadBytes N buff (fun i => N / 8 - 1 - i) (N / 8)

/-- `revu64`. -/
def revu64 (i : BitVec 64) : BitVec 64 :=
  (i &&& 0x00000000000000ff) <<< 56 ||| (i &&& 0x000000000000ff00) <<< 40 ||| (i &&& 0x0000000000ff0000) <<< 24 |||
    (i &&& 0x00000000ff000000) <<< 8 ||| (i &&& 0x000000ff00000000) >>> 8 ||| (i &&& 0x0000ff000000ff00) >>> 24 |||
    (i &&& 0x00ff000000000000) >>> 40 ||| (i &&& 0xff00000000000000) >>> 56

/-- `revu32`. -/
def revu32 (i : BitVec 32) : BitVec 32 :=
  (i &&& 0x000000ff) <<< 24 ||| (i &&& 0xff000000) >>> 24 ||| (i &&& 0x0000ff00) <<< 8 ||| (i &&& 0x00ff0000) >>> 8

/-- `revu16`; the operands are of an `int`. -/
def revu16 (i : BitVec 16) : BitVec 16 :=
  assign 16 ((promote i &&& 0xff00) >>> 8 ||| (promote i &&& 0x00ff) <<< 8)

/-! ## What is packed and loaded -/

/-- The orders of the bytes: a place below the size for each, and the same way back. -/
def Order (n : ℕ) (place : ℕ → ℕ) : Prop := ∀ i, i < n → place i < n ∧ place (place i) = i

variable {place place' : ℕ → ℕ} {buff : List UInt8} {num : BitVec N}

theorem order_le (n : ℕ) : Order n (fun i => i) := fun _ h => ⟨h, rfl⟩

theorem order_be (n : ℕ) : Order n (fun i => n - 1 - i) := by
  intro i h
  dsimp only
  omega

/-- The bits of a byte that is all ones. -/
theorem getLsbD_fullByte {m r : ℕ} (hr : r < m) : (0xFF : BitVec m).getLsbD r = decide (r < 8) := by
  rw [BitVec.ofNat_eq_ofNat, BitVec.getLsbD_ofNat, decide_eq_true hr, Bool.true_and]
  exact Nat.testBit_two_pow_sub_one 8 r

/-- A byte of a number. -/
theorem packedByte_eq {pos : ℕ} (hpos : pos * 8 + 8 ≤ N) (num : BitVec N) :
    ∃ byte, packedByte num pos = .ok byte ∧ ∀ r, r < 8 → byte.toBitVec.getLsbD r = num.getLsbD (pos * 8 + r) := by
  unfold packedByte
  rw [shr_ok (by omega)]
  refine ⟨_, rfl, fun r hr => ?_⟩
  rw [getLsbD_assign _ hr, BitVec.getLsbD_and, BitVec.getLsbD_ushiftRight, getLsbD_promote, getLsbD_fullByte (by omega),
    decide_eq_true hr, Bool.and_true]

/-- The bytes that have been packed, and the rest of the buffer. -/
theorem packBytes_eq (num : BitVec N) (horder : Order (N / 8) place) (hbuff : N / 8 ≤ buff.length) {count : ℕ} (hcount : count ≤ N / 8) :
    ∃ out, packBytes num place count buff = .ok out ∧ out.length = buff.length ∧
      (∀ i, N / 8 ≤ i → out[i]? = buff[i]?) ∧
      ∀ pos, pos < count → ∃ byte, out[place pos]? = some byte ∧
        ∀ r, r < 8 → byte.toBitVec.getLsbD r = num.getLsbD (pos * 8 + r) := by
  induction count with
  | zero => exact ⟨buff, rfl, rfl, fun _ _ => rfl, fun pos h => absurd h (Nat.not_lt_zero pos)⟩
  | succ count ih =>
    obtain ⟨out, hrun, hlength, hrest, hbytes⟩ := ih (by omega)
    obtain ⟨byte, hbyte, hbits⟩ := packedByte_eq (by omega : count * 8 + 8 ≤ N) num
    obtain ⟨hplace, hback⟩ := horder count (by omega)
    refine ⟨out.set (place count) byte, ?_, by rw [List.length_set, hlength], fun i hi => ?_, fun pos hpos => ?_⟩
    · rw [packBytes, hrun]
      change (packedByte num count >>= fun b => Except.ok (out.set (place count) b)) = _
      rw [hbyte]
      rfl
    · rw [List.getElem?_set_ne (by omega), hrest i hi]
    · by_cases h : pos = count
      · subst h
        refine ⟨byte, ?_, hbits⟩
        rw [List.getElem?_set_self (by omega)]
      · have hne : place count ≠ place pos := by
          intro heq
          have := (horder pos (by omega)).2
          rw [← heq, hback] at this
          omega
        rw [List.getElem?_set_ne hne]
        exact hbytes pos (by omega)

/-- The bits that have been loaded. -/
theorem loadBytes_eq (buff : List UInt8) (hN : N = N / 8 * 8) (horder : Order (N / 8) place) {count : ℕ} (hcount : count ≤ N / 8) :
    ∃ num, loadBytes N buff place count = .ok num ∧ ∀ j, j < N → num.getLsbD j =
      (decide (place (j / 8) < count) && (buff.getD (place (j / 8)) 0).toBitVec.getLsbD (j % 8)) := by
  induction count with
  | zero =>
    refine ⟨0, rfl, fun j _ => ?_⟩
    rw [BitVec.ofNat_eq_ofNat, BitVec.getLsbD_zero, decide_eq_false (Nat.not_lt_zero _), Bool.false_and]
  | succ count ih =>
    obtain ⟨num, hrun, hbits⟩ := ih (by omega)
    obtain ⟨hplace, hback⟩ := horder count (by omega)
    refine ⟨assign N (promote num ||| promote (BitVec.ofNat N (buff.getD count 0).toNat) <<< (place count * 8)), ?_,
      fun j hj => ?_⟩
    · rw [loadBytes, hrun]
      change (shl _ _ >>= fun part => Except.ok (assign N (promote num ||| part))) = _
      rw [shl_ok (by omega)]
      rfl
    · rw [getLsbD_assign _ hj, BitVec.getLsbD_or, getLsbD_promote, hbits j hj, BitVec.getLsbD_shiftLeft, getLsbD_promote,
        decide_eq_true (by omega : j < max N 32), Bool.true_and]
      obtain ⟨hj8, hj8_back⟩ := horder (j / 8) (by omega)
      by_cases h : place (j / 8) = count
      · have hj_place : place count = j / 8 := by rw [← h, hj8_back]
        rw [h, hj_place, decide_eq_false (Nat.lt_irrefl count), decide_eq_true (Nat.lt_succ_self count),
          decide_eq_false (by omega : ¬j < j / 8 * 8), BitVec.getLsbD_ofNat, decide_eq_true (by omega),
          show j - j / 8 * 8 = j % 8 by omega, Bool.false_and, Bool.false_or, Bool.not_false, Bool.true_and, Bool.true_and]
        rfl
      · have hnot : (!decide (j < place count * 8) &&
            (BitVec.ofNat N (buff.getD count 0).toNat).getLsbD (j - place count * 8)) = false := by
          rcases Nat.lt_or_ge j (place count * 8) with hlow | hhigh
          · rw [decide_eq_true hlow, Bool.not_true, Bool.false_and]
          · have hne : j / 8 ≠ place count := fun heq => h (by rw [heq, hback])
            have hbyte : (buff.getD count 0).toNat < 2 ^ 8 := (buff.getD count 0).toNat_lt
            rw [BitVec.getLsbD_ofNat, Nat.testBit_lt_two_pow (Nat.lt_of_lt_of_le hbyte
              (Nat.pow_le_pow_right (by decide) (by omega))), Bool.and_false, Bool.and_false]
        rw [hnot, Bool.or_false]
        congr 1
        exact decide_eq_decide.2 (by omega)

/-- What is loaded in one order of what is packed in one. -/
theorem load_pack (hN : N = N / 8 * 8) (horder : Order (N / 8) place) (horder' : Order (N / 8) place')
    (hbuff : N / 8 ≤ buff.length) (num : BitVec N) :
    ∃ out loaded, packBytes num place (N / 8) buff = .ok out ∧ loadBytes N out place' (N / 8) = .ok loaded ∧
      ∀ j, j < N → loaded.getLsbD j = num.getLsbD (place (place' (j / 8)) * 8 + j % 8) := by
  obtain ⟨out, hpack, -, -, hbytes⟩ := packBytes_eq num horder hbuff (Nat.le_refl _)
  obtain ⟨loaded, hload, hbits⟩ := loadBytes_eq out hN horder' (Nat.le_refl _)
  refine ⟨out, loaded, hpack, hload, fun j hj => ?_⟩
  obtain ⟨hplace', -⟩ := horder' (j / 8) (by omega)
  obtain ⟨hplace, hback⟩ := horder (place' (j / 8)) hplace'
  obtain ⟨byte, hbyte, hbits_byte⟩ := hbytes (place (place' (j / 8))) hplace
  rw [hback] at hbyte
  rw [hbits j hj, decide_eq_true hplace', Bool.true_and, List.getD_eq_getElem?_getD, hbyte, Option.getD_some,
    hbits_byte _ (by omega)]

/-! ## The reversal by masks -/

/-- A mask of one byte. -/
theorem getLsbD_byteMask {w : ℕ} (a : ℕ) {i : ℕ} (hi : i < w) :
    (0xff#w <<< a).getLsbD i = decide (a ≤ i ∧ i < a + 8) := by
  rw [BitVec.getLsbD_shiftLeft, decide_eq_true hi, Bool.true_and]
  rcases Nat.lt_or_ge i a with h | h
  · rw [decide_eq_true h, Bool.not_true, Bool.false_and, decide_eq_false (by omega)]
  · rw [decide_eq_false (by omega), Bool.not_false, Bool.true_and, ← BitVec.ofNat_eq_ofNat,
      getLsbD_fullByte (by omega)]
    exact decide_eq_decide.2 (by omega)

/-- A byte that is moved up. -/
theorem getLsbD_byte_shiftLeft {w : ℕ} (x : BitVec w) (a k : ℕ) {j : ℕ} (hj : j < w) :
    ((x &&& 0xff#w <<< a) <<< k).getLsbD j = (decide (a + k ≤ j ∧ j < a + k + 8) && x.getLsbD (j - k)) := by
  rw [BitVec.getLsbD_shiftLeft, BitVec.getLsbD_and, getLsbD_byteMask a (by omega), decide_eq_true hj, Bool.true_and,
    Bool.and_comm (x.getLsbD _), ← Bool.and_assoc]
  congr 1
  rw [← decide_not, ← Bool.decide_and]
  exact decide_eq_decide.2 (by omega)

/-- A byte that is moved down. -/
theorem getLsbD_byte_ushiftRight {w : ℕ} (x : BitVec w) (a k : ℕ) {j : ℕ} :
    ((x &&& 0xff#w <<< a) >>> k).getLsbD j = (decide (a ≤ j + k ∧ j + k < a + 8) && x.getLsbD (j + k)) := by
  rw [BitVec.getLsbD_ushiftRight, BitVec.getLsbD_and, Nat.add_comm k j]
  rcases Nat.lt_or_ge (j + k) w with h | h
  · rw [getLsbD_byteMask a h, Bool.and_comm]
  · rw [BitVec.getLsbD_of_ge x _ h, Bool.false_and, Bool.and_false]

/-- The second byte of the mask is shifted out. -/
theorem revu64_mask (x : BitVec 64) : (x &&& 0x0000ff000000ff00) >>> 24 = (x &&& 0xff#64 <<< 40) >>> 24 := by
  have hmask : (0x0000ff000000ff00 : BitVec 64) = 0xff#64 <<< 40 ||| 0xff#64 <<< 8 := by decide
  refine BitVec.eq_of_getLsbD_eq (fun j hj => ?_)
  rw [hmask, BitVec.getLsbD_ushiftRight, BitVec.getLsbD_ushiftRight, BitVec.getLsbD_and, BitVec.getLsbD_and,
    BitVec.getLsbD_or]
  rcases Nat.lt_or_ge (24 + j) 64 with h | h
  · rw [getLsbD_byteMask 8 h, decide_eq_false (by omega), Bool.or_false]
  · rw [BitVec.getLsbD_of_ge x _ h, Bool.false_and, Bool.false_and]

theorem getLsbD_revu64 (x : BitVec 64) {j : ℕ} (hj : j < 64) :
    (revu64 x).getLsbD j = x.getLsbD ((7 - j / 8) * 8 + j % 8) := by
  have h0 : (0x00000000000000ff : BitVec 64) = 0xff#64 <<< 0 := by decide
  have h8 : (0x000000000000ff00 : BitVec 64) = 0xff#64 <<< 8 := by decide
  have h16 : (0x0000000000ff0000 : BitVec 64) = 0xff#64 <<< 16 := by decide
  have h24 : (0x00000000ff000000 : BitVec 64) = 0xff#64 <<< 24 := by decide
  have h32 : (0x000000ff00000000 : BitVec 64) = 0xff#64 <<< 32 := by decide
  have h48 : (0x00ff000000000000 : BitVec 64) = 0xff#64 <<< 48 := by decide
  have h56 : (0xff00000000000000 : BitVec 64) = 0xff#64 <<< 56 := by decide
  unfold revu64
  rw [revu64_mask, h0, h8, h16, h24, h32, h48, h56]
  simp only [BitVec.getLsbD_or, getLsbD_byte_shiftLeft x _ _ hj, getLsbD_byte_ushiftRight]
  have hbyte : j / 8 = 0 ∨ j / 8 = 1 ∨ j / 8 = 2 ∨ j / 8 = 3 ∨ j / 8 = 4 ∨ j / 8 = 5 ∨ j / 8 = 6 ∨ j / 8 = 7 := by omega
  rcases hbyte with h | h | h | h | h | h | h | h
  all_goals
    simp (disch := omega) only [decide_eq_true, decide_eq_false, Bool.true_and, Bool.false_and, Bool.or_false,
      Bool.false_or]
    congr 1
    omega

theorem getLsbD_revu32 (x : BitVec 32) {j : ℕ} (hj : j < 32) :
    (revu32 x).getLsbD j = x.getLsbD ((3 - j / 8) * 8 + j % 8) := by
  have h0 : (0x000000ff : BitVec 32) = 0xff#32 <<< 0 := by decide
  have h8 : (0x0000ff00 : BitVec 32) = 0xff#32 <<< 8 := by decide
  have h16 : (0x00ff0000 : BitVec 32) = 0xff#32 <<< 16 := by decide
  have h24 : (0xff000000 : BitVec 32) = 0xff#32 <<< 24 := by decide
  unfold revu32
  rw [h0, h8, h16, h24]
  simp only [BitVec.getLsbD_or, getLsbD_byte_shiftLeft x _ _ hj, getLsbD_byte_ushiftRight]
  have hbyte : j / 8 = 0 ∨ j / 8 = 1 ∨ j / 8 = 2 ∨ j / 8 = 3 := by omega
  rcases hbyte with h | h | h | h
  all_goals
    simp (disch := omega) only [decide_eq_true, decide_eq_false, Bool.true_and, Bool.false_and, Bool.or_false,
      Bool.false_or]
    congr 1
    omega

theorem getLsbD_revu16 (x : BitVec 16) {j : ℕ} (hj : j < 16) :
    (revu16 x).getLsbD j = x.getLsbD ((1 - j / 8) * 8 + j % 8) := by
  have h0 : (0x00ff : BitVec (max 16 32)) = 0xff#(max 16 32) <<< 0 := by decide
  have h8 : (0xff00 : BitVec (max 16 32)) = 0xff#(max 16 32) <<< 8 := by decide
  unfold revu16
  rw [h0, h8, getLsbD_assign _ hj, BitVec.getLsbD_or, getLsbD_byte_shiftLeft _ _ _ (by omega),
    getLsbD_byte_ushiftRight, getLsbD_promote, getLsbD_promote]
  have hbyte : j / 8 = 0 ∨ j / 8 = 1 := by omega
  rcases hbyte with h | h
  all_goals
    simp (disch := omega) only [decide_eq_true, decide_eq_false, Bool.true_and, Bool.false_and, Bool.or_false,
      Bool.false_or]
    congr 1
    omega

/-! ## The three widths -/

/-- The types whose bytes can be reversed. -/
inductive UintType
  | u16 | u32 | u64
  deriving DecidableEq, Repr

namespace UintType

def width : UintType → ℕ
  | u16 => 16
  | u32 => 32
  | u64 => 64

/-- `revu16`, `revu32` or `revu64`. -/
def revu : (t : UintType) → BitVec t.width → BitVec t.width
  | u16 => revu16
  | u32 => revu32
  | u64 => revu64

variable {t : UintType} {j : ℕ}

theorem width_eq (t : UintType) : t.width = t.width / 8 * 8 := by
  cases t <;> rfl

theorem getLsbD_revu (x : BitVec t.width) (hj : j < t.width) :
    (t.revu x).getLsbD j = x.getLsbD ((t.width / 8 - 1 - j / 8) * 8 + j % 8) := by
  cases t with
  | u16 => exact getLsbD_revu16 x hj
  | u32 => exact getLsbD_revu32 x hj
  | u64 => exact getLsbD_revu64 x hj

/-- Reversed twice, a number is the same again. -/
theorem revu_revu (x : BitVec t.width) : t.revu (t.revu x) = x := by
  have hwidth := t.width_eq
  refine BitVec.eq_of_getLsbD_eq (fun j hj => ?_)
  rw [getLsbD_revu _ hj, getLsbD_revu _ (by omega)]
  congr 1
  omega

end UintType

variable {t : UintType}

/-- What is loaded in the order in which it was packed, and in the other. -/
theorem load_packed {place place' : ℕ → ℕ} (horder : Order (t.width / 8) place) (horder' : Order (t.width / 8) place')
    (hother : ∀ i, i < t.width / 8 → place (place' i) = t.width / 8 - 1 - i) {buff : List UInt8}
    (hbuff : t.width / 8 ≤ buff.length) (x : BitVec t.width) :
    ∃ out, packBytes x place (t.width / 8) buff = .ok out ∧ loadBytes t.width out place (t.width / 8) = .ok x ∧
      loadBytes t.width out place' (t.width / 8) = .ok (t.revu x) := by
  have hwidth := t.width_eq
  obtain ⟨out, same, hpack, hsame, hsame_bits⟩ := load_pack hwidth horder horder hbuff x
  obtain ⟨out', reversed, hpack', hreversed, hreversed_bits⟩ := load_pack hwidth horder horder' hbuff x
  obtain rfl : out = out' := Except.ok.inj (hpack.symm.trans hpack')
  refine ⟨out, hpack, ?_, ?_⟩
  · rw [hsame]
    refine congrArg Except.ok (BitVec.eq_of_getLsbD_eq (fun j hj => ?_))
    obtain ⟨-, hback⟩ := horder (j / 8) (by omega)
    rw [hsame_bits j hj, hback]
    congr 1
    omega
  · rw [hreversed]
    refine congrArg Except.ok (BitVec.eq_of_getLsbD_eq (fun j hj => ?_))
    rw [hreversed_bits j hj, UintType.getLsbD_revu x hj, hother (j / 8) (by omega)]

/-- What is packed in a buffer that is long enough is loaded again, and reversed in the other order. -/
structure Coded (t : UintType) (x : BitVec t.width) : Prop where
  le : ∀ buff, t.width / 8 ≤ buff.length → ∃ out, packBuffLe x buff = .ok out ∧ loadUintLe t.width out = .ok x ∧
    loadUintBe t.width out = .ok (t.revu x)
  be : ∀ buff, t.width / 8 ≤ buff.length → ∃ out, packBuffBe x buff = .ok out ∧ loadUintBe t.width out = .ok x ∧
    loadUintLe t.width out = .ok (t.revu x)
  twice : t.revu (t.revu x) = x

theorem coded (t : UintType) (x : BitVec t.width) : Coded t x where
  le _ hbuff := load_packed (order_le _) (order_be _) (fun _ _ => rfl) hbuff x
  be _ hbuff := load_packed (order_be _) (order_le _) (fun _ _ => rfl) hbuff x
  twice := UintType.revu_revu x

end Libtarp.Bits
