import Libtarp.Bits
import Libtarp.Lib.Promotion

/-!
# Numbers as deques of bits (`bits.h`)

The pop macros test the bit, and the shift is only evaluated where it is set: a 0 stays at its end. The mask of
`lpop_bit` is a shifted `unsigned`, of 32 bits.

* `popAll_eq`: what pops from an end return, from one pop and one shift.
* `deque_iff`: when a pop takes its bit off, and when pushed bits are popped in reverse order.
-/

namespace Libtarp.Bits

open Lib

variable {w : ℕ}

/-! ## The macros of the source -/

/-- `num = rpush_bit(num, bit)`. -/
def rpushBit (num : BitVec w) (bit : Bool) : Except Undefined (BitVec w) := do
  return assign w ((← shl (promote num) 1) ||| BitVec.ofNat (max w 32) bit.toNat)

/-- `num = lpush_bit(num, bit)`, for a bit of a type of `b` bits. -/
def lpushBit (b : ℕ) (num : BitVec w) (bit : Bool) : Except Undefined (BitVec w) := do
  let low ← shr (promote num) 1
  let high ← shl (BitVec.ofNat (max b 32) bit.toNat) (w - 1)
  return assign w low ||| assign w high

/-- `rpop_bit(num)`: what it evaluates to, and `num` after it. -/
def rpopBit (num : BitVec w) : Except Undefined (Bool × BitVec w) := do
  if promote num &&& 1 ≠ 0 then
    let num ← assign w <$> shr (promote num) 1
    return (num ≠ 0 || true, num)
  else return (false, num)

/-- `lpop_bit(num)`. -/
def lpopBit (num : BitVec w) : Except Undefined (Bool × BitVec w) := do
  let mask ← shl 1#32 (w - 1)
  if promote num &&& mask.setWidth (max w 32) ≠ 0 then
    let num ← assign w <$> shl (promote num) 1
    return (num ≠ 0 || true, num)
  else return (false, num)

/-! ## Pushes and pops in a row -/

section Sequences

variable {S : Type} {bit : S → ℕ → Bool} {shift : S → S} {push : S → Bool → Except Undefined S}
  {pop : S → Except Undefined (Bool × S)}

/-- The bits of a list pushed one after the other. -/
def pushAll (push : S → Bool → Except Undefined S) : S → List Bool → Except Undefined S
  | num, [] => .ok num
  | num, b :: bits => do pushAll push (← push num b) bits

/-- What a number of pops return. -/
def popAll (pop : S → Except Undefined (Bool × S)) : S → ℕ → Except Undefined (List Bool)
  | _, 0 => .ok []
  | num, count + 1 => do
    let (b, num) ← pop num
    return b :: (← popAll pop num count)

/-- Pops that do not take a 0 off. -/
def stuckAtZero : List Bool → List Bool
  | [] => []
  | b :: bits => if b then true :: stuckAtZero bits else List.replicate (bits.length + 1) false

theorem popAll_zero (hpop : ∀ num, pop num = .ok (bit num 0, if bit num 0 then shift num else num)) {num : S}
    (hzero : bit num 0 = false) (count : ℕ) : popAll pop num count = .ok (List.replicate count false) := by
  induction count with
  | zero => rfl
  | succ count ih =>
    rw [popAll, hpop, hzero]
    exact congrArg (· >>= fun bits => Except.ok (false :: bits)) ih

/-- What pops from an end return. -/
theorem popAll_eq (hpop : ∀ num, pop num = .ok (bit num 0, if bit num 0 then shift num else num))
    (hshift : ∀ num i, bit (shift num) i = bit num (i + 1)) (num : S) (count : ℕ) :
    popAll pop num count = .ok (stuckAtZero ((List.range count).map (bit num))) := by
  induction count generalizing num with
  | zero => rfl
  | succ count ih =>
    have hrange : (List.range (count + 1)).map (bit num) = bit num 0 :: (List.range count).map (bit (shift num)) := by
      rw [List.range_succ_eq_map, List.map_cons, List.map_map]
      congr 1
      exact List.map_congr_left (fun i _ => (hshift num i).symm)
    rw [hrange, stuckAtZero]
    cases hbit : bit num 0 with
    | false =>
      rw [popAll_zero hpop hbit, if_neg Bool.false_ne_true, List.length_map, List.length_range]
    | true =>
      rw [popAll, hpop, hbit, if_pos rfl, if_pos rfl]
      exact congrArg (· >>= fun bits => Except.ok (true :: bits)) (ih (shift num))

/-- Pops return all the bits where there is no 0 before a 1. -/
theorem stuckAtZero_eq_iff (bits : List Bool) :
    stuckAtZero bits = bits ↔ bits.Pairwise (fun a b => b = true → a = true) := by
  induction bits with
  | nil => exact ⟨fun _ => List.Pairwise.nil, fun _ => rfl⟩
  | cons b bits ih =>
    rw [stuckAtZero, List.pairwise_cons]
    cases b with
    | true =>
      rw [if_pos rfl, List.cons.injEq, ih]
      simp
    | false =>
      rw [if_neg Bool.false_ne_true, List.replicate_succ, List.cons.injEq]
      have hall : List.replicate bits.length false = bits ↔ ∀ b ∈ bits, b = false := by
        rw [eq_comm, List.eq_replicate_iff]
        exact and_iff_right rfl
      rw [hall]
      constructor
      · rintro ⟨-, hfalse⟩
        refine ⟨fun b hb htrue => absurd (hfalse b hb) (by rw [htrue]; decide), ?_⟩
        exact List.pairwise_iff_forall_sublist.2 fun {a b} hsub htrue =>
          absurd (hfalse b (hsub.subset (by simp))) (by rw [htrue]; decide)
      · rintro ⟨hhead, -⟩
        exact ⟨rfl, fun b hb => Bool.eq_false_iff.2 (fun htrue => Bool.false_ne_true (hhead b hb htrue))⟩

/-- What pushes to an end leave there. -/
theorem pushAll_eq {pushed : S → Bool → S} (hpush : ∀ num b, push num b = .ok (pushed num b))
    (hfirst : ∀ num b, bit (pushed num b) 0 = b)
    (hnext : ∀ num b i, i + 1 < w → bit (pushed num b) (i + 1) = bit num i) (bits : List Bool) (num : S) :
    ∃ out, pushAll push num bits = .ok out ∧
      (∀ i, i < w → i < bits.length → bits.reverse[i]? = some (bit out i)) ∧
      ∀ i, i + bits.length < w → bit out (i + bits.length) = bit num i := by
  induction bits generalizing num with
  | nil => exact ⟨num, rfl, fun i _ h => absurd h (Nat.not_lt_zero i), fun i _ => rfl⟩
  | cons b bits ih =>
    obtain ⟨out, hrun, hbits, hrest⟩ := ih (pushed num b)
    refine ⟨out, ?_, fun i hi hlt => ?_, fun i hi => ?_⟩
    · rw [pushAll, hpush]
      exact hrun
    · rw [List.reverse_cons]
      rcases Nat.lt_or_ge i bits.length with h | h
      · rw [List.getElem?_append_left (by rwa [List.length_reverse])]
        exact hbits i hi h
      · obtain rfl : i = 0 + bits.length := by
          rw [List.length_cons] at hlt
          omega
        rw [List.getElem?_append_right (by rw [List.length_reverse]; omega), hrest 0 hi, hfirst, List.length_reverse,
          Nat.zero_add, Nat.sub_self]
        rfl
    · rw [List.length_cons] at hi ⊢
      rw [← Nat.add_assoc, Nat.add_right_comm, hrest (i + 1) (by omega), hnext num b i (by omega)]

/-- Bits that are pushed come back in reverse order where no 1 is pushed before a 0. -/
theorem pushed_popped_iff {pushed : S → Bool → S} (hpush : ∀ num b, push num b = .ok (pushed num b))
    (hfirst : ∀ num b, bit (pushed num b) 0 = b)
    (hnext : ∀ num b i, i + 1 < w → bit (pushed num b) (i + 1) = bit num i)
    (hpop : ∀ num, pop num = .ok (bit num 0, if bit num 0 then shift num else num))
    (hshift : ∀ num i, bit (shift num) i = bit num (i + 1)) {bits : List Bool} (hlength : bits.length ≤ w) (num : S) :
    (pushAll push num bits >>= fun num => popAll pop num bits.length) = .ok bits.reverse ↔
      bits.Pairwise (fun a b => a = true → b = true) := by
  obtain ⟨out, hrun, hbits, -⟩ := pushAll_eq hpush hfirst hnext bits num
  have hfront : (List.range bits.length).map (bit out) = bits.reverse := by
    refine List.ext_getElem? (fun i => ?_)
    rcases Nat.lt_or_ge i bits.length with h | h
    · rw [List.getElem?_map, List.getElem?_range h, hbits i (by omega) h]
      rfl
    · rw [List.getElem?_eq_none (by simpa using h), List.getElem?_eq_none (by simpa using h)]
  rw [hrun]
  change popAll pop out bits.length = _ ↔ _
  rw [popAll_eq hpop hshift, hfront, Except.ok.injEq, stuckAtZero_eq_iff, List.pairwise_reverse]

end Sequences

/-! ## The two ends -/

theorem rpushBit_eq (num : BitVec w) (bit : Bool) :
    rpushBit num bit = .ok (num <<< 1 ||| BitVec.ofNat w bit.toNat) := by
  unfold rpushBit
  rw [shl_ok (by omega)]
  refine congrArg Except.ok (BitVec.eq_of_getLsbD_eq (fun i hi => ?_))
  rw [getLsbD_assign _ hi, BitVec.getLsbD_or, BitVec.getLsbD_or, getLsbD_ofNat_toNat bit hi,
    getLsbD_ofNat_toNat bit (by omega), ← getLsbD_assign _ hi, assign_shl]

theorem lpushBit_eq {b : ℕ} (h : w - 1 < max b 32) (num : BitVec w) (bit : Bool) :
    lpushBit b num bit = .ok (num >>> 1 ||| BitVec.ofNat w bit.toNat <<< (w - 1)) := by
  unfold lpushBit
  rw [shr_ok (by omega), shl_ok h]
  refine congrArg Except.ok (BitVec.eq_of_getLsbD_eq (fun i hi => ?_))
  rw [BitVec.getLsbD_or, BitVec.getLsbD_or, assign_shr, getLsbD_assign _ hi, BitVec.getLsbD_shiftLeft,
    BitVec.getLsbD_shiftLeft, decide_eq_true hi]
  rcases Nat.lt_or_ge i (w - 1) with hlow | hhigh
  · rw [decide_eq_true hlow, Bool.not_true, Bool.and_false, Bool.and_false, Bool.false_and,
      Bool.false_and]
  · rw [decide_eq_true (by omega : i < max b 32), getLsbD_ofNat_toNat bit (by omega),
      getLsbD_ofNat_toNat bit (by omega)]

/-- The test of a bit by a mask. -/
theorem and_mask_ne_zero {n k : ℕ} {x mask : BitVec n} (hk : k < n)
    (hmask : ∀ i, i < n → mask.getLsbD i = decide (i = k)) : x &&& mask ≠ 0 ↔ x.getLsbD k = true := by
  constructor
  · intro hne
    by_contra hbit
    refine hne (BitVec.eq_of_getLsbD_eq (fun i hi => ?_))
    rw [BitVec.getLsbD_and, hmask i hi, BitVec.ofNat_eq_ofNat, BitVec.getLsbD_zero]
    by_cases h : i = k
    · subst h
      rw [Bool.eq_false_iff.2 hbit, Bool.false_and]
    · rw [decide_eq_false h, Bool.and_false]
  · intro hbit hzero
    have hk' := congrArg (fun y : BitVec n => y.getLsbD k) hzero
    simp only [BitVec.getLsbD_and, hmask k hk, hbit, BitVec.ofNat_eq_ofNat, BitVec.getLsbD_zero] at hk'
    cases hk'

/-- `rpop_bit` takes a 1 off, and leaves a 0. -/
theorem rpopBit_eq (num : BitVec w) :
    rpopBit num = .ok (num.getLsbD 0, if num.getLsbD 0 then num >>> 1 else num) := by
  have htest : promote num &&& 1 ≠ 0 ↔ num.getLsbD 0 = true := by
    rw [← getLsbD_promote]
    refine and_mask_ne_zero (by omega) (fun i hi => ?_)
    have hone := getLsbD_one_shiftLeft hi 0
    rwa [BitVec.shiftLeft_zero] at hone
  unfold rpopBit
  rw [shr_ok (by omega)]
  cases hbit : num.getLsbD 0 with
  | false =>
    rw [if_neg (fun h => by rw [htest.1 h] at hbit; cases hbit)]
    rfl
  | true =>
    rw [if_pos (htest.2 hbit)]
    change Except.ok (_ || true, assign w (promote num >>> 1)) = _
    rw [assign_shr, Bool.or_true, if_pos rfl]

/-- `lpop_bit` takes a 1 off, and leaves a 0. -/
theorem lpopBit_eq (h : 0 < w) (hw : w ≤ 32) (num : BitVec w) :
    lpopBit num = .ok (num.getMsbD 0, if num.getMsbD 0 then num <<< 1 else num) := by
  have hmsb : num.getMsbD 0 = num.getLsbD (w - 1) := by
    rw [BitVec.getMsbD_eq_getLsbD, decide_eq_true h, Bool.true_and, Nat.sub_zero]
  have htest : promote num &&& (1#32 <<< (w - 1)).setWidth (max w 32) ≠ 0 ↔ num.getLsbD (w - 1) = true := by
    rw [← getLsbD_promote]
    refine and_mask_ne_zero (by omega) (fun i hi => ?_)
    rw [BitVec.getLsbD_setWidth, decide_eq_true hi, Bool.true_and, getLsbD_one_shiftLeft (by omega)]
  unfold lpopBit
  rw [shl_ok (by omega), shl_ok (by omega), hmsb]
  change (if promote num &&& (1#32 <<< (w - 1)).setWidth (max w 32) ≠ 0 then _ else _) = _
  cases hbit : num.getLsbD (w - 1) with
  | false =>
    rw [if_neg (fun h => by rw [htest.1 h] at hbit; cases hbit)]
    rfl
  | true =>
    rw [if_pos (htest.2 hbit)]
    change Except.ok (_ || true, assign w (promote num <<< 1)) = _
    rw [assign_shl, Bool.or_true, if_pos rfl]

theorem lpopBit_wide (hw : 32 < w) (num : BitVec w) : lpopBit num = .error .shift := by
  unfold lpopBit
  rw [shl_error (by omega)]
  rfl

/-- Where a pop is not defined, only no bits are popped. -/
theorem popped_wide_iff {push : BitVec w → Bool → Except Undefined (BitVec w)}
    {pop : BitVec w → Except Undefined (Bool × BitVec w)} (hpop : ∀ num, pop num = .error .shift) {num : BitVec w}
    {bits : List Bool} :
    (pushAll push num bits >>= fun num => popAll pop num bits.length) = .ok bits.reverse ↔ bits = [] := by
  constructor
  · intro h
    cases bits with
    | nil => rfl
    | cons b bits =>
      cases hrun : pushAll push num (b :: bits) with
      | error e =>
        rw [hrun] at h
        cases h
      | ok out =>
        rw [hrun] at h
        change popAll pop out (bits.length + 1) = _ at h
        rw [popAll, hpop] at h
        cases h
  · rintro rfl
    rfl

/-- Only 0 is the same after a shift. -/
theorem ushiftRight_one_eq_iff (num : BitVec w) : num >>> 1 = num ↔ num = 0 := by
  rw [← BitVec.toNat_inj, ← BitVec.toNat_inj, BitVec.toNat_ushiftRight, Nat.shiftRight_eq_div_pow, BitVec.ofNat_eq_ofNat,
    BitVec.toNat_ofNat, Nat.zero_mod]
  omega

theorem shiftLeft_one_eq_iff (num : BitVec w) : num <<< 1 = num ↔ num = 0 := by
  have hlt := num.isLt
  rw [← BitVec.toNat_inj, ← BitVec.toNat_inj, BitVec.toNat_shiftLeft, Nat.shiftLeft_eq, BitVec.ofNat_eq_ofNat,
    BitVec.toNat_ofNat, Nat.zero_mod]
  rcases Nat.lt_or_ge (num.toNat * 2 ^ 1) (2 ^ w) with h | h
  · rw [Nat.mod_eq_of_lt h]
    omega
  · rw [Nat.mod_eq_sub_mod h, Nat.mod_eq_of_lt (by omega)]
    omega

/-- **Numbers as deques of bits**: a bit is taken off where it is 1, or nothing is left to shift, and from the left
only of types that are not wider than an `unsigned`. Bits that are pushed are popped in reverse order where no 1 is
pushed before a 0. -/
theorem deque_iff (hw : 0 < w) (b : ℕ) (num : BitVec w) {bits : List Bool} (hlength : bits.length ≤ w) :
    (rpopBit num = .ok (num.getLsbD 0, num >>> 1) ↔ num.getLsbD 0 = true ∨ num = 0) ∧
      (lpopBit num = .ok (num.getMsbD 0, num <<< 1) ↔ w ≤ 32 ∧ (num.getMsbD 0 = true ∨ num = 0)) ∧
      ((pushAll rpushBit num bits >>= fun num => popAll rpopBit num bits.length) = .ok bits.reverse ↔
        bits.Pairwise (fun a b => a = true → b = true)) ∧
      ((pushAll (lpushBit b) num bits >>= fun num => popAll lpopBit num bits.length) = .ok bits.reverse ↔
        bits = [] ∨ w ≤ 32 ∧ bits.Pairwise (fun a b => a = true → b = true)) := by
  refine ⟨?_, ?_, ?_, ?_⟩
  · rw [rpopBit_eq, Except.ok.injEq, Prod.mk.injEq, ← ushiftRight_one_eq_iff]
    cases hbit : num.getLsbD 0 with
    | false => simp [eq_comm]
    | true => simp
  · -- the mask of the left end is an `int` shifted by `w - 1`, which a wide type loses
    rcases Nat.lt_or_ge 32 w with hwide | hnarrow
    · rw [lpopBit_wide hwide]
      exact ⟨nofun, fun h => absurd h.1 (by omega)⟩
    · rw [lpopBit_eq hw hnarrow, Except.ok.injEq, Prod.mk.injEq, ← shiftLeft_one_eq_iff]
      cases hbit : num.getMsbD 0 with
      | false => simp [eq_comm, hnarrow]
      | true => simp [hnarrow]
  · refine pushed_popped_iff rpushBit_eq (fun num b => ?_) (fun num b i hi => ?_) rpopBit_eq (fun num i => ?_) hlength num
    · rw [BitVec.getLsbD_or, getLsbD_ofNat_toNat b hw, BitVec.getLsbD_shiftLeft]
      simp
    · rw [BitVec.getLsbD_or, getLsbD_ofNat_toNat b hi, BitVec.getLsbD_shiftLeft]
      simp [hi]
    · rw [BitVec.getLsbD_ushiftRight, Nat.add_comm]
  · rcases Nat.lt_or_ge 32 w with hwide | hnarrow
    · rw [popped_wide_iff (lpopBit_wide hwide)]
      exact ⟨.inl, fun h => h.resolve_right (fun hr => by omega)⟩
    · rw [or_iff_right_of_imp (by rintro rfl; exact ⟨hnarrow, List.Pairwise.nil⟩), and_iff_right hnarrow]
      refine pushed_popped_iff (lpushBit_eq (by omega)) (fun num b => ?_) (fun num b i hi => ?_) (lpopBit_eq hw hnarrow)
        (fun num i => BitVec.getMsbD_shiftLeft num 1) hlength num
      · rw [BitVec.getMsbD_eq_getLsbD, decide_eq_true hw, BitVec.getLsbD_or, BitVec.getLsbD_ushiftRight,
          BitVec.getLsbD_of_ge num _ (by omega), BitVec.getLsbD_shiftLeft, getLsbD_ofNat_toNat b (by omega),
          decide_eq_true (by omega : w - 1 - 0 < w)]
        simp
      · rw [BitVec.getMsbD_eq_getLsbD, BitVec.getMsbD_eq_getLsbD, decide_eq_true hi, decide_eq_true (by omega : i < w),
          BitVec.getLsbD_or, BitVec.getLsbD_ushiftRight, BitVec.getLsbD_shiftLeft,
          decide_eq_true (by omega : w - 1 - (i + 1) < w - 1), show 1 + (w - 1 - (i + 1)) = w - 1 - i by omega]
        simp

/-- A 0 that is popped from the right stays there. -/
theorem not_rpopped_zero : rpopBit 2#8 = .ok (false, 2#8) ∧ rpopBit 2#8 ≠ .ok ((2#8).getLsbD 0, 2#8 >>> 1) := by
  decide

theorem deque_iff_uint8 :
    (rpopBit 5#8 = .ok ((5#8).getLsbD 0, 5#8 >>> 1) ↔ (5#8).getLsbD 0 = true ∨ 5#8 = 0) ∧
      (lpopBit 5#8 = .ok ((5#8).getMsbD 0, 5#8 <<< 1) ↔ 8 ≤ 32 ∧ ((5#8).getMsbD 0 = true ∨ 5#8 = 0)) ∧
      ((pushAll rpushBit 5#8 [false, true] >>= fun num => popAll rpopBit num 2) = .ok [true, false] ↔
        [false, true].Pairwise (fun a b => a = true → b = true)) ∧
      ((pushAll (lpushBit 32) 5#8 [false, true] >>= fun num => popAll lpopBit num 2) = .ok [true, false] ↔
        [false, true] = [] ∨ 8 ≤ 32 ∧ [false, true].Pairwise (fun a b => a = true → b = true)) :=
  deque_iff (by decide) 32 5#8 (by decide)

end Libtarp.Bits
