import Libtarp.Bitarray.Model

/-!
# Equal bit arrays (`bitarray.c`, `Bitr_equal`)

The whole bytes are compared first, and then the byte after them, of which only the bits in use count. That byte is
there for widths that are not whole bytes. For the others it is read, too.

* `equal_iff`: the result is right, and nothing is read past the end, where there is such a byte or none is needed.
* `equal_byte_outside`: an array of a width of 8 bits.
-/

namespace Libtarp.Bitr

open Lib Bits

variable {a b : Bitarray}

/-- The call returns whether the widths and all the bits are the same. -/
def EqualRight (a b : Bitarray) : Prop :=
  ∃ res, bitrEqual a b = .ok res ∧
    (res = true ↔ a.width = b.width ∧ ∀ i, 1 ≤ i → i ≤ a.width → ∃ v, bitrGet a i = .ok v ∧ bitrGet b i = .ok v)

theorem same_iff (hw : a.width = b.width) :
    (∀ i, 1 ≤ i → i ≤ a.width → ∃ v, bitrGet a i = .ok v ∧ bitrGet b i = .ok v) ↔
      ∀ i < a.width, ∃ v, a.bit? i = some v ∧ b.bit? i = some v := by
  constructor
  · intro h i hi
    exact (bitrGet_same_iff hi (by omega)).1 (h (i + 1) (by omega) hi)
  · intro h i h1 hi
    obtain ⟨k, rfl⟩ := Nat.exists_eq_add_of_le' h1
    exact (bitrGet_same_iff hi (by omega)).2 (h k hi)

/-! ## The whole bytes -/

theorem byteAt_of_lt {i : ℕ} (h : i < a.size) : ∃ byte, byteAt a i = .ok byte ∧ a.bytes[i]? = some byte := by
  have hi := List.getElem?_eq_getElem h
  refine ⟨a.bytes[i], ?_, hi⟩
  unfold byteAt
  rw [hi]

theorem byteAt_of_le {i : ℕ} (h : a.size ≤ i) : byteAt a i = .error .outside := by
  unfold byteAt
  rw [List.getElem?_eq_none h]

/-- One round, over two bytes. -/
theorem equalBytes_succ {rounds i : ℕ} {x y : UInt8} (hx : byteAt a i = .ok x) (hy : byteAt b i = .ok y) :
    equalBytes a b (rounds + 1) i = if x ≠ y then .ok false else equalBytes a b rounds (i + 1) := by
  rw [equalBytes, hx, hy]
  rfl

theorem equalBytes_outside {rounds i : ℕ} (h : a.size ≤ i) : equalBytes a b (rounds + 1) i = .error .outside := by
  rw [equalBytes, byteAt_of_le h]
  rfl

/-- The loop ends at the first two bytes that differ. -/
theorem equalBytes_differ (hsize : a.size = b.size) {rounds i k : ℕ} (hi : i ≤ k) (hk : k < i + rounds)
    (hne : a.bytes[k]? ≠ b.bytes[k]?) : equalBytes a b rounds i = .ok false := by
  induction rounds generalizing i with
  | zero => omega
  | succ rounds ih =>
    have hlt : k < a.size := by
      by_contra hge
      exact hne (by rw [List.getElem?_eq_none (Nat.not_lt.1 hge), List.getElem?_eq_none (show b.size ≤ k by omega)])
    obtain ⟨x, hx, hx'⟩ := byteAt_of_lt (show i < a.size by omega)
    obtain ⟨y, hy, hy'⟩ := byteAt_of_lt (show i < b.size by omega)
    rw [equalBytes_succ hx hy]
    by_cases hxy : x = y
    · have hik : i ≠ k := by
        rintro rfl
        exact hne (by rw [hx', hy', hxy])
      rw [if_neg (not_not.2 hxy)]
      exact ih (by omega) (by omega)
    · rw [if_pos hxy]

/-- Over bytes that are the same, it goes to the end, and past the end of the arrays. -/
theorem equalBytes_same (hsize : a.size = b.size) {rounds i : ℕ} (hi : i ≤ a.size)
    (h : ∀ k < i + rounds, a.bytes[k]? = b.bytes[k]?) :
    equalBytes a b rounds i = if i + rounds ≤ a.size then .ok true else .error .outside := by
  induction rounds generalizing i with
  | zero => rw [Nat.add_zero, if_pos hi]; rfl
  | succ rounds ih =>
    by_cases hlt : i < a.size
    · obtain ⟨x, hx, hx'⟩ := byteAt_of_lt hlt
      obtain ⟨y, hy, hy'⟩ := byteAt_of_lt (show i < b.size by omega)
      have hxy : x = y := by
        have heq := h i (by omega)
        rw [hx', hy'] at heq
        exact Option.some.inj heq
      rw [equalBytes_succ hx hy, if_neg (not_not.2 hxy), ih hlt fun k hk => h k (by omega),
        Nat.succ_add_eq_add_succ]
    · rw [equalBytes_outside (by omega), if_neg (by omega)]

/-! ## The byte after them -/

/-- There is a byte after the whole ones where it is needed. -/
theorem div_lt_size_iff : a.width / 8 < a.size ↔ a.width < 2 ^ 32 ∧ ¬ 8 ∣ a.width := by
  rw [size_eq, calculateRequiredSize_eq]
  omega

/-- What the call does with arrays of one width. -/
theorem bitrEqual_eq (hw : a.width = b.width) : bitrEqual a b = do
    let same ← equalBytes a b (a.width / 8) 0
    if !same then return false
    let aByte ← byteAt a (a.width / 8)
    let bByte ← byteAt b (a.width / 8)
    if 0 < a.width % 8 then
      return (List.range' 1 (a.width % 8)).all fun j => getBit aByte.toNat j == getBit bByte.toNat j
    return aByte == bByte := by
  have hsize : a.size = b.size := by rw [size_eq, size_eq, hw]
  unfold bitrEqual
  rw [if_neg (not_not.2 hw), if_neg (not_not.2 hsize), bits2bytes_floor]

theorem bitrEqual_differ (hw : a.width = b.width) {k : ℕ} (hk : k < a.width / 8) (hne : a.bytes[k]? ≠ b.bytes[k]?) :
    bitrEqual a b = .ok false := by
  have hsize : a.size = b.size := by rw [size_eq, size_eq, hw]
  rw [bitrEqual_eq hw, equalBytes_differ hsize (Nat.zero_le k) (by omega) hne]
  rfl

/-- **The byte after the whole ones is read, whether or not it is there.** -/
theorem bitrEqual_outside (hw : a.width = b.width) (h : ∀ k < a.width / 8, a.bytes[k]? = b.bytes[k]?)
    (hle : a.size ≤ a.width / 8) : bitrEqual a b = .error .outside := by
  have hsize : a.size = b.size := by rw [size_eq, size_eq, hw]
  rw [bitrEqual_eq hw, equalBytes_same hsize (Nat.zero_le _) fun k hk => h k (by omega), byteAt_of_le hle]
  split_ifs <;> rfl

/-- The bits in use of the last byte. -/
theorem lastBits_iff {x y : UInt8} {n : ℕ} :
    ((List.range' 1 n).all fun j => getBit x.toNat j == getBit y.toNat j) = true ↔
      ∀ i < n, x.toBitVec.getLsbD i = y.toBitVec.getLsbD i := by
  have hbit (i : ℕ) : getBit x.toNat (i + 1) = getBit y.toNat (i + 1) ↔
      x.toBitVec.getLsbD i = y.toBitVec.getLsbD i := by
    rw [← UInt8.toNat_toBitVec, ← UInt8.toNat_toBitVec, getBit_toNat, getBit_toNat, Nat.add_sub_cancel]
    cases x.toBitVec.getLsbD i <;> cases y.toBitVec.getLsbD i <;> decide
  rw [List.all_eq_true]
  constructor
  · intro h i hi
    exact (hbit i).1 (beq_iff_eq.1 (h (i + 1) (List.mem_range'_1.2 (by omega))))
  · intro h j hj
    obtain ⟨h1, hlt⟩ := List.mem_range'_1.1 hj
    obtain ⟨i, rfl⟩ := Nat.exists_eq_add_of_le' h1
    exact beq_iff_eq.2 ((hbit i).2 (h i (by omega)))

/-- **Where there is a byte after the whole ones, its bits in use decide.** -/
theorem bitrEqual_last (hw : a.width = b.width) (h : ∀ k < a.width / 8, a.bytes[k]? = b.bytes[k]?)
    (hlast : a.width / 8 < a.size) :
    ∃ res, bitrEqual a b = .ok res ∧
      (res = true ↔ ∀ i < a.width, ∃ v, a.bit? i = some v ∧ b.bit? i = some v) := by
  have hsize : a.size = b.size := by rw [size_eq, size_eq, hw]
  have hwidth := div_lt_size_iff.1 hlast
  obtain ⟨x, hx, hx'⟩ := byteAt_of_lt hlast
  obtain ⟨y, hy, hy'⟩ := byteAt_of_lt (hsize ▸ hlast)
  have hres : bitrEqual a b =
      .ok ((List.range' 1 (a.width % 8)).all fun j => getBit x.toNat j == getBit y.toNat j) := by
    rw [bitrEqual_eq hw, equalBytes_same hsize (Nat.zero_le _) fun k hk => h k (by omega), if_pos (by omega), hx, hy]
    exact if_pos (by omega)
  have hxbit {i : ℕ} (hi : i / 8 = a.width / 8) : a.bit? i = some (x.toBitVec.getLsbD (i % 8)) := by
    unfold Bitarray.bit? bitAt
    rw [hi, hx', Option.map_some]
  have hybit {i : ℕ} (hi : i / 8 = a.width / 8) : b.bit? i = some (y.toBitVec.getLsbD (i % 8)) := by
    unfold Bitarray.bit? bitAt
    rw [hi, hy', Option.map_some]
  refine ⟨_, hres, lastBits_iff.trans ⟨fun hbits i hi => ?_, fun hbits i hi => ?_⟩⟩
  · by_cases hlow : i / 8 < a.width / 8
    · obtain ⟨v, hv⟩ := exists_bit hwidth.1 hi
      exact ⟨v, hv, (bitAt_congr (h (i / 8) hlow) rfl).symm.trans hv⟩
    · have hlast : i / 8 = a.width / 8 := by omega
      refine ⟨_, hxbit hlast, ?_⟩
      rw [hybit hlast, hbits (i % 8) (by omega)]
  · have hdiv : (8 * (a.width / 8) + i) / 8 = a.width / 8 := by omega
    have hmod : (8 * (a.width / 8) + i) % 8 = i := by omega
    obtain ⟨v, hv, hv'⟩ := hbits (8 * (a.width / 8) + i) (by omega)
    rw [hxbit hdiv, hmod] at hv
    rw [hybit hdiv, hmod] at hv'
    exact Option.some.inj (hv.trans hv'.symm)

/-- Whole bytes that differ have bits that differ. -/
theorem exists_bit_ne {k : ℕ} (hk : k < a.width / 8) (hne : a.bytes[k]? ≠ b.bytes[k]?) :
    ¬ ∀ i < a.width, ∃ v, a.bit? i = some v ∧ b.bit? i = some v := by
  intro h
  refine hne (getElem?_eq_of_bitAt fun i hi => ?_)
  obtain ⟨v, hv, hv'⟩ := h i (by omega)
  exact hv.trans hv'.symm

/-- **Where the call is right, and reads nothing outside of the arrays.** -/
theorem equal_iff (a b : Bitarray) :
    EqualRight a b ↔ a.width ≠ b.width ∨ (a.width < 2 ^ 32 ∧ ¬ 8 ∣ a.width) ∨ a.bytes ≠ b.bytes := by
  by_cases hw : a.width = b.width
  · have hright : EqualRight a b ↔ ∃ res, bitrEqual a b = .ok res ∧
        (res = true ↔ ∀ i < a.width, ∃ v, a.bit? i = some v ∧ b.bit? i = some v) := by
      unfold EqualRight
      rw [same_iff hw]
      simp only [hw, true_and]
    rw [hright, ← div_lt_size_iff]
    by_cases hdiffer : ∃ k < a.width / 8, a.bytes[k]? ≠ b.bytes[k]?
    · -- the loop returns
      obtain ⟨k, hk, hne⟩ := hdiffer
      refine iff_of_true ⟨false, bitrEqual_differ hw hk hne, ?_⟩ (Or.inr (Or.inr fun heq => hne (by rw [heq])))
      exact iff_of_false Bool.false_ne_true (exists_bit_ne hk hne)
    push Not at hdiffer
    by_cases hlast : a.width / 8 < a.size
    · exact iff_of_true (bitrEqual_last hw hdiffer hlast) (Or.inr (Or.inl hlast))
    · -- all bytes were compared
      have hsize : a.size = b.size := by rw [size_eq, size_eq, hw]
      have hbytes : a.bytes = b.bytes := by
        refine List.ext_getElem? fun k => ?_
        by_cases hk : k < a.size
        · exact hdiffer k (by omega)
        · rw [List.getElem?_eq_none (Nat.not_lt.1 hk), List.getElem?_eq_none (show b.size ≤ k by omega)]
      refine iff_of_false ?_ ?_
      · rintro ⟨res, hres, -⟩
        rw [bitrEqual_outside hw hdiffer (Nat.not_lt.1 hlast)] at hres
        cases hres
      · rintro (hne | hlt | hne)
        · exact hne hw
        · exact hlast hlt
        · exact hne hbytes
  · refine iff_of_true ⟨false, if_pos hw, ?_⟩ (Or.inl hw)
    exact iff_of_false Bool.false_ne_true fun h => hw h.1

theorem sized_byte : [(5 : UInt8)].length = calculateRequiredSize 8 ∧ 0 < 8 ∧ 8 < 2 ^ 64 := by decide

/-- **An array of 8 bits, compared with itself**: its second byte is read. -/
theorem equal_byte_outside : ¬ EqualRight (ofBytes 8 [5] sized_byte) (ofBytes 8 [5] sized_byte) := by
  rintro ⟨res, hres, -⟩
  have hout : bitrEqual (ofBytes 8 [5] sized_byte) (ofBytes 8 [5] sized_byte) = .error .outside := rfl
  rw [hout] at hres
  cases hres

end Libtarp.Bitr
