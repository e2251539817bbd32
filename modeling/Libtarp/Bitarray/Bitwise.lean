import Libtarp.Bitarray.Shift

/-!
# An array as a whole (`bitarray.c`, from `Bitr_any` to `Bitr_rpop`)

* `bitrAny`, `bitrAll`, `bitrNone`: they read bits until one decides.
* `loopTransformBytes`: the operations on two arrays, byte by byte, the unused bits of the last byte included.
* `bits`: the bits of an array as a list, the lowest first, and what each call makes of it.
-/

namespace Libtarp.Bitr

open Lib Bits

/-! ## The functions of the source -/

/-- `ERROR_INVALIDVALUE`. -/
def invalidValue : ℤ := 8

/-- The loops of `Bitr_any`, `Bitr_all` and `Bitr_none`: whether a bit from `pos` on, of `count` bits, is `want`. -/
def findBit (bitr : Bitarray) (want : ℤ) : ℕ → ℕ → Except MemFault Bool
  | 0, _ => return false
  | count + 1, pos => do
    let bit ← bitrGet bitr pos
    if bit = want then return true else findBit bitr want count (pos + 1)

def bitrAny (bitr : Bitarray) : Except MemFault Bool := findBit bitr 1 bitr.width 1

def bitrAll (bitr : Bitarray) : Except MemFault Bool := not <$> findBit bitr 0 bitr.width 1

def bitrNone (bitr : Bitarray) : Except MemFault Bool := not <$> findBit bitr 1 bitr.width 1

/-- The loop of `loop_transform_bytes`, over the first bytes. Where `b` is `a` itself its bytes are those not changed
yet. -/
def transformBytes (bop : UInt8 → UInt8 → UInt8) (b : Bitarray) : ℕ → Bitarray → Except MemFault Bitarray
  | 0, a => return a
  | i + 1, a => do
    let a ← transformBytes bop b i a
    let x ← byteAt a i
    let y ← byteAt b i
    memcpy a i [bop x y]

def loopTransformBytes (bop : UInt8 → UInt8 → UInt8) (a b : Bitarray) : Except MemFault (Bitarray × ℤ) :=
  if a.width ≠ b.width then return (a, invalidValue)
  else do
    let a ← transformBytes bop b a.size a
    return (a, 0)

def bitrBor (a b : Bitarray) : Except MemFault (Bitarray × ℤ) := loopTransformBytes (· ||| ·) a b

def bitrBand (a b : Bitarray) : Except MemFault (Bitarray × ℤ) := loopTransformBytes (· &&& ·) a b

def bitrBxor (a b : Bitarray) : Except MemFault (Bitarray × ℤ) := loopTransformBytes (· ^^^ ·) a b

def bitrBnot (a : Bitarray) : Except MemFault (Bitarray × ℤ) := loopTransformBytes (fun _ y => ~~~y) a a

/-- The first rounds of the loop of `Bitr_reverse`; `i < j` ends it after half the width. -/
def reverseRounds (width : ℕ) : ℕ → Bitarray → Except MemFault Bitarray
  | 0, a => return a
  | i + 1, a => do
    let a ← reverseRounds width i a
    let temp ← bitrGet a (i + 1)
    let bit ← bitrGet a (width - i)
    let (a, _) ← bitrSetval a (i + 1) bit
    let (a, _) ← bitrSetval a (width - i) temp
    return a

def bitrReverse (bitr : Bitarray) : Except MemFault Bitarray := reverseRounds bitr.width (bitr.width / 2) bitr

def bitrLpush (bitr : Bitarray) (isOn : Bool) : Except MemFault Bitarray := do
  let bitr ← bitrRshift bitr 1 false
  let (bitr, _) ← bitrSetval bitr bitr.width (if isOn then 1 else 0)
  return bitr

def bitrRpush (bitr : Bitarray) (isOn : Bool) : Except MemFault Bitarray := do
  let bitr ← bitrLshift bitr 1 false
  let (bitr, _) ← bitrSetval bitr 1 (if isOn then 1 else 0)
  return bitr

def bitrLpop (bitr : Bitarray) : Except MemFault (Bitarray × ℤ) := do
  let bit ← bitrGet bitr bitr.width
  let bitr ← bitrLshift bitr 1 false
  return (bitr, bit)

def bitrRpop (bitr : Bitarray) : Except MemFault (Bitarray × ℤ) := do
  let bit ← bitrGet bitr 1
  let bitr ← bitrRshift bitr 1 false
  return (bitr, bit)

/-- `Bitr_clone`. The copy is made as wide as the bytes, and then given the width. -/
def bitrClone (bitr : Bitarray) : Except MemFault Bitarray := do
  match ← bitrFrombuff none bitr.bytes with
  | none => throw .assertion
  | some new =>
    if h : new.bytes.length = calculateRequiredSize bitr.width then
      return ⟨bitr.width, ⟨new.bytes, h⟩, bitr.width_pos, bitr.width_lt⟩
    else throw .outside

/-! ## The bits as a list -/

/-- The bits, the lowest first. -/
def Bitarray.bits (a : Bitarray) : List Bool := (List.range a.width).map fun i => (a.bit? i).getD false

variable {a b r : Bitarray} {i : ℕ}

@[simp] theorem bits_length (a : Bitarray) : a.bits.length = a.width := by simp [Bitarray.bits]

theorem bits_getElem? (hwidth : a.width < 2 ^ 32) (hi : i < a.width) : a.bits[i]? = a.bit? i := by
  obtain ⟨v, hv⟩ := exists_bit hwidth hi
  simp [Bitarray.bits, hi, hv]

theorem bits_eq {l : List Bool} (hlen : l.length = r.width) (hwidth : r.width < 2 ^ 32)
    (h : ∀ i < r.width, r.bit? i = l[i]?) : r.bits = l := by
  refine List.ext_getElem? fun i => ?_
  by_cases hi : i < r.width
  · rw [bits_getElem? hwidth hi, h i hi]
  · rw [List.getElem?_eq_none (by rw [bits_length]; omega), List.getElem?_eq_none (by omega)]

theorem size_of_lt (hwidth : a.width < 2 ^ 32) : a.size = (a.width + 7) / 8 := by
  rw [size_eq, calculateRequiredSize_of_lt hwidth]

/-- A bit that is read is one of the list. -/
theorem bitrGet_bits (hwidth : a.width < 2 ^ 32) (pos : ℕ) : bitrGet a pos =
    .ok (if 0 < pos ∧ pos ≤ a.width then ((a.bits.getD (pos - 1) false).toNat : ℤ) else outOfBounds) := by
  by_cases hpos : 0 < pos ∧ pos ≤ a.width
  · obtain ⟨i, rfl⟩ : ∃ i, pos = i + 1 := ⟨pos - 1, by omega⟩
    have hi : i < a.width := by omega
    obtain ⟨v, hv⟩ := exists_bit hwidth hi
    rw [if_pos hpos, bitrGet_eq hi, hv, List.getD_eq_getElem?_getD, Nat.add_sub_cancel, bits_getElem? hwidth hi, hv]
    rfl
  · rw [if_neg hpos]
    unfold bitrGet
    rw [if_neg (by simpa [inrange] using hpos)]
    rfl

/-- One bit was written. -/
theorem Wrote.bits_set {v : Bool} (h : Wrote a r i (i + 1) fun _ => some v) (hwidth : a.width < 2 ^ 32) :
    r.bits = a.bits.set i v := by
  refine bits_eq (by simp [h.width]) (by rw [h.width]; exact hwidth) fun j hj => ?_
  rw [h.width] at hj
  rw [h.bits, List.getElem?_set]
  by_cases hij : i = j
  · subst hij
    simp [hj]
  · rw [if_neg (by omega), if_neg hij, bits_getElem? hwidth hj]

theorem bitrSetval_bits (hwidth : a.width < 2 ^ 32) (hi : i < a.width) (v : Bool) :
    ∃ r, bitrSetval a (i + 1) v.toNat = .ok (r, 0) ∧ r.width = a.width ∧ r.bits = a.bits.set i v := by
  obtain ⟨r, hr, hwrote⟩ := bitrSetval_bit hi (by rw [size_of_lt hwidth]; omega) v
  exact ⟨r, hr, hwrote.width, hwrote.bits_set hwidth⟩

/-- All bits were written. -/
theorem Wrote.bits_all {bit : ℕ → Option Bool} {l : List Bool} {stop : ℕ} (h : Wrote a r 0 stop bit)
    (hstop : a.width ≤ stop) (hwidth : a.width < 2 ^ 32) (hlen : l.length = a.width)
    (hbit : ∀ i < a.width, bit i = l[i]?) : r.bits = l := by
  refine bits_eq (by rw [hlen, h.width]) (by rw [h.width]; exact hwidth) fun i hi => ?_
  rw [h.width] at hi
  rw [h.bits, if_pos ⟨Nat.zero_le i, by omega⟩, hbit i hi]

/-! ## What the calls make of it -/

theorem findBit_eq (hwidth : a.width < 2 ^ 32) (want : ℤ) {count : ℕ} (hin : i + count ≤ a.width) :
    findBit a want count (i + 1) = .ok (((a.bits.drop i).take count).any fun v => (v.toNat : ℤ) = want) := by
  induction count generalizing i with
  | zero =>
    rw [List.take_zero]
    rfl
  | succ count ih =>
    have hlt : i < a.bits.length := by rw [bits_length]; omega
    have hget := bitrGet_bits hwidth (i + 1)
    rw [if_pos (by omega), Nat.add_sub_cancel, List.getD_eq_getElem _ _ hlt] at hget
    unfold findBit
    rw [hget, ok_bind, List.drop_eq_getElem_cons hlt, List.take_succ_cons, List.any_cons]
    by_cases hbit : ((a.bits[i]).toNat : ℤ) = want
    · rw [if_pos hbit, decide_eq_true hbit, Bool.true_or]
      rfl
    · rw [if_neg hbit, ih (by omega), decide_eq_false hbit, Bool.false_or]

theorem findBit_all (hwidth : a.width < 2 ^ 32) (want : ℤ) :
    findBit a want a.width 1 = .ok (a.bits.any fun v => (v.toNat : ℤ) = want) := by
  have h := findBit_eq hwidth want (show 0 + a.width ≤ a.width by omega)
  rwa [List.drop_zero, List.take_of_length_le (by simp)] at h

theorem bitrAny_eq (hwidth : a.width < 2 ^ 32) : bitrAny a = .ok (a.bits.any id) := by
  unfold bitrAny
  rw [findBit_all hwidth]
  congr 3
  funext v
  cases v <;> rfl

theorem bitrAll_eq (hwidth : a.width < 2 ^ 32) : bitrAll a = .ok (a.bits.all id) := by
  unfold bitrAll
  rw [findBit_all hwidth]
  show Except.ok (!_) = _
  congr 1
  rw [List.not_any_eq_all_not]
  congr 1
  funext v
  cases v <;> rfl

theorem bitrNone_eq (hwidth : a.width < 2 ^ 32) : bitrNone a = .ok (!a.bits.any id) := by
  unfold bitrNone
  rw [findBit_all hwidth]
  show Except.ok (!_) = _
  congr 3
  funext v
  cases v <;> rfl

/-- A bit is changed, where it is in range. -/
theorem changeBit_bits {f : BitVec 8 → ℕ → BitVec 8} {g : Bool → Bool}
    (hf : ∀ byte pos, ∀ j < 8, (f byte pos).getLsbD j = if j = pos - 1 then g (byte.getLsbD j) else byte.getLsbD j)
    (hwidth : a.width < 2 ^ 32) (pos : ℕ) : ∃ r, r.width = a.width ∧
      changeBit f a pos = .ok (r, if 0 < pos ∧ pos ≤ a.width then 0 else outOfBounds) ∧
      r.bits = if 0 < pos ∧ pos ≤ a.width then a.bits.modify (pos - 1) g else a.bits := by
  by_cases hpos : 0 < pos ∧ pos ≤ a.width
  · obtain ⟨i, rfl⟩ : ∃ i, pos = i + 1 := ⟨pos - 1, by omega⟩
    have hi : i < a.width := by omega
    obtain ⟨r, hr, hwrote⟩ := changeBit_bit hf hi (by rw [size_of_lt hwidth]; omega)
    rw [if_pos hpos, if_pos hpos]
    refine ⟨r, hwrote.width, hr, bits_eq (by simp [hwrote.width]) (by rw [hwrote.width]; exact hwidth) fun j hj => ?_⟩
    rw [hwrote.width] at hj
    rw [hwrote.bits, List.getElem?_modify, Nat.add_sub_cancel, bits_getElem? hwidth hj]
    by_cases hij : i = j
    · subst hij
      simp
    · rw [if_neg (by omega)]
      simp [hij]
  · rw [if_neg hpos, if_neg hpos]
    refine ⟨a, rfl, ?_, rfl⟩
    unfold changeBit
    rw [if_neg (by simpa [inrange] using hpos)]
    rfl

/-- Bytes that are combined bit by bit. -/
theorem transformBytes_bit {bop : UInt8 → UInt8 → UInt8} {g : Bool → Bool → Bool}
    (hbop : ∀ x y : UInt8, ∀ j < 8, (bop x y).toBitVec.getLsbD j = g (x.toBitVec.getLsbD j) (y.toBitVec.getLsbD j))
    (hsize : a.size = b.size) {n : ℕ} (hn : n ≤ a.size) :
    ∃ r, transformBytes bop b n a = .ok r ∧ Wrote a r 0 (8 * n) fun i => (a.bit? i).bind fun x => (b.bit? i).map (g x) := by
  induction n with
  | zero => exact ⟨a, rfl, Wrote.nil a⟩
  | succ n ih =>
    obtain ⟨m, hm, hwrote⟩ := ih (by omega)
    -- the byte is as it was, and is now combined
    have hsame : m.bytes[n]? = a.bytes[n]? := by
      refine getElem?_eq_of_bitAt fun i hi => ?_
      have h := hwrote.bits i
      rw [if_neg (by omega)] at h
      exact h
    obtain ⟨x, hx⟩ : ∃ x, a.bytes[n]? = some x := ⟨_, List.getElem?_eq_getElem (show n < a.bytes.length by
      change n < a.size; omega)⟩
    obtain ⟨y, hy⟩ : ∃ y, b.bytes[n]? = some y := ⟨_, List.getElem?_eq_getElem (show n < b.bytes.length by
      change n < b.size; omega)⟩
    obtain ⟨r, hr⟩ := memcpy_iff.2 (show n + [bop x y].length ≤ m.size by
      rw [hwrote.size, List.length_singleton]; omega)
    have hlast := memcpy_bit hr
    refine ⟨r, ?_, hwrote.trans (hlast.congr fun i h1 h2 => ?_) (by omega) (by omega)⟩
    · simp only [transformBytes, hm, byteAt, hsame, hx, hy, ok_bind, hr]
    · rw [List.length_singleton] at h2
      have hdiv : i / 8 = n := by omega
      have hzero : (i - 8 * n) / 8 = 0 := by omega
      have hmod : (i - 8 * n) % 8 = i % 8 := by omega
      unfold Bitarray.bit? bitAt
      rw [hdiv, hx, hy, hzero, hmod]
      simp [hbop x y (i % 8) (Nat.mod_lt _ (by decide))]

theorem loopTransformBytes_bits {bop : UInt8 → UInt8 → UInt8} {g : Bool → Bool → Bool}
    (hbop : ∀ x y : UInt8, ∀ j < 8, (bop x y).toBitVec.getLsbD j = g (x.toBitVec.getLsbD j) (y.toBitVec.getLsbD j))
    (hwidth : a.width < 2 ^ 32) : ∃ r, r.width = a.width ∧
      loopTransformBytes bop a b = .ok (r, if a.width = b.width then 0 else invalidValue) ∧
      r.bits = if a.width = b.width then List.zipWith g a.bits b.bits else a.bits := by
  by_cases hsame : a.width = b.width
  · have hsize : a.size = b.size := by rw [size_eq, size_eq, hsame]
    obtain ⟨r, hr, hwrote⟩ := transformBytes_bit hbop hsize (Nat.le_refl a.size)
    rw [if_pos hsame, if_pos hsame]
    refine ⟨r, hwrote.width, ?_, hwrote.bits_all (by rw [size_of_lt hwidth]; omega) hwidth (by simp [hsame]) fun i hi => ?_⟩
    · simp only [loopTransformBytes, hsame, ne_eq, not_true_eq_false, if_false, hr, ok_bind]
      rfl
    · rw [List.getElem?_zipWith, bits_getElem? hwidth hi, bits_getElem? (hsame ▸ hwidth) (hsame ▸ hi)]
      cases a.bit? i <;> cases b.bit? i <;> rfl
  · rw [if_neg hsame, if_neg hsame]
    exact ⟨a, rfl, by rw [loopTransformBytes, if_pos hsame]; rfl, rfl⟩

/-- After `n` rounds the first and the last `n` bits have changed places. -/
theorem reverseRounds_bit (hwidth : a.width < 2 ^ 32) {n : ℕ} (hn : 2 * n ≤ a.width) :
    ∃ r, reverseRounds a.width n a = .ok r ∧ r.width = a.width ∧
      ∀ i < a.width, r.bit? i = if i < n ∨ a.width - n ≤ i then a.bit? (a.width - 1 - i) else a.bit? i := by
  induction n with
  | zero =>
    refine ⟨a, rfl, rfl, fun i hi => ?_⟩
    rw [if_neg (by omega)]
  | succ n ih =>
    obtain ⟨m, hm, hm_width, hm_bit⟩ := ih (by omega)
    have hm_lt : m.width < 2 ^ 32 := hm_width ▸ hwidth
    have hlast : a.width - n = a.width - n - 1 + 1 := by omega
    obtain ⟨temp, htemp⟩ := exists_bit hm_lt (show n < m.width by omega)
    obtain ⟨bit, hbit⟩ := exists_bit hm_lt (show a.width - n - 1 < m.width by omega)
    have hget₁ : bitrGet m (n + 1) = .ok (temp.toNat : ℤ) := by
      rw [bitrGet_eq (by omega), htemp, Option.elim_some]
    have hget₂ : bitrGet m (a.width - n) = .ok (bit.toNat : ℤ) := by
      rw [hlast, bitrGet_eq (by omega), hbit, Option.elim_some]
    obtain ⟨m', hset₁, hwrote₁⟩ := bitrSetval_bit (show n < m.width by omega) (by rw [size_of_lt hm_lt]; omega) bit
    obtain ⟨r, hset₂, hwrote₂⟩ := bitrSetval_bit (a := m') (i := a.width - n - 1) (by rw [hwrote₁.width]; omega)
      (by rw [hwrote₁.size, size_of_lt hm_lt]; omega) temp
    refine ⟨r, ?_, hwrote₂.width.trans (hwrote₁.width.trans hm_width), fun i hi => ?_⟩
    · rw [← hlast] at hset₂
      simp only [reverseRounds, hm, hget₁, hget₂, ok_bind, hset₁, hset₂]
      rfl
    · rw [hwrote₂.bits, hwrote₁.bits]
      have hfrom₁ := hm_bit n (by omega)
      have hfrom₂ := hm_bit (a.width - n - 1) (by omega)
      rw [if_neg (by omega)] at hfrom₁ hfrom₂
      by_cases h₂ : i = a.width - n - 1
      · have hback : a.width - 1 - i = n := by omega
        rw [if_pos (by omega), if_pos (by omega), ← htemp, hfrom₁, hback]
      by_cases h₁ : i = n
      · have hback : a.width - 1 - i = a.width - n - 1 := by omega
        rw [if_neg (by omega), if_pos (by omega), if_pos (by omega), ← hbit, hfrom₂, hback]
      · rw [if_neg (by omega), if_neg (by omega), hm_bit i hi]
        by_cases hin : i < n ∨ a.width - n ≤ i
        · rw [if_pos hin, if_pos (by omega)]
        · rw [if_neg hin, if_neg (by omega)]

theorem bitrReverse_bits (hwidth : a.width < 2 ^ 32) :
    ∃ r, bitrReverse a = .ok r ∧ r.width = a.width ∧ r.bits = a.bits.reverse := by
  obtain ⟨r, hr, hr_width, hr_bit⟩ := reverseRounds_bit hwidth (show 2 * (a.width / 2) ≤ a.width by omega)
  refine ⟨r, hr, hr_width, bits_eq (by simp [hr_width]) (by rw [hr_width]; exact hwidth) fun i hi => ?_⟩
  rw [hr_width] at hi
  rw [hr_bit i hi, List.getElem?_reverse (by simpa using hi), bits_length, bits_getElem? hwidth (by omega)]
  by_cases hin : i < a.width / 2 ∨ a.width - a.width / 2 ≤ i
  · rw [if_pos hin]
  · -- the bit in the middle of an odd number of them
    have hmid : a.width - 1 - i = i := by omega
    rw [if_neg hin, hmid]

/-! ## Shifts and the two ends -/

/-- The bits shifted to the left by `n`, towards the end of the list. -/
def lshiftBits (n : ℕ) (rotate : Bool) (l : List Bool) : List Bool :=
  (if rotate then l.drop (l.length - n) else List.replicate n false) ++ l.take (l.length - n)

def rshiftBits (n : ℕ) (rotate : Bool) (l : List Bool) : List Bool :=
  l.drop n ++ if rotate then l.take n else List.replicate n false

theorem bitrLshift_bits (rotate : Bool) (hwidth : a.width < 2 ^ 32) {n : ℕ} (hn : n ≤ a.width) :
    ∃ r, bitrLshift a n rotate = .ok r ∧ r.width = a.width ∧ r.bits = lshiftBits n rotate a.bits := by
  obtain ⟨r, hr, hwrote⟩ := bitrLshift_bit rotate hwidth hn
  have hlen : (if rotate then a.bits.drop (a.bits.length - n) else List.replicate n false).length = n := by
    cases rotate
    · simp
    · simp
      omega
  refine ⟨r, hr, hwrote.width, hwrote.bits_all (Nat.le_refl _) hwidth ?_ fun i hi => ?_⟩
  · rw [lshiftBits, List.length_append, hlen]
    simp
    omega
  · unfold lshifted lshiftBits
    by_cases hi' : n ≤ i
    · rw [if_pos hi', List.getElem?_append_right (by omega), hlen, List.getElem?_take, if_pos (by simp; omega),
        bits_getElem? hwidth (by omega)]
    · rw [if_neg hi', List.getElem?_append_left (by omega)]
      cases rotate with
      | true => rw [if_pos rfl, if_pos rfl, List.getElem?_drop, bits_length, bits_getElem? hwidth (by omega)]
      | false => rw [if_neg Bool.false_ne_true, if_neg Bool.false_ne_true]; simp [Nat.lt_of_not_le hi']

theorem bitrRshift_bits (rotate : Bool) (hwidth : a.width < 2 ^ 32) {n : ℕ} (hn : n ≤ a.width) :
    ∃ r, bitrRshift a n rotate = .ok r ∧ r.width = a.width ∧ r.bits = rshiftBits n rotate a.bits := by
  obtain ⟨r, hr, hwrote⟩ := bitrRshift_bit rotate hwidth hn
  refine ⟨r, hr, hwrote.width, hwrote.bits_all (Nat.le_refl _) hwidth ?_ fun i hi => ?_⟩
  · unfold rshiftBits
    cases rotate <;> simp <;> omega
  · unfold rshifted rshiftBits
    by_cases hi' : i < a.width - n
    · rw [if_pos hi', List.getElem?_append_left (by simp; omega), List.getElem?_drop, Nat.add_comm,
        bits_getElem? hwidth (by omega)]
    · rw [if_neg hi', List.getElem?_append_right (by simp; omega), List.length_drop, bits_length]
      cases rotate with
      | true =>
        rw [if_pos rfl, if_pos rfl, List.getElem?_take, if_pos (by omega), bits_getElem? hwidth (by omega)]
      | false =>
        rw [if_neg Bool.false_ne_true, if_neg Bool.false_ne_true]
        simp [show i - (a.width - n) < n by omega]

theorem bitrLpush_bits (hwidth : a.width < 2 ^ 32) (isOn : Bool) :
    ∃ r, bitrLpush a isOn = .ok r ∧ r.width = a.width ∧ r.bits = a.bits.tail ++ [isOn] := by
  have hpos := a.width_pos
  obtain ⟨m, hm, hm_width, hm_bits⟩ := bitrRshift_bits false hwidth (show 1 ≤ a.width by omega)
  have hlast : m.width = m.width - 1 + 1 := by omega
  obtain ⟨r, hr, hr_width, hr_bits⟩ := bitrSetval_bits (hm_width ▸ hwidth) (show m.width - 1 < m.width by omega) isOn
  rw [← hlast] at hr
  refine ⟨r, ?_, hr_width.trans hm_width, ?_⟩
  · have hcast : ((isOn.toNat : ℕ) : ℤ) = if isOn then 1 else 0 := by cases isOn <;> rfl
    rw [hcast] at hr
    simp only [bitrLpush, hm, ok_bind, hr]
    rfl
  · rw [hr_bits, hm_bits, rshiftBits, if_neg Bool.false_ne_true, hm_width, List.set_append_right _ _ (by simp)]
    simp

theorem bitrRpush_bits (hwidth : a.width < 2 ^ 32) (isOn : Bool) :
    ∃ r, bitrRpush a isOn = .ok r ∧ r.width = a.width ∧ r.bits = isOn :: a.bits.dropLast := by
  have hpos := a.width_pos
  obtain ⟨m, hm, hm_width, hm_bits⟩ := bitrLshift_bits false hwidth (show 1 ≤ a.width by omega)
  obtain ⟨r, hr, hr_width, hr_bits⟩ := bitrSetval_bits (hm_width ▸ hwidth) (show 0 < m.width by omega) isOn
  refine ⟨r, ?_, hr_width.trans hm_width, ?_⟩
  · have hcast : ((isOn.toNat : ℕ) : ℤ) = if isOn then 1 else 0 := by cases isOn <;> rfl
    rw [hcast] at hr
    simp only [bitrRpush, hm, ok_bind]
    rw [show bitrSetval m 1 (if isOn then 1 else 0) = _ from hr]
    rfl
  · rw [hr_bits, hm_bits, lshiftBits, if_neg Bool.false_ne_true, List.dropLast_eq_take]
    rfl

theorem bitrLpop_bits (hwidth : a.width < 2 ^ 32) : ∃ r, r.width = a.width ∧
    bitrLpop a = .ok (r, ((a.bits.getD (a.width - 1) false).toNat : ℤ)) ∧ r.bits = false :: a.bits.dropLast := by
  have hpos := a.width_pos
  obtain ⟨r, hr, hr_width, hr_bits⟩ := bitrLshift_bits false hwidth (show 1 ≤ a.width by omega)
  refine ⟨r, hr_width, ?_, ?_⟩
  · rw [bitrLpop, bitrGet_bits hwidth, if_pos ⟨hpos, Nat.le_refl _⟩, ok_bind, hr]
    rfl
  · rw [hr_bits, lshiftBits, if_neg Bool.false_ne_true, List.dropLast_eq_take]
    rfl

theorem bitrRpop_bits (hwidth : a.width < 2 ^ 32) : ∃ r, r.width = a.width ∧
    bitrRpop a = .ok (r, ((a.bits.getD 0 false).toNat : ℤ)) ∧ r.bits = a.bits.tail ++ [false] := by
  have hpos := a.width_pos
  obtain ⟨r, hr, hr_width, hr_bits⟩ := bitrRshift_bits false hwidth (show 1 ≤ a.width by omega)
  refine ⟨r, hr_width, ?_, ?_⟩
  · rw [bitrRpop, bitrGet_bits hwidth, if_pos ⟨Nat.one_pos, hpos⟩, ok_bind, hr]
    rfl
  · rw [hr_bits, rshiftBits, if_neg Bool.false_ne_true, List.drop_one]
    rfl

/-- The copy is the array, as long as eight times its bytes are a `uint32_t`. -/
theorem bitrClone_eq (hwidth : a.width ≤ 2 ^ 32 - 8) : bitrClone a = .ok a := by
  have hpos := a.width_pos
  have hsize := size_of_lt (a := a) (by omega)
  change a.bytes.length = _ at hsize
  have hbits : bytes2bits a.bytes.length = 8 * a.bytes.length := by
    unfold bytes2bits
    omega
  obtain ⟨new, hnew, hnew_width, -⟩ := allocateBitarray_eq (show 0 < 8 * a.bytes.length by omega) (by omega)
  have hnew_size : new.size = a.bytes.length := by
    rw [size_of_lt (by omega), hnew_width]
    omega
  obtain ⟨r, hr⟩ := memcpy_iff.2 (show 0 + a.bytes.length ≤ new.size by omega)
  have hbytes : r.bytes = a.bytes := by
    have hwrote := memcpy_bit hr
    refine eq_of_bitAt fun i => ?_
    have hbit := hwrote.bits i
    by_cases hi : i < 8 * a.bytes.length
    · rw [if_pos (by omega)] at hbit
      exact hbit
    · have hout : ∀ x : Bitarray, x.size = a.bytes.length → x.bit? i = none := fun x hx =>
        bitAt_eq_none_iff.2 (by change 8 * x.size ≤ i; omega)
      exact (hout r (hwrote.size.trans hnew_size)).trans (hout a rfl).symm
  have hcopy : r.bytes.length = calculateRequiredSize a.width := by rw [hbytes, ← size_eq]; rfl
  have hfrom : bitrFrombuff none a.bytes = .ok (some r) := by
    unfold bitrFrombuff
    rw [if_neg (by rw [bitrMaxcap_eq]; omega), hbits, hnew, ok_bind]
    exact map_some_iff.2 hr
  rw [bitrClone, hfrom, ok_bind]
  simp only [dif_pos hcopy]
  refine congrArg Except.ok (eq_of_bits rfl fun i => ?_)
  show bitAt r.bytes i = bitAt a.bytes i
  rw [hbytes]

end Libtarp.Bitr
