import Libtarp.Bitarray.Bulk
import Libtarp.Bitarray.FromString
import Libtarp.Bitarray.Repeat

/-!
# The size of a bit array (`bitarray.c`, `allocate_bitarray`)

All functions that make an array allocate it with `allocate_bitarray`. The size of the buffer is computed from the
number of bits as a `uint32_t`, the width is the whole number.

* `Maker`: the functions, and the number of bits each of them asks for.
* `returns_width`: what is made has that width.
* `allocation_iff`: the buffer has room for it up to 2³² bits.
-/

namespace Libtarp.Bitr

open Lib Bits

/-! ## What is asked for -/

/-- The functions that make an array. -/
inductive Maker
  | allocate (nbits : ℕ)
  | new (nbits : ℕ) (one : Bool)
  | slice (a : Bitarray) (start stop : ℕ)
  | fromstring (s : List Char) (sep : Option (List Char))
  | frombuff (buffer : List UInt8)
  | join (a b : Bitarray)
  | repeated (a : Bitarray) (n : ℕ)

namespace Maker

/-- The number of bits that is asked for, as a number that does not wrap. -/
def nbits : Maker → ℕ
  | allocate nbits => nbits
  | new nbits _ => nbits
  | slice a start stop => (if stop = 0 then a.width + 1 else stop) - (if start = 0 then 1 else start)
  | fromstring s sep => (isValidBitstring s sep).getD 0
  | frombuff buffer => 8 * buffer.length
  | join a b => a.width + b.width
  | repeated a n => a.width * n

def call : Maker → Except MemFault (Option Bitarray)
  | allocate nbits => allocateBitarray nbits
  | new nbits one => bitrNew nbits one
  | slice a start stop => some <$> bitrSlice a start stop
  | fromstring s sep => Prod.snd <$> bitrFromstring none s sep
  | frombuff buffer => bitrFrombuff none buffer
  | join a b => bitrJoin a b
  | repeated a n => bitrRepeat a n

end Maker

/-- A position is in the buffer, for all that read or write a bit. -/
def Addressed (a : Bitarray) (pos : ℕ) : Prop :=
  (∃ v, bitrGet a pos = .ok v) ∧ (∀ v : Bool, ∃ r, bitrSetval a pos v.toNat = .ok (r, 0)) ∧
    (∃ r, bitrClear a pos = .ok (r, 0)) ∧ ∃ r, bitrToggle a pos = .ok (r, 0)

/-- An array that is returned has the width and a buffer for all of it; what is larger than the limit is refused. -/
def Maker.Right (m : Maker) : Prop :=
  (∀ a, m.call = .ok (some a) → a.width = m.nbits ∧ a.size = (m.nbits + 7) / 8 ∧
      ∀ pos, 1 ≤ pos → pos ≤ a.width → Addressed a pos) ∧
    (bitrMaxcap < (m.nbits + 7) / 8 → m.call = .ok none)

/-! ## Nothing changes the width -/

variable {a r src bitr : Bitarray} {nbits : ℕ}

theorem changeBit_width {f : BitVec 8 → ℕ → BitVec 8} {pos : ℕ} {rc : ℤ} (h : changeBit f a pos = .ok (r, rc)) :
    r.width = a.width := by
  unfold changeBit at h
  split_ifs at h
  · obtain ⟨byte, -, h⟩ := bind_ok_iff.1 h
    rw [← (Prod.mk.inj (Except.ok.inj h)).1]
  · rw [← (Prod.mk.inj (Except.ok.inj h)).1]

theorem bitrSetval_width {pos : ℕ} {bitval rc : ℤ} (h : bitrSetval a pos bitval = .ok (r, rc)) : r.width = a.width := by
  unfold bitrSetval at h
  split_ifs at h
  exact changeBit_width h

theorem copyBits_width {start dest count : ℕ} (h : copyBits src start dest count a = .ok r) : r.width = a.width := by
  induction count generalizing r with
  | zero => rw [← Except.ok.inj h]
  | succ count ih =>
    obtain ⟨b, hb, h⟩ := bind_ok_iff.1 h
    obtain ⟨bit, -, h⟩ := bind_ok_iff.1 h
    obtain ⟨⟨b', rc⟩, hset, h⟩ := bind_ok_iff.1 h
    rw [← Except.ok.inj h, bitrSetval_width hset, ih hb]

theorem copyDigits_width {trueLen bai : ℕ} {s : List Char} (h : copyDigits trueLen s bai a = .ok r) :
    r.width = a.width := by
  induction s generalizing a bai with
  | nil => rw [← Except.ok.inj h]
  | cons c s ih =>
    unfold copyDigits at h
    by_cases hdone : trueLen < bai
    · rw [if_pos hdone] at h
      rw [← Except.ok.inj h]
    rw [if_neg hdone] at h
    by_cases hc : isBit c = true
    · rw [if_pos hc] at h
      obtain ⟨⟨b, rc⟩, hset, h⟩ := bind_ok_iff.1 h
      rw [ih h, bitrSetval_width hset]
    · rw [if_neg hc] at h
      exact ih h

theorem repeatRounds_width {n : ℕ} (h : repeatRounds bitr n a = .ok r) : r.width = a.width := by
  induction n generalizing r with
  | zero => rw [← Except.ok.inj h]
  | succ n ih =>
    obtain ⟨b, hb, h⟩ := bind_ok_iff.1 h
    rw [(memcpy_bit h).width, ih hb]

theorem repeatBytes_width {n : ℕ} (h : repeatBytes bitr n a = .ok r) : r.width = a.width := by
  obtain ⟨b, hb, h⟩ := bind_ok_iff.1 h
  split_ifs at h
  rw [← Except.ok.inj h, repeatRounds_width hb]

theorem repeatBits_width {n : ℕ} (h : repeatBits bitr n a = .ok r) : r.width = a.width := by
  induction n generalizing r with
  | zero => rw [← Except.ok.inj h]
  | succ n ih =>
    obtain ⟨b, hb, h⟩ := bind_ok_iff.1 h
    rw [copyBits_width h, ih hb]

theorem allocateBitarray_width (h : allocateBitarray nbits = .ok (some a)) : a.width = nbits % 2 ^ 64 := by
  unfold allocateBitarray at h
  split_ifs at h
  · cases Except.ok.inj h
  · rw [← Option.some.inj (Except.ok.inj h)]

theorem bitrNew_width {one : Bool} (h : bitrNew nbits one = .ok (some a)) : a.width = nbits % 2 ^ 64 := by
  obtain ⟨res, hres, h⟩ := bind_ok_iff.1 h
  cases res with
  | none => cases Except.ok.inj h
  | some new =>
    rw [← Option.some.inj (Except.ok.inj h), fillBitarray_width]
    exact allocateBitarray_width hres

/-! ## What each function returns -/

theorem bitrSlice_width {start stop : ℕ} (h : bitrSlice bitr start stop = .ok a) :
    a.width = (if stop = 0 then bitr.width + 1 else stop) - (if start = 0 then 1 else start) := by
  have hlt := bitr.width_lt
  unfold bitrSlice at h
  generalize hstart : (if start = 0 then 1 else start) = first at h ⊢
  have hfirst : 0 < first := by
    rw [← hstart]
    split_ifs <;> omega
  by_cases hwrap : stop = 0 ∧ bitr.width + 1 = 2 ^ 64
  · -- the position after the last bit is 0
    simp only [if_pos hwrap.1, hwrap.2, Nat.mod_self] at h
    rw [if_pos (Nat.zero_le first)] at h
    cases h
  have hstop : (if stop = 0 then (bitr.width + 1) % 2 ^ 64 else stop) = if stop = 0 then bitr.width + 1 else stop := by
    by_cases h0 : stop = 0
    · rw [if_pos h0, if_pos h0, Nat.mod_eq_of_lt (by omega)]
    · rw [if_neg h0, if_neg h0]
  simp only [hstop] at h
  generalize (if stop = 0 then bitr.width + 1 else stop) = last at h ⊢
  split_ifs at h with h1 h2
  obtain ⟨new, hnew, h⟩ := bind_ok_iff.1 h
  cases new with
  | none => cases h
  | some new =>
    have hmod := Nat.mod_lt (bitr.width + 1) (Nat.two_pow_pos 64)
    rw [copyBits_width h, bitrNew_width hnew, Nat.mod_eq_of_lt (by omega)]

theorem bitrFromstring_width {s : List Char} {sep : Option (List Char)} {dest : Option Bitarray}
    (h : bitrFromstring none s sep = .ok (dest, some a)) : a.width = (isValidBitstring s sep).getD 0 % 2 ^ 64 := by
  unfold bitrFromstring at h
  cases hvalid : isValidBitstring s sep with
  | none =>
    rw [hvalid] at h
    cases Except.ok.inj h
  | some trueLen =>
    rw [hvalid] at h
    obtain ⟨new, hnew, h⟩ := bind_ok_iff.1 h
    cases new with
    | none => cases Except.ok.inj h
    | some new =>
      obtain ⟨r, hr, h⟩ := bind_ok_iff.1 h
      rw [Option.getD_some, ← Option.some.inj (Prod.mk.inj (Except.ok.inj h)).2, copyDigits_width hr,
        allocateBitarray_width hnew]

theorem bitrFrombuff_width {buffer : List UInt8} (h : bitrFrombuff none buffer = .ok (some a)) :
    a.width = 8 * buffer.length % 2 ^ 64 := by
  unfold bitrFrombuff at h
  split_ifs at h with hcap
  · cases Except.ok.inj h
  · obtain ⟨new, hnew, h⟩ := bind_ok_iff.1 h
    cases new with
    | none => cases Except.ok.inj h
    | some new =>
      rw [(memcpy_bit (map_some_iff.1 h)).width, allocateBitarray_width hnew]
      unfold bytes2bits
      rw [Nat.mod_mod, Nat.mul_comm]

theorem bitrJoin_width {b : Bitarray} (h : bitrJoin bitr b = .ok (some a)) :
    a.width = (bitr.width + b.width) % 2 ^ 64 := by
  unfold bitrJoin at h
  by_cases hcap : bitrMaxcap - bitr.size < b.size
  · rw [if_pos hcap] at h
    cases Except.ok.inj h
  · rw [if_neg hcap] at h
    obtain ⟨new, hnew, h⟩ := bind_ok_iff.1 h
    cases new with
    | none => cases h
    | some new =>
      have hkeep : a.width = new.width := by
        split_ifs at h with hfast
        · obtain ⟨c, hc, h⟩ := bind_ok_iff.1 (map_some_iff.1 h)
          rw [(memcpy_bit h).width, (memcpy_bit hc).width]
        · obtain ⟨c, hc, h⟩ := bind_ok_iff.1 (map_some_iff.1 h)
          rw [copyBits_width h, copyBits_width hc]
      rw [hkeep, allocateBitarray_width hnew]

theorem bitrRepeat_width {n : ℕ} (h : bitrRepeat bitr n = .ok (some a)) : a.width = bitr.width * n % 2 ^ 64 := by
  unfold bitrRepeat at h
  by_cases hcap : bitrMaxcap / n < bitr.size
  · rw [if_pos hcap] at h
    cases Except.ok.inj h
  · rw [if_neg hcap] at h
    obtain ⟨new, hnew, h⟩ := bind_ok_iff.1 h
    cases new with
    | none => cases Except.ok.inj h
    | some new =>
      have hkeep : a.width = new.width := by
        split_ifs at h with hfast
        · exact repeatBytes_width (map_some_iff.1 h)
        · exact repeatBits_width (map_some_iff.1 h)
      rw [hkeep, allocateBitarray_width hnew]

/-- What is made has the width that was asked for. -/
theorem returns_width (m : Maker) (hlt : m.nbits < 2 ^ 64) (h : m.call = .ok (some a)) : a.width = m.nbits := by
  rw [← Nat.mod_eq_of_lt hlt]
  cases m with
  | allocate nbits => exact allocateBitarray_width h
  | new nbits one => exact bitrNew_width h
  | slice bitr start stop => exact (bitrSlice_width (map_some_iff.1 h)).trans (Nat.mod_eq_of_lt hlt).symm
  | fromstring s sep =>
    obtain ⟨⟨dest, res⟩, hres, h⟩ : ∃ y, bitrFromstring none s sep = .ok y ∧ y.2 = some a := by
      change Prod.snd <$> bitrFromstring none s sep = _ at h
      cases hcall : bitrFromstring none s sep with
      | error e => rw [hcall] at h; cases h
      | ok y =>
        rw [hcall] at h
        exact ⟨y, rfl, Except.ok.inj h⟩
    obtain rfl : res = some a := h
    exact bitrFromstring_width hres
  | frombuff buffer => exact bitrFrombuff_width h
  | join a b => exact bitrJoin_width h
  | repeated a n => exact bitrRepeat_width h

/-! ## When there is room -/

theorem addressed_of_lt {pos : ℕ} (hwidth : a.width < 2 ^ 32) (h1 : 1 ≤ pos) (hpos : pos ≤ a.width) : Addressed a pos := by
  obtain ⟨i, rfl⟩ := Nat.exists_eq_add_of_le' h1
  have hsize := size_eq a
  rw [calculateRequiredSize_of_lt hwidth] at hsize
  obtain ⟨v, hv⟩ := exists_bit hwidth hpos
  refine ⟨⟨v.toNat, ?_⟩, fun v => ?_, ?_, ?_⟩
  · rw [bitrGet_eq hpos, hv, Option.elim_some]
  · obtain ⟨r, hr, -⟩ := bitrSetval_bit (a := a) (i := i) hpos (by omega) v
    exact ⟨r, hr⟩
  · obtain ⟨r, hr, -⟩ := bitfunc_bit .clear hpos (by omega)
    exact ⟨r, hr⟩
  · obtain ⟨r, hr, -⟩ := bitfunc_bit .toggle hpos (by omega)
    exact ⟨r, hr⟩

theorem Maker.right_of_lt {m : Maker} (hlt : m.nbits < 2 ^ 32) : m.Right := by
  refine ⟨fun a ha => ?_, fun hcap => ?_⟩
  · have hwidth := returns_width m (by omega) ha
    refine ⟨hwidth, ?_, fun pos h1 hpos => addressed_of_lt (by omega) h1 hpos⟩
    rw [size_eq, hwidth, calculateRequiredSize_of_lt hlt]
  · rw [bitrMaxcap_eq] at hcap
    omega

/-- The buffer is as large as the number of bits modulo 2³² makes it. -/
theorem allocate_small (h0 : 0 < nbits) (hlt : nbits < 2 ^ 64) (hwide : 2 ^ 32 ≤ nbits) :
    ¬ (Maker.allocate nbits).Right := by
  intro h
  obtain ⟨a, ha, hwidth, -⟩ := allocateBitarray_eq h0 hlt
  have hsize : a.size = (nbits + 7) / 8 := (h.1 a ha).2.1
  rw [size_eq, hwidth, calculateRequiredSize_eq] at hsize
  omega

/-- **The arrays have room for their bits exactly up to 2³² bits.** -/
theorem allocation_iff (nbits : ℕ) (h0 : 0 < nbits) (hlt : nbits < 2 ^ 64) :
    (∀ m : Maker, m.nbits = nbits → m.Right) ↔ nbits < 2 ^ 32 := by
  constructor
  · intro h
    by_contra hwide
    exact allocate_small h0 hlt (Nat.le_of_not_lt hwide) (h (.allocate nbits) rfl)
  · rintro hsmall m rfl
    exact Maker.right_of_lt hsmall

theorem allocation_nine : (Maker.new 9 true).Right :=
  (allocation_iff 9 (by decide) (by decide)).2 (by decide) (.new 9 true) rfl

/-- **An array of 2³² bits has no buffer.** -/
theorem allocate_truncated : ¬ (Maker.allocate (2 ^ 32)).Right := allocate_small (by decide) (by decide) le_rfl

end Libtarp.Bitr
