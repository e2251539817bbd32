import Libtarp.Bitarray.Bitwise
import Libtarp.Lib.Run
import Mathlib.Logic.Function.Basic

/-!
# Bit arrays are sequences of bits

`spec` says what the calls are for, on lists of bits of which the first is the lowest. It knows nothing of bytes.

* `exec`: one call on any of a number of arrays.
* `bit_sequences`: whatever calls are made on arrays they answer as lists of bits do, and stay in their buffers.
-/

namespace Libtarp.Bitr

open Function Lib Bits

variable {ι : Type} [DecidableEq ι]

inductive Call (ι : Type) where
  | get (i : ι) (pos : ℕ)
  | setval (i : ι) (pos : ℕ) (bitval : ℤ)
  | clear (i : ι) (pos : ℕ)
  | toggle (i : ι) (pos : ℕ)
  | any (i : ι)
  | all (i : ι)
  | none (i : ι)
  | bor (i j : ι)
  | band (i j : ι)
  | bxor (i j : ι)
  | bnot (i : ι)
  | reverse (i : ι)
  | lshift (i : ι) (n : ℕ) (rotate : Bool)
  | rshift (i : ι) (n : ℕ) (rotate : Bool)
  | lpush (i : ι) (isOn : Bool)
  | rpush (i : ι) (isOn : Bool)
  | lpop (i : ι)
  | rpop (i : ι)
  /-- the array `i` is replaced by a clone of `j` -/
  | clone (i j : ι)

inductive Answer where
  | code (r : ℤ)
  | flag (b : Bool)
  | done
deriving DecidableEq

/-- The array `i` is changed, and a code returned. -/
def changed (s : ι → Bitarray) (i : ι) : Except MemFault (Bitarray × ℤ) → Except MemFault ((ι → Bitarray) × Answer)
  | .error e => .error e
  | .ok (a, r) => .ok (update s i a, .code r)

def replaced (s : ι → Bitarray) (i : ι) : Except MemFault Bitarray → Except MemFault ((ι → Bitarray) × Answer)
  | .error e => .error e
  | .ok a => .ok (update s i a, .done)

omit [DecidableEq ι] in
def asked (s : ι → Bitarray) : Except MemFault Bool → Except MemFault ((ι → Bitarray) × Answer)
  | .error e => .error e
  | .ok b => .ok (s, .flag b)

def exec : Call ι → (ι → Bitarray) → Except MemFault ((ι → Bitarray) × Answer)
  | .get i pos, s =>
    match bitrGet (s i) pos with
    | .error e => .error e
    | .ok r => .ok (s, .code r)
  | .setval i pos bitval, s => changed s i (bitrSetval (s i) pos bitval)
  | .clear i pos, s => changed s i (bitrClear (s i) pos)
  | .toggle i pos, s => changed s i (bitrToggle (s i) pos)
  | .any i, s => asked s (bitrAny (s i))
  | .all i, s => asked s (bitrAll (s i))
  | .none i, s => asked s (bitrNone (s i))
  | .bor i j, s => changed s i (bitrBor (s i) (s j))
  | .band i j, s => changed s i (bitrBand (s i) (s j))
  | .bxor i j, s => changed s i (bitrBxor (s i) (s j))
  | .bnot i, s => changed s i (bitrBnot (s i))
  | .reverse i, s => replaced s i (bitrReverse (s i))
  | .lshift i n rotate, s => replaced s i (bitrLshift (s i) n rotate)
  | .rshift i n rotate, s => replaced s i (bitrRshift (s i) n rotate)
  | .lpush i isOn, s => replaced s i (bitrLpush (s i) isOn)
  | .rpush i isOn, s => replaced s i (bitrRpush (s i) isOn)
  | .lpop i, s => changed s i (bitrLpop (s i))
  | .rpop i, s => changed s i (bitrRpop (s i))
  | .clone i j, s => replaced s i (bitrClone (s j))

/-! ## Lists of bits -/

/-- A bit is changed by `f`, where there is one. -/
def changeAt (f : Bool → Bool) (pos : ℕ) (l : List Bool) : List Bool × ℤ :=
  if 0 < pos ∧ pos ≤ l.length then (l.modify (pos - 1) f, 0) else (l, outOfBounds)

/-- Two lists of one length are combined. -/
def combine (g : Bool → Bool → Bool) (l l' : List Bool) : List Bool × ℤ :=
  if l.length = l'.length then (List.zipWith g l l', 0) else (l, invalidValue)

def specChanged (t : ι → List Bool) (i : ι) (p : List Bool × ℤ) : Except MemFault ((ι → List Bool) × Answer) :=
  .ok (update t i p.1, .code p.2)

def spec : Call ι → (ι → List Bool) → Except MemFault ((ι → List Bool) × Answer)
  | .get i pos, t =>
    .ok (t, .code (if 0 < pos ∧ pos ≤ (t i).length then (((t i).getD (pos - 1) false).toNat : ℤ) else outOfBounds))
  | .setval i pos bitval, t =>
    if bitval = 1 ∨ bitval = 0 then specChanged t i (changeAt (fun _ => bitval = 1) pos (t i)) else .error .assertion
  | .clear i pos, t => specChanged t i (changeAt (fun _ => false) pos (t i))
  | .toggle i pos, t => specChanged t i (changeAt not pos (t i))
  | .any i, t => .ok (t, .flag ((t i).any id))
  | .all i, t => .ok (t, .flag ((t i).all id))
  | .none i, t => .ok (t, .flag (!(t i).any id))
  | .bor i j, t => specChanged t i (combine or (t i) (t j))
  | .band i j, t => specChanged t i (combine and (t i) (t j))
  | .bxor i j, t => specChanged t i (combine xor (t i) (t j))
  | .bnot i, t => specChanged t i ((t i).map not, 0)
  | .reverse i, t => .ok (update t i (t i).reverse, .done)
  | .lshift i n rotate, t =>
    if n ≤ (t i).length then .ok (update t i (lshiftBits n rotate (t i)), .done) else .error .assertion
  | .rshift i n rotate, t =>
    if n ≤ (t i).length then .ok (update t i (rshiftBits n rotate (t i)), .done) else .error .assertion
  | .lpush i isOn, t => .ok (update t i ((t i).tail ++ [isOn]), .done)
  | .rpush i isOn, t => .ok (update t i (isOn :: (t i).dropLast), .done)
  | .lpop i, t => specChanged t i (false :: (t i).dropLast, (((t i).getD ((t i).length - 1) false).toNat : ℤ))
  | .rpop i, t => specChanged t i ((t i).tail ++ [false], (((t i).getD 0 false).toNat : ℤ))
  | .clone i j, t => .ok (update t i (t j), .done)

/-! ## One call -/

/-- The arrays hold the lists, and each can be cloned. -/
def Hold (s : ι → Bitarray) (t : ι → List Bool) : Prop := ∀ i, (s i).width ≤ 2 ^ 32 - 8 ∧ (s i).bits = t i

/-- The two do the same, or stop for the same reason. -/
def Agree (x : Except MemFault ((ι → Bitarray) × Answer)) (y : Except MemFault ((ι → List Bool) × Answer)) : Prop :=
  (∃ e, x = .error e ∧ y = .error e) ∨ ∃ s t r, x = .ok (s, r) ∧ y = .ok (t, r) ∧ Hold s t

variable {s : ι → Bitarray} {t : ι → List Bool} {i : ι}

theorem Hold.update (h : Hold s t) {r : Bitarray} {l : List Bool} (hwidth : r.width ≤ 2 ^ 32 - 8) (hbits : r.bits = l) :
    Hold (update s i r) (update t i l) := by
  intro k
  by_cases hk : k = i
  · subst hk
    rw [update_self, update_self]
    exact ⟨hwidth, hbits⟩
  · rw [update_of_ne hk, update_of_ne hk]
    exact h k

omit [DecidableEq ι] in
theorem Hold.lt (h : Hold s t) (i : ι) : (s i).width < 2 ^ 32 := by
  have := (h i).1
  omega

omit [DecidableEq ι] in
theorem Hold.length (h : Hold s t) (i : ι) : (t i).length = (s i).width := by
  rw [← (h i).2, bits_length]

theorem agree_changed (h : Hold s t) {x : Except MemFault (Bitarray × ℤ)} {p : List Bool × ℤ}
    (hx : ∃ r, r.width = (s i).width ∧ x = .ok (r, p.2) ∧ r.bits = p.1) : Agree (changed s i x) (specChanged t i p) := by
  obtain ⟨r, hwidth, rfl, hbits⟩ := hx
  exact .inr ⟨_, _, _, rfl, rfl, h.update (by rw [hwidth]; exact (h i).1) hbits⟩

theorem agree_replaced (h : Hold s t) {x : Except MemFault Bitarray} {l : List Bool}
    (hx : ∃ r, x = .ok r ∧ r.width = (s i).width ∧ r.bits = l) : Agree (replaced s i x) (.ok (update t i l, .done)) := by
  obtain ⟨r, rfl, hwidth, hbits⟩ := hx
  exact .inr ⟨_, _, _, rfl, rfl, h.update (by rw [hwidth]; exact (h i).1) hbits⟩

theorem agree_changeAt (h : Hold s t) {f : BitVec 8 → ℕ → BitVec 8} {g : Bool → Bool} (pos : ℕ)
    (hf : ∀ byte pos, ∀ j < 8, (f byte pos).getLsbD j = if j = pos - 1 then g (byte.getLsbD j) else byte.getLsbD j) :
    Agree (changed s i (changeBit f (s i) pos)) (specChanged t i (changeAt g pos (t i))) := by
  obtain ⟨r, hwidth, hr, hbits⟩ := changeBit_bits hf (h.lt i) pos
  refine agree_changed h ⟨r, hwidth, ?_, ?_⟩
  · rw [hr, changeAt, h.length]
    split <;> rfl
  · rw [hbits, changeAt, h.length, (h i).2]
    split <;> rfl

theorem agree_combine (h : Hold s t) {bop : UInt8 → UInt8 → UInt8} {g : Bool → Bool → Bool} (i j : ι)
    (hbop : ∀ x y : UInt8, ∀ k < 8, (bop x y).toBitVec.getLsbD k = g (x.toBitVec.getLsbD k) (y.toBitVec.getLsbD k)) :
    Agree (changed s i (loopTransformBytes bop (s i) (s j))) (specChanged t i (combine g (t i) (t j))) := by
  obtain ⟨r, hwidth, hr, hbits⟩ := loopTransformBytes_bits (b := s j) hbop (h.lt i)
  refine agree_changed h ⟨r, hwidth, ?_, ?_⟩
  · rw [hr, combine, h.length, h.length]
    split <;> rfl
  · rw [hbits, combine, h.length, h.length, (h i).2, (h j).2]
    split <;> rfl

/-- **One call** does to the arrays what it does to the lists. -/
theorem exec_agrees (h : Hold s t) (c : Call ι) : Agree (exec c s) (spec c t) := by
  cases c with
  | get i pos =>
    refine .inr ⟨s, t, .code _, ?_, rfl, h⟩
    simp only [exec, bitrGet_bits (h.lt i), h.length, (h i).2]
  | setval i pos bitval =>
    by_cases hval : bitval = 1 ∨ bitval = 0
    · have hbool : bitval = ((decide (bitval = 1)).toNat : ℤ) := by rcases hval with rfl | rfl <;> rfl
      have hagree := agree_changeAt (i := i) (g := fun _ => decide (bitval = 1)) h pos
        fun byte pos j hj => getLsbD_setBitval byte hj (decide (bitval = 1))
      rw [← hbool] at hagree
      simp only [exec, spec, bitrSetval, if_pos hval]
      exact hagree
    · refine .inl ⟨.assertion, ?_, if_neg hval⟩
      simp only [exec, bitrSetval, if_neg hval]
      rfl
  | clear i pos => exact agree_changeAt h pos fun byte pos j hj => getLsbD_clearBit byte hj
  | toggle i pos => exact agree_changeAt h pos fun byte pos j hj => getLsbD_toggleBit byte hj
  | any i => exact .inr ⟨s, t, _, by simp only [exec, bitrAny_eq (h.lt i), asked, (h i).2], rfl, h⟩
  | all i => exact .inr ⟨s, t, _, by simp only [exec, bitrAll_eq (h.lt i), asked, (h i).2], rfl, h⟩
  | none i => exact .inr ⟨s, t, _, by simp only [exec, bitrNone_eq (h.lt i), asked, (h i).2], rfl, h⟩
  | bor i j => exact agree_combine h i j fun x y k _ => by simp
  | band i j => exact agree_combine h i j fun x y k _ => by simp
  | bxor i j => exact agree_combine h i j fun x y k _ => by simp
  | bnot i =>
    have hagree : Agree (changed s i (loopTransformBytes (fun _ y => ~~~y) (s i) (s i)))
        (specChanged t i (combine (fun _ y => !y) (t i) (t i))) := agree_combine h i i fun x y k hk => by simp [hk]
    have hmap : combine (fun _ y => !y) (t i) (t i) = ((t i).map not, 0) := by
      rw [combine, if_pos rfl, List.zipWith_self]
    rw [hmap] at hagree
    exact hagree
  | reverse i => exact agree_replaced h ((h i).2 ▸ bitrReverse_bits (h.lt i))
  | lshift i n rotate =>
    by_cases hn : n ≤ (s i).width
    · rw [spec, if_pos (by rw [h.length]; exact hn)]
      exact agree_replaced h ((h i).2 ▸ bitrLshift_bits rotate (h.lt i) hn)
    · refine .inl ⟨.assertion, ?_, if_neg (by rw [h.length]; exact hn)⟩
      simp only [exec, bitrLshift, if_pos (Nat.lt_of_not_le hn)]
      rfl
  | rshift i n rotate =>
    by_cases hn : n ≤ (s i).width
    · rw [spec, if_pos (by rw [h.length]; exact hn)]
      exact agree_replaced h ((h i).2 ▸ bitrRshift_bits rotate (h.lt i) hn)
    · refine .inl ⟨.assertion, ?_, if_neg (by rw [h.length]; exact hn)⟩
      simp only [exec, bitrRshift, if_pos (Nat.lt_of_not_le hn)]
      rfl
  | lpush i isOn => exact agree_replaced h ((h i).2 ▸ bitrLpush_bits (h.lt i) isOn)
  | rpush i isOn => exact agree_replaced h ((h i).2 ▸ bitrRpush_bits (h.lt i) isOn)
  | lpop i =>
    obtain ⟨r, hwidth, hr, hbits⟩ := bitrLpop_bits (h.lt i)
    rw [(h i).2] at hr hbits
    exact agree_changed h ⟨r, hwidth, by rw [hr, h.length], hbits⟩
  | rpop i =>
    obtain ⟨r, hwidth, hr, hbits⟩ := bitrRpop_bits (h.lt i)
    rw [(h i).2] at hr hbits
    exact agree_changed h ⟨r, hwidth, hr, hbits⟩
  | clone i j =>
    simp only [exec, bitrClone_eq (h j).1]
    exact .inr ⟨_, _, _, rfl, rfl, h.update (h j).1 (h j).2⟩

/-! ## Any calls -/

/-- Only an assertion stops a call. -/
theorem spec_error {c : Call ι} {t : ι → List Bool} {e : MemFault} (h : spec c t = .error e) : e = .assertion := by
  cases c with
  | setval i pos bitval =>
    simp only [spec] at h
    split at h
    · cases h
    · exact (Except.error.inj h).symm
  | lshift i n rotate =>
    simp only [spec] at h
    split at h
    · cases h
    · exact (Except.error.inj h).symm
  | rshift i n rotate =>
    simp only [spec] at h
    split at h
    · cases h
    · exact (Except.error.inj h).symm
  | get | clear | toggle | any | all | none | bor | band | bxor | bnot | reverse | lpush | rpush | lpop | rpop | clone =>
    cases h

/-- **Whatever calls are made on arrays** that are not too wide to be cloned, they answer as lists of bits do. The only
thing that stops a call is an assertion about its arguments: no byte outside a buffer is read or written. -/
theorem bit_sequences {s : ι → Bitarray} (hwidth : ∀ i, (s i).width ≤ 2 ^ 32 - 8) (cs : List (Call ι)) :
    replies exec cs s = replies spec cs (fun i => (s i).bits) ∧
      (∀ e, .error e ∈ replies exec cs s → e = .assertion) ∧
      ∀ s' rs, runCalls exec cs s = .ok (s', rs) →
        (∀ i, (s' i).width ≤ 2 ^ 32 - 8) ∧ runCalls spec cs (fun i => (s i).bits) = .ok (fun i => (s' i).bits, rs) := by
  have hhold : Hold s fun i => (s i).bits := fun i => ⟨hwidth i, rfl⟩
  obtain ⟨hrep, hruns⟩ := lockstep_of_step (fun c _ _ h => exec_agrees h c) hhold cs
  refine ⟨hrep, fun e he => ?_, fun s' rs hr => ?_⟩
  · rw [hrep] at he
    obtain ⟨c, t, ht⟩ := error_of_mem_replies he
    exact spec_error ht
  · obtain ⟨t', ht, hR⟩ := hruns s' rs hr
    obtain rfl : t' = fun i => (s' i).bits := funext fun i => (hR i).2.symm
    exact ⟨fun i => (hR i).1, ht⟩

theorem bit_sequences_dozen : ∃ s' : ℕ → Bitarray,
    runCalls exec [.rpush 0 true, .bxor 0 1, .reverse 0] (fun _ => dozen) = .ok (s', [.done, .code 0, .done]) ∧
      runCalls spec [.rpush 0 true, .bxor 0 1, .reverse 0] (fun _ : ℕ => dozen.bits) =
        .ok (fun i => (s' i).bits, [.done, .code 0, .done]) := by
  refine ⟨_, rfl, ?_⟩
  exact ((bit_sequences (fun _ => by decide) [.rpush 0 true, .bxor 0 1, .reverse 0]).2.2 _ _ rfl).2

end Libtarp.Bitr
