import Mathlib.Algebra.Group.Nat.Defs
import Mathlib.Tactic.Common

/-!
# Bytes of numbers, and buffers of bytes

* `leBytes`, `leValue`: a number in memory, the least significant byte first, and back;
  `beBytes`, `beValue` the other way round.
* `swap`: the number with its bytes the other way round.
* `store`: bytes stored into memory from a place on.
* `Buffer`: memory of a fixed size. What is written past its end is lost.
-/

namespace Libtarp.Lib

/-! ## Numbers in memory -/

def leBytes : ℕ → ℕ → List UInt8
  | 0, _ => []
  | n + 1, v => UInt8.ofNat v :: leBytes n (v / 256)

def leValue : List UInt8 → ℕ
  | [] => 0
  | b :: bytes => b.toNat + 256 * leValue bytes

def beBytes (n v : ℕ) : List UInt8 := (leBytes n v).reverse

def beValue (bytes : List UInt8) : ℕ := leValue bytes.reverse

def swap (n v : ℕ) : ℕ := leValue (leBytes n v).reverse

@[simp] theorem leBytes_length (n v : ℕ) : (leBytes n v).length = n := by
  induction n generalizing v with
  | zero => rfl
  | succ n ih => rw [leBytes, List.length_cons, ih]

@[simp] theorem beBytes_length (n v : ℕ) : (beBytes n v).length = n := by
  unfold beBytes
  rw [List.length_reverse, leBytes_length]

theorem leBytes_leValue (bytes : List UInt8) : leBytes bytes.length (leValue bytes) = bytes := by
  induction bytes with
  | nil => rfl
  | cons b bytes ih =>
    have hb := b.toNat_lt
    have hdiv : (b.toNat + 256 * leValue bytes) / 256 = leValue bytes := by omega
    have hbyte : UInt8.ofNat (b.toNat + 256 * leValue bytes) = b := by
      apply UInt8.toNat_inj.1
      rw [UInt8.toNat_ofNat']
      omega
    rw [leValue, List.length_cons, leBytes, hdiv, ih, hbyte]

/-- In memory, the other way round is the other way round. -/
theorem leBytes_swap (n v : ℕ) : leBytes n (swap n v) = beBytes n v := by
  have h := leBytes_leValue (leBytes n v).reverse
  rwa [List.length_reverse, leBytes_length] at h

theorem swap_leValue {n : ℕ} {bytes : List UInt8} (h : bytes.length = n) : swap n (leValue bytes) = beValue bytes := by
  unfold swap beValue
  rw [← h, leBytes_leValue]

theorem leBytes_mod (n v : ℕ) : leBytes n (v % 2 ^ (8 * n)) = leBytes n v := by
  induction n generalizing v with
  | zero => rfl
  | succ n ih =>
    have hpow : 2 ^ (8 * (n + 1)) = 256 * 2 ^ (8 * n) := by rw [Nat.mul_succ, Nat.pow_add, Nat.mul_comm]
    have hdiv : v % 2 ^ (8 * (n + 1)) / 256 = v / 256 % 2 ^ (8 * n) := by rw [hpow, Nat.mod_mul_right_div_self]
    have hbyte : UInt8.ofNat (v % 2 ^ (8 * (n + 1))) = UInt8.ofNat v := by
      apply UInt8.toNat_inj.1
      rw [UInt8.toNat_ofNat', UInt8.toNat_ofNat', hpow]
      exact Nat.mod_mul_right_mod ..
    rw [leBytes, leBytes, hdiv, ih, hbyte]

theorem beBytes_mod (n v : ℕ) : beBytes n (v % 2 ^ (8 * n)) = beBytes n v := by
  unfold beBytes
  rw [leBytes_mod]

/-! ## Memory -/

/-- Values stored from a position on. -/
def store {α : Type*} (mem : List α) (pos : ℕ) (values : List α) : List α :=
  mem.take pos ++ values ++ mem.drop (pos + values.length)

section Store

variable {α : Type*} {mem values : List α}

theorem store_front (mem values : List α) : store mem 0 values = values ++ mem.drop values.length := by
  unfold store
  rw [List.take_zero, List.nil_append, Nat.zero_add]

theorem store_length {pos : ℕ} (h : pos + values.length ≤ mem.length) : (store mem pos values).length = mem.length := by
  unfold store
  simp only [List.length_append, List.length_take, List.length_drop]
  omega

/-- What was stored is found in its place, behind what was in front of it. -/
theorem take_store {pos : ℕ} (h : pos ≤ mem.length) (values : List α) :
    (store mem pos values).take (pos + values.length) = mem.take pos ++ values := by
  apply List.take_left'
  rw [List.length_append, List.length_take_of_le h]

/-- What is stored behind the values stored so far. -/
theorem store_next (mem values more : List α) : store (values ++ mem.drop values.length) values.length more =
    (values ++ more) ++ mem.drop (values ++ more).length := by
  unfold store
  rw [List.take_left, List.length_append, ← List.drop_drop, List.drop_left, List.drop_drop]

end Store

/-! ## Buffers -/

@[ext] structure Buffer (n : ℕ) where
  bytes : List UInt8
  size : bytes.length = n

def Buffer.zeros (n : ℕ) : Buffer n := ⟨List.replicate n 0, List.length_replicate⟩

variable {n : ℕ}

/-- Bytes copied into a buffer. -/
def Buffer.write (b : Buffer n) (offset : ℕ) (src : List UInt8) : Buffer n where
  bytes := (b.bytes.take offset ++ src ++ b.bytes.drop (offset + src.length)).take n
  size := by
    have hsize := b.size
    simp only [List.length_take, List.length_append, List.length_drop]
    omega

/-- What is written in range is there, and the rest is as it was. -/
theorem Buffer.write_bytes (b : Buffer n) {offset : ℕ} {src : List UInt8} (h : offset + src.length ≤ n) :
    (b.write offset src).bytes = b.bytes.take offset ++ src ++ b.bytes.drop (offset + src.length) := by
  have hsize := b.size
  apply List.take_of_length_le
  simp only [List.length_append, List.length_take, List.length_drop]
  omega

theorem Buffer.write_self (b : Buffer n) : b.write 0 b.bytes = b := by
  apply Buffer.ext
  rw [b.write_bytes (by rw [b.size]; omega), List.take_zero, List.nil_append, Nat.zero_add, List.drop_length,
    List.append_nil]

/-- A buffer up to the end of what was written. -/
theorem Buffer.take_write (b : Buffer n) {offset : ℕ} {src : List UInt8} (h : offset + src.length ≤ n) :
    (b.write offset src).bytes.take (offset + src.length) = b.bytes.take offset ++ src := by
  have hsize := b.size
  rw [b.write_bytes h]
  apply List.take_left'
  rw [List.length_append, List.length_take]
  omega

end Libtarp.Lib
