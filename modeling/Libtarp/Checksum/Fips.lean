import Libtarp.Checksum.Sha256
import Mathlib.Order.Nat

/-!
# What SHA-256 is (FIPS 180-4)

Of messages of whole bytes. The constants are the first 32 bits of the fractional parts of roots of
primes, taken from integer roots: `root_spec`.
-/

namespace Libtarp.Fips

open Lib
open Sha256 (Word Words)

/-! ## Constants -/

/-- The largest `r` with `r ^ e ≤ n` whose bits above the lowest `b` are those of `r₀`. -/
def root (e n : ℕ) : ℕ → ℕ → ℕ
  | 0, r₀ => r₀
  | b + 1, r₀ => root e n b (if (r₀ + 2 ^ b) ^ e ≤ n then r₀ + 2 ^ b else r₀)

/-- What `root` is, bit by bit. -/
theorem root_spec (e n : ℕ) {b r₀ : ℕ} (hle : r₀ ^ e ≤ n) (hlt : n < (r₀ + 2 ^ b) ^ e) :
    root e n b r₀ ^ e ≤ n ∧ n < (root e n b r₀ + 1) ^ e := by
  induction b generalizing r₀ with
  | zero => exact ⟨hle, hlt⟩
  | succ b ih =>
    unfold root
    split_ifs with h
    · apply ih h
      rw [Nat.add_assoc, ← Nat.two_mul, ← Nat.pow_succ']
      exact hlt
    · exact ih hle (Nat.lt_of_not_le h)

/-- The first 32 bits of the fractional part of the `e`-th root of `p`. -/
def fraction (e p : ℕ) : Word := BitVec.ofNat 32 (root e (p * 2 ^ (32 * e)) 40 0)

/-- The first sixty-four primes. -/
def primes : List ℕ :=
  [2, 3, 5, 7, 11, 13, 17, 19, 23, 29, 31, 37, 41, 43, 47, 53, 59, 61, 67, 71, 73, 79,
   83, 89, 97, 101, 103, 107, 109, 113, 127, 131, 137, 139, 149, 151, 157, 163, 167, 173, 179, 181, 191, 193,
   197, 199, 211, 223, 227, 229, 233, 239, 241, 251, 257, 263, 269, 271, 277, 281, 283, 293, 307, 311]

def K (t : ℕ) : Word := (primes.map (fraction 3)).getD t 0

def H₀ : Words where
  a := fraction 2 (primes.getD 0 0)
  b := fraction 2 (primes.getD 1 0)
  c := fraction 2 (primes.getD 2 0)
  d := fraction 2 (primes.getD 3 0)
  e := fraction 2 (primes.getD 4 0)
  f := fraction 2 (primes.getD 5 0)
  g := fraction 2 (primes.getD 6 0)
  h := fraction 2 (primes.getD 7 0)

/-! ## Compression -/

def ch (x y z : Word) : Word := (x &&& y) ^^^ (~~~x &&& z)

def maj (x y z : Word) : Word := (x &&& y) ^^^ (x &&& z) ^^^ (y &&& z)

def bigSigma₀ (x : Word) : Word := x.rotateRight 2 ^^^ x.rotateRight 13 ^^^ x.rotateRight 22

def bigSigma₁ (x : Word) : Word := x.rotateRight 6 ^^^ x.rotateRight 11 ^^^ x.rotateRight 25

def sigma₀ (x : Word) : Word := x.rotateRight 7 ^^^ x.rotateRight 18 ^^^ x >>> 3

def sigma₁ (x : Word) : Word := x.rotateRight 17 ^^^ x.rotateRight 19 ^^^ x >>> 10

/-- The words of a block, the most significant byte first. -/
def M (block : List UInt8) (t : ℕ) : Word := BitVec.ofNat 32 (beValue ((block.drop (4 * t)).take 4))

/-- The message schedule. -/
def W (block : List UInt8) (t : ℕ) : Word :=
  if t < 16 then M block t
  else sigma₁ (W block (t - 2)) + W block (t - 7) + sigma₀ (W block (t - 15)) + W block (t - 16)

/-- The working variables after `t` steps. -/
def working (H : Words) (block : List UInt8) : ℕ → Words
  | 0 => H
  | t + 1 =>
    let w := working H block t
    let T₁ := w.h + bigSigma₁ w.e + ch w.e w.f w.g + K t + W block t
    let T₂ := bigSigma₀ w.a + maj w.a w.b w.c
    { a := T₁ + T₂, b := w.a, c := w.b, d := w.c, e := w.d + T₁, f := w.e, g := w.f, h := w.g }

/-- The hash after one more block. -/
def compress (H : Words) (block : List UInt8) : Words where
  a := H.a + (working H block 64).a
  b := H.b + (working H block 64).b
  c := H.c + (working H block 64).c
  d := H.d + (working H block 64).d
  e := H.e + (working H block 64).e
  f := H.f + (working H block 64).f
  g := H.g + (working H block 64).g
  h := H.h + (working H block 64).h

/-! ## Padding -/

theorem zeros_exist (length : ℕ) : ∃ k, (length + 1 + k) % 64 = 56 := ⟨119 - length % 64, by omega⟩

/-- The least number of zero bytes between `0x80` and the length. -/
def zeros (length : ℕ) : ℕ := Nat.find (zeros_exist length)

/-- A message, padded; the length is in bits, in 64 of them. -/
def pad (m : List UInt8) : List UInt8 :=
  m ++ 0x80 :: List.replicate (zeros m.length) 0 ++ beBytes 8 (8 * m.length)

/-- The hash of a message. -/
def hash (m : List UInt8) : Words := (blocks 64 (pad m)).foldl compress H₀

/-- The digest of a message. -/
def digest (m : List UInt8) : List UInt8 :=
  let H := hash m
  [H.a, H.b, H.c, H.d, H.e, H.f, H.g, H.h].flatMap fun x => beBytes 4 x.toNat

theorem zeros_eq (length : ℕ) : zeros length = (119 - length % 64) % 64 := by
  apply (Nat.find_eq_iff _).2
  refine ⟨by omega, ?_⟩
  intro k hk
  omega

end Libtarp.Fips
