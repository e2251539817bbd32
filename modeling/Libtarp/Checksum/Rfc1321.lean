import Libtarp.Checksum.Md5
import Mathlib.Order.Nat

/-!
# What MD5 is (RFC 1321)

Of messages of whole bytes. The four operations `[ABCD k s i]`, `[DABC k s i]`, `[CDAB k s i]` and
`[BCDA k s i]` of a line change one register each.
-/

namespace Libtarp.Rfc1321

open Lib
open Md5 (Word Words)

/-! ## Padding -/

theorem padding_exists (length : ℕ) : ∃ p, 0 < p ∧ (length + p) % 64 = 56 := ⟨64 + 56 - length % 64, by omega⟩

/-- Bytes of padding: as few as there can be, but some. -/
def padding (length : ℕ) : ℕ := Nat.find (padding_exists length)

/-- A message with its padding and its length in bits, the lowest 64 of them. -/
def pad (m : List UInt8) : List UInt8 :=
  m ++ 0x80 :: List.replicate (padding m.length - 1) 0 ++ leBytes 8 (8 * m.length)

/-! ## The four rounds -/

def F (x y z : Word) : Word := (x &&& y) ||| (~~~x &&& z)

def G (x y z : Word) : Word := (x &&& z) ||| (y &&& ~~~z)

def H (x y z : Word) : Word := x ^^^ y ^^^ z

def I (x y z : Word) : Word := y ^^^ (x ||| ~~~z)

/-- The table of sines. -/
def T : List Word :=
  [0xd76aa478, 0xe8c7b756, 0x242070db, 0xc1bdceee, 0xf57c0faf, 0x4787c62a,
   0xa8304613, 0xfd469501, 0x698098d8, 0x8b44f7af, 0xffff5bb1, 0x895cd7be,
   0x6b901122, 0xfd987193, 0xa679438e, 0x49b40821, 0xf61e2562, 0xc040b340,
   0x265e5a51, 0xe9b6c7aa, 0xd62f105d, 0x2441453, 0xd8a1e681, 0xe7d3fbc8,
   0x21e1cde6, 0xc33707d6, 0xf4d50d87, 0x455a14ed, 0xa9e3e905, 0xfcefa3f8,
   0x676f02d9, 0x8d2a4c8a, 0xfffa3942, 0x8771f681, 0x6d9d6122, 0xfde5380c,
   0xa4beea44, 0x4bdecfa9, 0xf6bb4b60, 0xbebfbc70, 0x289b7ec6, 0xeaa127fa,
   0xd4ef3085, 0x4881d05, 0xd9d4d039, 0xe6db99e5, 0x1fa27cf8, 0xc4ac5665,
   0xf4292244, 0x432aff97, 0xab9423a7, 0xfc93a039, 0x655b59c3, 0x8f0ccc92,
   0xffeff47d, 0x85845dd1, 0x6fa87e4f, 0xfe2ce6e0, 0xa3014314, 0x4e0811a1,
   0xf7537e82, 0xbd3af235, 0x2ad7d2bb, 0xeb86d391]

/-- The function of a round. -/
def function : ℕ → Word → Word → Word → Word
  | 0 => F
  | 1 => G
  | 2 => H
  | _ => I

/-- The word that operation `i` adds. -/
def k (i : ℕ) : ℕ :=
  match i / 16 with
  | 0 => i
  | 1 => (5 * i + 1) % 16
  | 2 => (3 * i + 5) % 16
  | _ => 7 * i % 16

/-- How far operation `i` rotates. -/
def s (i : ℕ) : ℕ :=
  match i / 16 with
  | 0 => [7, 12, 17, 22].getD (i % 4) 0
  | 1 => [5, 9, 14, 20].getD (i % 4) 0
  | 2 => [4, 11, 16, 23].getD (i % 4) 0
  | _ => [6, 10, 15, 21].getD (i % 4) 0

def X (block : List UInt8) (j : ℕ) : Word := BitVec.ofNat 32 (leValue ((block.drop (4 * j)).take 4))

/-- What operation `i` puts into its register. -/
def operation (block : List UInt8) (i : ℕ) (a b c d : Word) : Word :=
  b + (a + function (i / 16) b c d + X block (k i) + T.getD i 0).rotateLeft (s i)

/-- The registers after `i` operations. -/
def registers (block : List UInt8) (w : Words) : ℕ → Words
  | 0 => w
  | i + 1 =>
    let w := registers block w i
    match i % 4 with
    | 0 => { w with a := operation block i w.a w.b w.c w.d }
    | 1 => { w with d := operation block i w.d w.a w.b w.c }
    | 2 => { w with c := operation block i w.c w.d w.a w.b }
    | _ => { w with b := operation block i w.b w.c w.d w.a }

/-- The registers after one more block. -/
def compress (w : Words) (block : List UInt8) : Words where
  a := (registers block w 64).a + w.a
  b := (registers block w 64).b + w.b
  c := (registers block w 64).c + w.c
  d := (registers block w 64).d + w.d

/-- `01 23 45 67`, `89 ab cd ef`, `fe dc ba 98` and `76 54 32 10`, low-order bytes first. -/
def start : Words where
  a := BitVec.ofNat 32 (leValue [0x01, 0x23, 0x45, 0x67])
  b := BitVec.ofNat 32 (leValue [0x89, 0xab, 0xcd, 0xef])
  c := BitVec.ofNat 32 (leValue [0xfe, 0xdc, 0xba, 0x98])
  d := BitVec.ofNat 32 (leValue [0x76, 0x54, 0x32, 0x10])

def hash (m : List UInt8) : Words := (blocks 64 (pad m)).foldl compress start

/-- The digest of a message. -/
def digest (m : List UInt8) : List UInt8 :=
  let w := hash m
  [w.a, w.b, w.c, w.d].flatMap fun x => leBytes 4 x.toNat

theorem padding_eq (length : ℕ) : padding length = (119 - length % 64) % 64 + 1 := by
  apply (Nat.find_eq_iff _).2
  refine ⟨by omega, ?_⟩
  intro p hp
  omega

end Libtarp.Rfc1321
