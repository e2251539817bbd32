import Libtarp.Checksum.Sha256Runs
import Mathlib.Data.UInt

/-!
# Message authentication with SHA-256 (`sha256_hmac_bytes` in `hash/sha/sha256.cxx`)

* `Rfc2104.hmac`: what a keyed hash is, for any hash and block size.
* `sha256HmacBytes_eq`: the two nested contexts compute it, from a key of any length.
-/

namespace Libtarp.Rfc2104

variable {α : Type*} [Zero α]

/-- The key that is used: one longer than a block is hashed, and zeros fill the block up. -/
def blockKey (H : List α → List α) (B : ℕ) (K : List α) : List α :=
  let K := if K.length ≤ B then K else H K
  K ++ List.replicate (B - K.length) 0

/-- `H(K XOR opad, H(K XOR ipad, text))`. -/
def hmac (H : List UInt8 → List UInt8) (B : ℕ) (K text : List UInt8) : List UInt8 :=
  let K := blockKey H B K
  let ipad := List.replicate B 0x36
  let opad := List.replicate B 0x5c
  H (List.zipWith (· ^^^ ·) K opad ++ H (List.zipWith (· ^^^ ·) K ipad ++ text))

variable {H : List α → List α} {B : ℕ}

/-- A key is a block long if a hash is not longer than a block. -/
theorem blockKey_length (hH : ∀ m, (H m).length ≤ B) (K : List α) : (blockKey H B K).length = B := by
  have hK : (if K.length ≤ B then K else H K).length ≤ B := by
    split_ifs with h
    · exact h
    · exact hH K
  unfold blockKey
  rw [List.length_append, List.length_replicate]
  exact Nat.add_sub_cancel' hK

end Libtarp.Rfc2104

namespace Libtarp.Sha256

open Lib Rfc2104

/-- `reset`. -/
def reset (_ctx : Ctx) : Ctx := Ctx.new (Buffer.zeros 128)

/-- `sha256_hmac_bytes`. Nothing has been written to the `buff` of `ctx` when the function starts. -/
def sha256HmacBytes (undef : Buffer 128) (msg key : List UInt8) : List UInt8 :=
  let k := Buffer.zeros 64
  let ctx := Ctx.new undef
  let (ctx, k) :=
    if key.length ≤ 64 then (ctx, k.write 0 key)
    else
      let ctx := process ctx key true
      (ctx, k.write 0 (getHashbytes ctx))
  let ipad := k.bytes.map fun byte => 0x36 ^^^ byte
  let opad := k.bytes.map fun byte => 0x5c ^^^ byte
  let ctx := reset ctx
  let ctx := process ctx ipad false
  let ctx := process ctx msg true
  let ipadHashed := getHashbytes ctx
  let ctx := reset ctx
  let ctx := process ctx opad false
  let ctx := process ctx ipadHashed true
  getHashbytes ctx

theorem digest_length (m : List UInt8) : (Fips.digest m).length = 32 := by
  unfold Fips.digest
  simp only [List.flatMap_cons, List.flatMap_nil, List.length_append, beBytes_length, List.length_nil]

/-- What is copied to the start of a zeroed buffer. -/
theorem zeros_write {n : ℕ} {src : List UInt8} (h : src.length ≤ n) :
    ((Buffer.zeros n).write 0 src).bytes = src ++ List.replicate (n - src.length) 0 := by
  rw [Buffer.write_bytes _ (by omega)]
  unfold Buffer.zeros
  rw [List.take_zero, List.nil_append, Nat.zero_add, List.drop_replicate]

/-- The key, up to the block size. -/
theorem blockKey_write (undef : Buffer 128) (key : List UInt8) :
    ((Buffer.zeros 64).write 0
        (if key.length ≤ 64 then key else getHashbytes (process (Ctx.new undef) key true))).bytes =
      blockKey Fips.digest 64 key := by
  have hkey : getHashbytes (process (Ctx.new undef) key true) = Fips.digest key := digest_eq undef [] key
  unfold blockKey
  rw [hkey]
  apply zeros_write
  split_ifs with h
  · exact h
  · rw [digest_length]
    decide

/-- A pad of a block. -/
theorem zipWith_pad {K : List UInt8} {n : ℕ} (pad : UInt8) (h : K.length = n) :
    List.zipWith (· ^^^ ·) K (List.replicate n pad) = K.map fun byte => pad ^^^ byte := by
  subst h
  induction K with
  | nil => rfl
  | cons byte K ih => rw [List.length_cons, List.replicate_succ, List.zipWith_cons_cons, ih, List.map_cons,
      UInt8.xor_comm]

/-- **The two nested digests are the keyed hash of RFC 2104.** -/
theorem sha256HmacBytes_eq (undef : Buffer 128) (msg key : List UInt8) :
    sha256HmacBytes undef msg key = hmac Fips.digest 64 key msg := by
  have hlen : (blockKey Fips.digest 64 key).length = 64 := by
    apply blockKey_length
    intro m
    rw [digest_length]
    decide
  have hdigest : ∀ first last, getHashbytes (process (process (Ctx.new (Buffer.zeros 128)) first false) last true) =
      Fips.digest (first ++ last) := by
    intro first last
    have h := digest_eq (Buffer.zeros 128) [first] last
    rw [List.flatten_singleton] at h
    exact h
  have hk := blockKey_write undef key
  unfold sha256HmacBytes hmac
  dsimp only [reset]
  rw [zipWith_pad _ hlen, zipWith_pad _ hlen, ← hk]
  -- from the block on, the two sorts of keys are treated alike
  by_cases h : key.length ≤ 64
  · rw [if_pos h, if_pos h, hdigest, hdigest]
  · rw [if_neg h, if_neg h, hdigest, hdigest]

end Libtarp.Sha256
