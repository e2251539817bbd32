import Libtarp.Checksum.Adler
import Libtarp.Checksum.FletcherRuns
import Mathlib.Data.Nat.Prime.Int
import Mathlib.Tactic.NormNum.Prime

/-!
# The Adler-32 checksum of a message in chunks, and of a sliding window

Whatever path a chunk takes, its bytes are added to sums that are reduced, and no more than `MAX_ADD` before they are
reduced again.

* `foldl_add1`: additions do not wrap as long as what they come to fits.
* `update_spec`: a chunk of any length leaves the reduced sums.
* `adler32_chunks`: so does a message in any chunks.
* `roll_spec`: one byte in and one byte out, in the arithmetic of 32 and 64 bits.
* `rolled_eq`: so the context of the first window, rolled forward, is that of a later one.
* `two_bytes_iff`: the errors in two bytes that the checksum misses.
-/

namespace Libtarp.Adler

open Fletcher (sum1 sum2 sum1_append sum2_append)

/-- The bytes added without any reduction. -/
def Ctx.plus (ctx : Ctx) (bytes : List UInt8) : Ctx :=
  { ctx with
    sum1 := ctx.sum1 + Fletcher.sum1 (bytes.map UInt8.toNat)
    sum2 := ctx.sum2 + bytes.length * ctx.sum1 + Fletcher.sum2 (bytes.map UInt8.toNat) }

/-- What holds of a context between calls. -/
def Ctx.Reduced (ctx : Ctx) : Prop := ctx.sum1 < modAdler ∧ ctx.sum2 < modAdler

theorem reduced_new : Ctx.new.Reduced := ⟨by decide, by decide⟩

theorem reduced_reduce (ctx : Ctx) : (reduce ctx).Reduced :=
  ⟨Nat.mod_lt _ (by decide), Nat.mod_lt _ (by decide)⟩

theorem Ctx.Reduced.reduce_eq {ctx : Ctx} (h : ctx.Reduced) : reduce ctx = ctx := by
  unfold reduce
  rw [Nat.mod_eq_of_lt h.1, Nat.mod_eq_of_lt h.2]

@[simp] theorem plus_nil (ctx : Ctx) : ctx.plus [] = ctx := by
  simp [Ctx.plus]

theorem plus_append (ctx : Ctx) (as bs : List UInt8) : (ctx.plus as).plus bs = ctx.plus (as ++ bs) := by
  unfold Ctx.plus
  simp only [List.map_append, List.length_append, sum1_append, sum2_append, List.length_map]
  ext
  · exact Nat.add_assoc _ _ _
  · ring
  · rfl

theorem plus_cons (ctx : Ctx) (b : UInt8) (bs : List UInt8) : ctx.plus (b :: bs) = (ctx.plus [b]).plus bs :=
  (plus_append ctx [b] bs).symm

/-- Sums that were reduced in between come to the same in the end. -/
theorem reduce_plus (ctx : Ctx) (bs : List UInt8) : reduce ((reduce ctx).plus bs) = reduce (ctx.plus bs) := by
  unfold reduce Ctx.plus
  ext
  · exact Nat.mod_add_mod ..
  · exact ((Nat.mod_modEq _ _).add ((Nat.ModEq.refl _).mul (Nat.mod_modEq _ _))).add (Nat.ModEq.refl _)
  · rfl

/-! ## Additions without a reduction -/

theorem sum1_le (bs : List UInt8) : sum1 (bs.map UInt8.toNat) ≤ 255 * bs.length := by
  induction bs with
  | nil => exact le_rfl
  | cons b bs ih =>
    have hb : b.toNat ≤ 255 := Nat.le_of_lt_succ b.toNat_lt
    simp only [List.map_cons, sum1, List.sum_cons, List.length_cons] at ih ⊢
    omega

theorem sum2_le (bs : List UInt8) : 2 * sum2 (bs.map UInt8.toNat) ≤ 255 * (bs.length * (bs.length + 1)) := by
  induction bs with
  | nil => exact le_rfl
  | cons b bs ih =>
    have hb : b.toNat ≤ 255 := Nat.le_of_lt_succ b.toNat_lt
    have hmul : (bs.length + 1) * b.toNat ≤ (bs.length + 1) * 255 := Nat.mul_le_mul_left _ hb
    simp only [List.map_cons, sum2, List.length_cons, List.length_map]
    calc 2 * ((bs.length + 1) * b.toNat + sum2 (bs.map UInt8.toNat))
        ≤ 2 * ((bs.length + 1) * 255) + 255 * (bs.length * (bs.length + 1)) := by omega
      _ = 255 * ((bs.length + 1) * (bs.length + 1 + 1)) := by ring

/-- **No addition wraps** where what all of them come to fits. -/
theorem foldl_add1 (ctx : Ctx) (bs : List UInt8) (h1 : ctx.sum1 < 2 ^ 32) (h2 : (ctx.plus bs).sum2 < 2 ^ 32) :
    bs.foldl add1 ctx = ctx.plus bs := by
  induction bs generalizing ctx with
  | nil => rw [plus_nil]; rfl
  | cons b bs ih =>
    rw [plus_cons] at h2 ⊢
    have hone : (ctx.plus [b]).sum1 = ctx.sum1 + b.toNat := by simp [Ctx.plus]
    have htwo : (ctx.plus [b]).sum2 = ctx.sum2 + (ctx.sum1 + b.toNat) := by simp [Ctx.plus]; omega
    -- the first sum is part of the second, and that only grows
    have hle : (ctx.plus [b]).sum2 ≤ ((ctx.plus [b]).plus bs).sum2 := by
      unfold Ctx.plus
      simp only
      omega
    have hadd : add1 ctx b = ctx.plus [b] := by
      unfold add1
      rw [Nat.mod_eq_of_lt (show ctx.sum1 + b.toNat < 2 ^ 32 by omega)]
      simp only
      rw [Nat.mod_eq_of_lt (show ctx.sum2 + (ctx.sum1 + b.toNat) < 2 ^ 32 by omega)]
      ext
      · exact hone.symm
      · exact htwo.symm
      · have hno1 : ¬2 ^ 32 ≤ ctx.sum1 + b.toNat := by omega
        have hno2 : ¬2 ^ 32 ≤ ctx.sum2 + (ctx.sum1 + b.toNat) := by omega
        simp only [hno1, hno2, decide_false, Bool.or_false]
        rfl
    rw [List.foldl_cons, hadd]
    exact ih _ (by omega) h2

/-- `MAX_ADD` bytes fit, from any reduced sums. -/
theorem foldl_add1_maxAdd {ctx : Ctx} (h : ctx.Reduced) {bs : List UInt8} (hlen : bs.length ≤ maxAdd) :
    bs.foldl add1 ctx = ctx.plus bs := by
  obtain ⟨h1, h2⟩ := h
  simp only [modAdler, maxAdd] at h1 h2 hlen
  refine foldl_add1 ctx bs (by omega) ?_
  -- 65520 + 5552 * 65520 + 255 * 5552 * 5553 / 2 is below 2 ^ 32, and with 5553 bytes it would not be
  have hsum := sum2_le bs
  have hprod : bs.length * (bs.length + 1) ≤ 5552 * 5553 := Nat.mul_le_mul hlen (by omega)
  have hmul : bs.length * ctx.sum1 ≤ 5552 * 65520 := Nat.mul_le_mul hlen (by omega)
  unfold Ctx.plus
  simp only
  omega

/-! ## The paths of `update` -/

theorem modsub_eq {x : ℕ} (h : x < 2 * modAdler) : modsub x = x % modAdler := by
  unfold modsub
  split_ifs with hlt
  · rw [Nat.mod_eq_of_lt hlt]
  · rw [Nat.mod_eq_sub_mod (by omega), Nat.mod_eq_of_lt (by omega)]

theorem updateByte_spec {ctx : Ctx} (h : ctx.Reduced) (b : UInt8) : updateByte ctx b = reduce (ctx.plus [b]) := by
  obtain ⟨h1, h2⟩ := h
  have hb : b.toNat ≤ 255 := Nat.le_of_lt_succ b.toNat_lt
  have hm : modAdler = 65521 := rfl
  have hone : modsub ((ctx.sum1 + b.toNat) % 2 ^ 32) = (ctx.sum1 + b.toNat) % modAdler := by
    rw [Nat.mod_eq_of_lt (show ctx.sum1 + b.toNat < 2 ^ 32 by omega), modsub_eq (by omega)]
  have hlt : (ctx.sum1 + b.toNat) % modAdler < modAdler := Nat.mod_lt _ (by decide)
  have htwo : modsub ((ctx.sum2 + (ctx.sum1 + b.toNat) % modAdler) % 2 ^ 32) =
      (ctx.sum2 + (ctx.sum1 + b.toNat) % modAdler) % modAdler := by
    rw [Nat.mod_eq_of_lt (show ctx.sum2 + (ctx.sum1 + b.toNat) % modAdler < 2 ^ 32 by omega), modsub_eq (by omega)]
  unfold updateByte
  simp only [hone, htwo]
  ext
  · simp [reduce, Ctx.plus]
  · simp [reduce, Ctx.plus, Nat.add_assoc]
  · have hno1 : ¬2 ^ 32 ≤ ctx.sum1 + b.toNat := by omega
    have hno2 : ¬2 ^ 32 ≤ ctx.sum2 + (ctx.sum1 + b.toNat) % modAdler := by omega
    simp only [hno1, hno2, decide_false, Bool.or_false]
    rfl

theorem adds16_fst (n : ℕ) (ctx : Ctx) (buff : List UInt8) :
    (adds16 n ctx buff).1 = (buff.take (16 * n)).foldl add1 ctx := by
  induction n generalizing ctx buff with
  | zero => simp [adds16]
  | succ n ih =>
    have hsplit : 16 * (n + 1) = 16 + 16 * n := by omega
    rw [adds16, ih, add16, hsplit, List.take_add, List.foldl_append]

/-- The blocks of `MAX_ADD` bytes: each starts from reduced sums and ends with them. -/
theorem bulks_spec {ctx : Ctx} (h : ctx.Reduced) (buff : List UInt8) : ∃ pre, buff = pre ++ (bulks ctx buff).2 ∧
    (bulks ctx buff).1 = reduce (ctx.plus pre) ∧ (bulks ctx buff).2.length < maxAdd := by
  induction ctx, buff using bulks.induct with
  | case1 ctx buff hlen ih =>
    have hsize : 16 * (maxAdd >>> 4) = maxAdd := by decide
    -- `MAX_ADD >> 4` rounds of 16 bytes are `MAX_ADD` bytes, and the sums are reduced after them
    obtain ⟨pre, hpre, hctx, hrest⟩ := ih (reduced_reduce _)
    rw [adds16_snd, adds16_fst, hsize] at hpre hctx hrest
    rw [bulks, if_pos hlen, adds16_snd, adds16_fst, hsize]
    have htake : (buff.take maxAdd).length ≤ maxAdd := List.length_take_le ..
    refine ⟨buff.take maxAdd ++ pre, ?_, ?_, hrest⟩
    · rw [List.append_assoc, ← hpre, List.take_append_drop]
    · rw [hctx, foldl_add1_maxAdd h htake, reduce_plus, plus_append]
  | case2 ctx buff hlen =>
    rw [bulks, if_neg hlen]
    refine ⟨[], rfl, ?_, Nat.lt_of_not_le hlen⟩
    rw [plus_nil, h.reduce_eq]

theorem sixteens_spec (ctx : Ctx) (buff : List UInt8) :
    (sixteens ctx buff).2.foldl add1 (sixteens ctx buff).1 = buff.foldl add1 ctx := by
  induction ctx, buff using sixteens.induct with
  | case1 ctx buff hlen ih =>
    rw [sixteens, if_pos hlen, ih, add16, ← List.foldl_append, List.take_append_drop]
  | case2 ctx buff hlen => rw [sixteens, if_neg hlen]

theorem updateMany_spec {ctx : Ctx} (h : ctx.Reduced) (buff : List UInt8) :
    updateMany ctx buff = reduce (ctx.plus buff) := by
  unfold updateMany
  by_cases hshort : buff.length < 16
  · -- the first sum stays below twice the modulus
    have hsum := sum1_le buff
    have h1 := h.1
    have hlt : (ctx.plus buff).sum1 < 2 * modAdler := by
      simp only [Ctx.plus, modAdler] at h1 ⊢
      omega
    rw [if_pos hshort, foldl_add1_maxAdd h (show buff.length ≤ maxAdd by simp only [maxAdd]; omega)]
    simp only [modsub_eq hlt]
    rfl
  · rw [if_neg hshort]
    obtain ⟨pre, hpre, hctx, hrest⟩ := bulks_spec h buff
    simp only
    -- the source reduces once more only if a block of less than `MAX_ADD` bytes is left
    by_cases hleft : (bulks ctx buff).2.length > 0
    · rw [if_pos hleft, sixteens_spec, hctx, foldl_add1_maxAdd (reduced_reduce _) hrest.le, reduce_plus, plus_append,
        ← hpre]
    · have hnil : (bulks ctx buff).2 = [] := List.length_eq_zero_iff.1 (by omega)
      rw [hnil, List.append_nil] at hpre
      rw [if_neg hleft, hctx, ← hpre]

/-- **A chunk**, of any length. -/
theorem update_spec {ctx : Ctx} (h : ctx.Reduced) (buff : List UInt8) : update ctx buff = reduce (ctx.plus buff) := by
  match buff with
  | [] =>
    rw [plus_nil, h.reduce_eq]
    rfl
  | [byte] => exact updateByte_spec h byte
  | b₁ :: b₂ :: bs => exact updateMany_spec h (b₁ :: b₂ :: bs)

theorem foldl_update {ctx : Ctx} (h : ctx.Reduced) (chunks : List (List UInt8)) :
    chunks.foldl update ctx = reduce (ctx.plus chunks.flatten) := by
  induction chunks generalizing ctx with
  | nil => rw [List.foldl_nil, List.flatten_nil, plus_nil, h.reduce_eq]
  | cons chunk chunks ih =>
    rw [List.foldl_cons, update_spec h, ih (reduced_reduce _), reduce_plus, plus_append, List.flatten_cons]

/-- The value of reduced sums is their concatenation. -/
theorem getChecksum_eq {ctx : Ctx} (h : ctx.Reduced) : getChecksum ctx = ctx.sum2 * 2 ^ 16 + ctx.sum1 := by
  obtain ⟨h1, h2⟩ := h
  simp only [modAdler] at h1 h2
  unfold getChecksum
  rw [Nat.shiftLeft_eq, Nat.mod_eq_of_lt (by omega), ← Nat.shiftLeft_eq, ← Nat.shiftLeft_add_eq_or_of_lt (by omega),
    Nat.shiftLeft_eq]

theorem getChecksum_plus (message : List UInt8) : getChecksum (reduce (Ctx.new.plus message)) = adler32 message := by
  rw [getChecksum_eq (reduced_reduce _)]
  simp [reduce, Ctx.plus, Ctx.new, adler32]

/-- **The checksum of a message**, however it is cut into chunks. No accumulator ever wraps. -/
theorem adler32_chunks (chunks : List (List UInt8)) :
    getChecksum (chunks.foldl update Ctx.new) = adler32 chunks.flatten ∧
      (chunks.foldl update Ctx.new).wrapped = false := by
  rw [foldl_update reduced_new]
  exact ⟨getChecksum_plus _, rfl⟩

/-! ## A sliding window -/

/-- The context of the first window rolled forward `n` times. -/
def rolled (windowSize : UInt32) (bytes : List UInt8) : ℕ → Ctx
  | 0 => update Ctx.new (bytes.take windowSize.toNat)
  | n + 1 => roll (rolled windowSize bytes n) windowSize (bytes.getD (n + windowSize.toNat) 0) (bytes.getD n 0)

/-- The bytes of the window that starts at `n`. -/
def window (windowSize : UInt32) (bytes : List UInt8) (n : ℕ) : List UInt8 := (bytes.drop n).take windowSize.toNat

/-- The first sum is nowhere negative, so nothing wraps. -/
theorem roll_sum1 {s entering leaving : ℕ} (hs : s < modAdler) (hin : entering < 256) (hout : leaving < 256) :
    (s + modAdler + entering + (2 ^ 32 - leaving)) % 2 ^ 32 = s + modAdler + entering - leaving := by
  simp only [modAdler] at *
  omega

/-- Nor is the second. -/
theorem roll_sum2 {s₁ s₂ contrib : ℕ} (h₁ : s₁ < modAdler) (h₂ : s₂ < modAdler) (hc : contrib < modAdler) :
    ((s₂ + s₁ + modAdler) % 2 ^ 32 + (2 ^ 64 - contrib) + (2 ^ 64 - 1)) % 2 ^ 64 =
      s₂ + s₁ + modAdler - (contrib + 1) := by
  simp only [modAdler] at *
  omega

/-- What is subtracted from a remainder, with the modulus added first, is subtracted modulo the modulus. -/
theorem sub_mod {m r x d d' y : ℕ} (hr : r % m = x % m) (hd : d % m = d' % m) (hle : d ≤ r + m) (hxy : x = y + d') :
    (r + m - d) % m = y % m := by
  have hsum : r + m - d + d ≡ y + d' [MOD m] := by
    rw [Nat.sub_add_cancel hle, ← hxy]
    exact (Nat.add_mod_right r m).trans hr
  have hd' : y + d' ≡ y + d [MOD m] := (Nat.ModEq.refl y).add hd.symm
  exact (hsum.trans hd').add_right_cancel' d

/-- **One byte further.** The window `leaving :: mid` becomes `mid ++ [entering]`. -/
theorem roll_spec (windowSize : UInt32) (entering leaving : UInt8) (mid : List UInt8)
    (hw : windowSize.toNat = mid.length + 1) :
    roll (reduce (Ctx.new.plus (leaving :: mid))) windowSize entering leaving =
      reduce (Ctx.new.plus (mid ++ [entering])) := by
  have hin : entering.toNat < 256 := entering.toNat_lt
  have hout : leaving.toNat < 256 := leaving.toNat_lt
  have hm : modAdler = 65521 := rfl
  have hlt : ∀ x, x % modAdler < modAdler := fun x => Nat.mod_lt x (by decide)
  -- the unbounded sums of both windows
  set a := sum1 (mid.map UInt8.toNat) with ha
  set b := sum2 (mid.map UInt8.toNat) with hb
  have hold : Ctx.new.plus (leaving :: mid) =
      ⟨1 + (leaving.toNat + a), mid.length + 1 + ((mid.length + 1) * leaving.toNat + b), false⟩ := by
    ext <;> simp [Ctx.plus, Ctx.new, sum1, sum2, ha, hb]
  have hnew : Ctx.new.plus (mid ++ [entering]) =
      ⟨1 + (a + entering.toNat), mid.length + 1 + (b + a + entering.toNat), false⟩ := by
    ext <;> simp [Ctx.plus, Ctx.new, Fletcher.sum1_append, sum2_append, ha, hb]
  -- the contribution that is subtracted
  have hprod : leaving.toNat * windowSize.toNat < 2 ^ 64 := by
    have hsize : windowSize.toNat < 2 ^ 32 := windowSize.toNat_lt
    have hmul := Nat.mul_lt_mul'' hout hsize
    omega
  have hone : ((1 + (leaving.toNat + a)) % modAdler + modAdler + entering.toNat - leaving.toNat) % modAdler =
      (1 + (a + entering.toNat)) % modAdler := by
    have hr : ((1 + (leaving.toNat + a)) % modAdler + entering.toNat) % modAdler =
        (1 + (leaving.toNat + a) + entering.toNat) % modAdler := Nat.mod_add_mod ..
    rw [Nat.add_right_comm]
    exact sub_mod hr rfl (by omega) (by omega)
  have htwo : ((mid.length + 1 + ((mid.length + 1) * leaving.toNat + b)) % modAdler +
        (1 + (a + entering.toNat)) % modAdler + modAdler -
          (leaving.toNat * windowSize.toNat % modAdler + 1)) % modAdler =
      (mid.length + 1 + (b + a + entering.toNat)) % modAdler := by
    have hr := Nat.add_mod (mid.length + 1 + ((mid.length + 1) * leaving.toNat + b)) (1 + (a + entering.toNat)) modAdler
    have hd : (leaving.toNat * windowSize.toNat % modAdler + 1) % modAdler =
        (leaving.toNat * windowSize.toNat + 1) % modAdler := Nat.mod_add_mod ..
    have hle := hlt (leaving.toNat * windowSize.toNat)
    refine sub_mod hr.symm hd (by omega) ?_
    rw [hw]
    ring
  unfold roll
  rw [hold, hnew]
  simp only [reduce]
  rw [roll_sum1 (hlt _) hin hout, hone, Nat.mod_eq_of_lt hprod, roll_sum2 (hlt _) (hlt _) (hlt _), htwo]

/-- A byte on the left of a window that goes out, and one on its right that comes in. -/
theorem window_succ {windowSize : UInt32} {bytes : List UInt8} {n : ℕ} (hw : 1 ≤ windowSize.toNat)
    (hn : n + 1 + windowSize.toNat ≤ bytes.length) : ∃ mid, windowSize.toNat = mid.length + 1 ∧
      window windowSize bytes n = bytes.getD n 0 :: mid ∧
      window windowSize bytes (n + 1) = mid ++ [bytes.getD (n + windowSize.toNat) 0] := by
  obtain ⟨m, hm⟩ : ∃ m, windowSize.toNat = m + 1 := ⟨windowSize.toNat - 1, by omega⟩
  unfold window
  rw [hm] at hn ⊢
  have hget : ∀ i < bytes.length, bytes[i]? = some (bytes.getD i 0) := by
    intro i hi
    rw [List.getD_eq_getElem?_getD, List.getElem?_eq_getElem hi, Option.getD_some]
  refine ⟨(bytes.drop (n + 1)).take m, ?_, ?_, ?_⟩
  · rw [List.length_take, List.length_drop]
    omega
  · have hlt : n < bytes.length := by omega
    have hfirst : bytes[n] = bytes.getD n 0 := Option.some.inj ((List.getElem?_eq_getElem hlt).symm.trans (hget n hlt))
    rw [List.drop_eq_getElem_cons hlt, List.take_succ_cons, hfirst]
  · rw [List.take_add_one, List.getElem?_drop, show n + 1 + m = n + (m + 1) by omega, hget _ (by omega),
      Option.toList_some]

/-- **Rolling.** The context of the first window, rolled forward any number of times the bytes allow, is that of the
window so many bytes later, and its value the checksum of that window. -/
theorem rolled_eq (windowSize : UInt32) (bytes : List UInt8) (n : ℕ) (hw : 1 ≤ windowSize.toNat)
    (hn : n + windowSize.toNat ≤ bytes.length) :
    rolled windowSize bytes n = update Ctx.new (window windowSize bytes n) ∧
      getChecksum (rolled windowSize bytes n) = adler32 (window windowSize bytes n) := by
  have hctx : rolled windowSize bytes n = reduce (Ctx.new.plus (window windowSize bytes n)) := by
    induction n with
    | zero =>
      rw [rolled, update_spec reduced_new]
      rfl
    | succ n ih =>
      obtain ⟨mid, hmid, hold, hnew⟩ := window_succ hw hn
      rw [rolled, ih (by omega), hold, hnew]
      exact roll_spec windowSize _ _ mid hmid
  rw [hctx, update_spec reduced_new]
  exact ⟨rfl, getChecksum_plus _⟩

theorem rolled_three : rolled 2 [1, 2, 3, 4, 5] 3 = update Ctx.new (window 2 [1, 2, 3, 4, 5] 3) ∧
    getChecksum (rolled 2 [1, 2, 3, 4, 5] 3) = adler32 (window 2 [1, 2, 3, 4, 5] 3) :=
  rolled_eq 2 [1, 2, 3, 4, 5] 3 (by decide) (by decide)


/-! ## Errors in two bytes -/

theorem prime_modAdler : Nat.Prime modAdler := by
  unfold modAdler
  norm_num

/-- What becomes of the sums when two of the values are exchanged for others. -/
theorem sums_change (as bs cs : List ℕ) (b c b' c' : ℕ) :
    (sum1 (as ++ b' :: (bs ++ c' :: cs)) : ℤ) - sum1 (as ++ b :: (bs ++ c :: cs)) = (b' - b) + (c' - c) ∧
    (sum2 (as ++ b' :: (bs ++ c' :: cs)) : ℤ) - sum2 (as ++ b :: (bs ++ c :: cs)) =
      (cs.length + 1) * ((b' - b) + (c' - c)) + (bs.length + 1) * (b' - b) := by
  simp only [sum2_append, sum2, sum1, List.sum_append, List.sum_cons, List.length_append, List.length_cons]
  push_cast
  exact ⟨by ring, by ring⟩

/-- Messages of one length have the same checksum if both sums are the same modulo the modulus. -/
theorem adler32_eq_iff {m m' : List UInt8} (hlen : m.length = m'.length) :
    adler32 m = adler32 m' ↔
      (modAdler : ℤ) ∣ sum1 (m'.map UInt8.toNat) - sum1 (m.map UInt8.toNat) ∧
        (modAdler : ℤ) ∣ sum2 (m'.map UInt8.toNat) - sum2 (m.map UInt8.toNat) := by
  have hlt : ∀ x, x % modAdler < 2 ^ 16 := fun x => (Nat.mod_lt x (by decide)).trans (by decide)
  unfold adler32
  simp only [List.length_map, ← hlen]
  have hone := hlt (1 + sum1 (m.map UInt8.toNat))
  have hone' := hlt (1 + sum1 (m'.map UInt8.toNat))
  rw [← Nat.modEq_iff_dvd, ← Nat.modEq_iff_dvd]
  constructor
  · intro h
    exact ⟨Nat.ModEq.add_left_cancel' 1 (show _ % _ = _ % _ by omega),
      Nat.ModEq.add_left_cancel' m.length (show _ % _ = _ % _ by omega)⟩
  · rintro ⟨h1, h2⟩
    rw [show (1 + sum1 (m.map UInt8.toNat)) % modAdler = _ from h1.add_left 1,
      show (m.length + sum2 (m.map UInt8.toNat)) % modAdler = _ from h2.add_left m.length]

/-- **Errors in at most two bytes** are noticed, however both messages are cut into chunks, but for those that add to
one byte what they take from another whose distance is a multiple of the modulus. -/
theorem two_bytes_iff {as bs cs : List UInt8} {b c b' c' : UInt8} {chunks chunks' : List (List UInt8)}
    (h : chunks.flatten = as ++ b :: (bs ++ c :: cs)) (h' : chunks'.flatten = as ++ b' :: (bs ++ c' :: cs)) :
    getChecksum (chunks.foldl update Ctx.new) = getChecksum (chunks'.foldl update Ctx.new) ↔
      b = b' ∧ c = c' ∨ b.toNat + c.toNat = b'.toNat + c'.toNat ∧ modAdler ∣ bs.length + 1 := by
  have hlen : (as ++ b :: (bs ++ c :: cs)).length = (as ++ b' :: (bs ++ c' :: cs)).length := by simp
  obtain ⟨hsum1, hsum2⟩ := sums_change (as.map UInt8.toNat) (bs.map UInt8.toNat) (cs.map UInt8.toNat) b.toNat c.toNat
    b'.toNat c'.toNat
  rw [foldl_update reduced_new, foldl_update reduced_new, h, h', getChecksum_plus, getChecksum_plus,
    adler32_eq_iff hlen]
  simp only [List.map_append, List.map_cons]
  rw [hsum1, hsum2, List.length_map, List.length_map]
  -- bytes are so small that nothing but 0 between them is a multiple of the modulus
  have hb : b.toNat < 256 := b.toNat_lt
  have hb' : b'.toNat < 256 := b'.toNat_lt
  have hc : c.toNat < 256 := c.toNat_lt
  have hc' : c'.toNat < 256 := c'.toNat_lt
  have hm : (modAdler : ℤ) = 65521 := rfl
  constructor
  · rintro ⟨h1, h2⟩
    have hzero : (b'.toNat - b.toNat : ℤ) + (c'.toNat - c.toNat) = 0 := by
      rw [hm] at h1
      omega
    rw [hzero, mul_zero, zero_add] at h2
    rcases (Nat.prime_iff_prime_int.1 prime_modAdler).dvd_or_dvd h2 with hdist | hbyte
    · refine .inr ⟨by omega, ?_⟩
      exact_mod_cast hdist
    · rw [hm] at hbyte
      exact .inl ⟨UInt8.toNat_inj.1 (by omega), UInt8.toNat_inj.1 (by omega)⟩
  · rintro (⟨rfl, rfl⟩ | ⟨hsum, hdist⟩)
    · simp
    · have hzero : (b'.toNat - b.toNat : ℤ) + (c'.toNat - c.toNat) = 0 := by omega
      have hdist' : (modAdler : ℤ) ∣ bs.length + 1 := by exact_mod_cast hdist
      rw [hzero, mul_zero, zero_add]
      exact ⟨dvd_zero _, hdist'.mul_right _⟩

/-- Two bytes next to each other change places. -/
theorem two_bytes_iff_swapped :
    getChecksum ([[1, 2], [3]].foldl update Ctx.new) ≠ getChecksum ([[1], [3, 2]].foldl update Ctx.new) := by
  have h : ([[1, 2], [3]] : List (List UInt8)).flatten = [1] ++ 2 :: ([] ++ 3 :: []) := rfl
  have h' : ([[1], [3, 2]] : List (List UInt8)).flatten = [1] ++ 3 :: ([] ++ 2 :: []) := rfl
  rw [Ne, two_bytes_iff h h']
  decide

end Libtarp.Adler
