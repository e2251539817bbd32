import Libtarp.Checksum.Crc

/-!
# The ways to a CRC, and a message in chunks

* `bitLoop_eq`, `shiftLoop_eq`: the loops over the bits of a byte, in steps of the division.
* `byte_from_table`: the step of the table is the step of a byte brought in at the top.
* `trailerLoop_eq`: a long division from the register `r` leaves what a register that is a
  register's width of steps ahead leaves without a trailer.
* `streamed_eq`: the values returned on the way through the chunks of a message, from any context.
-/

namespace Libtarp.Crc

open Lib Bits

variable {k : ℕ}

/-! ## The loops over the bits of a byte -/

theorem MSB_eq (r : BitVec (8 * k + 8)) : MSB r = (r >>> (8 * k)).setWidth 8 := by
  apply BitVec.eq_of_getLsbD_eq
  intro i hi
  unfold MSB
  rw [BitVec.getLsbD_setWidth, BitVec.getLsbD_setWidth, BitVec.getLsbD_and, BitVec.getLsbD_ofNat,
    Nat.testBit_two_pow_sub_one 8 i]
  simp [hi]
  omega

theorem MSB_setWidth (r : BitVec (8 * k + 8)) : (MSB r).setWidth (8 * k + 8) = r >>> (8 * k) := by
  rw [MSB_eq]
  apply BitVec.eq_of_getLsbD_eq
  intro i hi
  rw [BitVec.getLsbD_setWidth, BitVec.getLsbD_setWidth, BitVec.getLsbD_ushiftRight]
  by_cases h : i < 8
  · simp [hi, h]
  · simp [h, BitVec.getLsbD_of_ge r (8 * k + i) (by omega)]

theorem msb_eq_one : ∀ byte : BitVec 8, msb byte = 1#8 ↔ byte.getLsbD 7 = true := by decide +kernel

theorem mustSubtract_iff (r : BitVec (8 * k + 8)) : msb (MSB r) = 1#8 ↔ r.msb = true := by
  rw [msb_eq_one, MSB_eq, BitVec.msb_eq_getLsbD_last]
  simp

theorem bitLoop_eq (G r : BitVec (8 * k + 8)) (n : ℕ) : bitLoop G r n = divSteps G n r := by
  induction n with
  | zero => rfl
  | succ n ih =>
    unfold bitLoop
    rw [ih, divSteps_succ, divStep]
    simp only [mustSubtract_iff]

/-- The next bit comes in where the shift left a zero. -/
theorem shift_or (r x : BitVec (8 * k + 8)) (h : ∀ i, 0 < i → x.getLsbD i = false) : r <<< 1 ||| x = r <<< 1 ^^^ x := by
  apply BitVec.eq_of_getLsbD_eq
  intro i hi
  rw [BitVec.getLsbD_or, BitVec.getLsbD_xor, BitVec.getLsbD_shiftLeft]
  cases i with
  | zero => simp
  | succ i => rw [h (i + 1) (by omega), Bool.or_false, Bool.xor_false]

/-- One more bit of a byte. -/
theorem shift_bit (byte : BitVec 8) {n : ℕ} (hn : n < 8) :
    (byte >>> (8 - n)).setWidth (8 * k + 8) <<< 1 ^^^ (byte >>> (7 - n) &&& 1#8).setWidth (8 * k + 8) =
      (byte >>> (8 - (n + 1))).setWidth (8 * k + 8) := by
  apply BitVec.eq_of_getLsbD_eq
  intro i hi
  rw [BitVec.getLsbD_xor, BitVec.getLsbD_shiftLeft, BitVec.getLsbD_setWidth, BitVec.getLsbD_setWidth,
    BitVec.getLsbD_setWidth, BitVec.getLsbD_and, BitVec.getLsbD_one, BitVec.getLsbD_ushiftRight,
    BitVec.getLsbD_ushiftRight, BitVec.getLsbD_ushiftRight]
  cases i with
  | zero => simp
  | succ i =>
    rw [show 8 - n + (i + 1 - 1) = 8 - (n + 1) + (i + 1) by omega]
    simp [hi]
    omega

theorem shiftLoop_eq (G r : BitVec (8 * k + 8)) (byte : BitVec 8) {n : ℕ} (hn : n ≤ 8) :
    shiftLoop G r byte n = divSteps G n r ^^^ (byte >>> (8 - n)).setWidth (8 * k + 8) := by
  induction n with
  | zero => simp [shiftLoop, BitVec.ushiftRight_eq_zero]
  | succ n ih =>
    have hlow : ∀ i, 0 < i → ((byte >>> (7 - n) &&& 1#8).setWidth (8 * k + 8)).getLsbD i = false := by
      intro i hi
      simp [Nat.pos_iff_ne_zero.1 hi]
    have hclear : ((byte >>> (8 - n)).setWidth (8 * k + 8)).msb = false := by
      rw [BitVec.msb_eq_getLsbD_last]
      simp
      omega
    have hdiv : divStep G ((byte >>> (8 - n)).setWidth (8 * k + 8)) = (byte >>> (8 - n)).setWidth (8 * k + 8) <<< 1 := by
      unfold divStep
      rw [hclear]
      rfl
    unfold shiftLoop
    rw [ih (by omega), divSteps_succ, ← shift_bit byte (by omega), ← hdiv, ← BitVec.xor_assoc, ← divStep_xor]
    dsimp only
    rw [shift_or _ _ hlow]
    simp only [mustSubtract_iff, divStep]
    split_ifs
    · rw [BitVec.xor_assoc, BitVec.xor_comm _ G, ← BitVec.xor_assoc]
    · rfl

/-! ## A byte from the table -/

/-- The byte at the top of a register, and the rest of it. -/
theorem split_top (r : BitVec (8 * k + 8)) : r = r >>> (8 * k) <<< (8 * k) ^^^ r <<< 8 >>> 8 := by
  apply BitVec.eq_of_getLsbD_eq
  intro i hi
  rw [BitVec.getLsbD_xor, BitVec.getLsbD_shiftLeft, BitVec.getLsbD_ushiftRight, BitVec.getLsbD_ushiftRight,
    BitVec.getLsbD_shiftLeft]
  rcases Nat.lt_or_ge i (8 * k) with h | h
  · have hin : 8 + i < 8 * k + 8 := by omega
    simp [h, hin]
  · have hout : ¬ 8 + i < 8 * k + 8 := by omega
    simp [hi, Nat.not_lt.2 h, hout, Nat.add_sub_cancel' h]

/-- Eight steps take the top byte away, and move the rest up. -/
theorem divSteps_top (G r : BitVec (8 * k + 8)) :
    divSteps G 8 r = divSteps G 8 (r >>> (8 * k) <<< (8 * k)) ^^^ r <<< 8 := by
  have hclear : ∀ i < 8, (r <<< 8 >>> 8).getMsbD i = false := by
    intro i hi
    rw [BitVec.getMsbD_ushiftRight]
    simp [hi]
  have hrest : r <<< 8 >>> 8 <<< 8 = r <<< 8 := by
    apply BitVec.eq_of_getLsbD_eq
    intro i hi
    rw [BitVec.getLsbD_shiftLeft, BitVec.getLsbD_ushiftRight, BitVec.getLsbD_shiftLeft, BitVec.getLsbD_shiftLeft]
    rcases Nat.lt_or_ge i 8 with h | h
    · simp [h]
    · simp [hi, Nat.not_lt.2 h, Nat.add_sub_cancel' h]
  conv_lhs => rw [split_top r]
  rw [divSteps_xor, divSteps_clear G hclear, hrest]

/-- **A look in the table** does the work on a byte brought in at the top. -/
theorem byte_from_table (G r : BitVec (8 * k + 8)) (nextByte : BitVec 8) :
    r <<< 8 ^^^ (makeLookupTable G).get (index nextByte r) =
      bitLoop G (r ^^^ nextByte.setWidth (8 * k + 8) <<< (8 * k)) 8 := by
  have hentry : (makeLookupTable G).get (index nextByte r) =
      divSteps G 8 ((nextByte.setWidth (8 * k + 8) ^^^ r >>> (8 * k)) <<< (8 * k)) := by
    have hget : (makeLookupTable G)[(index nextByte r : ℕ)] =
        bitLoop G (BitVec.ofNat (8 * k + 8) (index nextByte r) <<< (8 * k)) 8 := Vector.getElem_ofFn ..
    rw [← bitLoop_eq]
    unfold index at hget
    dsimp only at hget
    rw [BitVec.ofNat_toNat, BitVec.setWidth_eq] at hget
    exact hget
  rw [hentry, bitLoop_eq, BitVec.shiftLeft_xor_distrib, divSteps_xor, divSteps_xor, divSteps_top G r]
  ac_rfl

theorem makeCrc1byteAat_eq (p : Params k) (undef : BitVec (8 * k + 8)) (msg : List (BitVec 8)) (ctx : Context k) :
    makeCrc1byteAat p undef msg ctx (makeLookupTable p.G) = makeCrc1bitAat p undef msg ctx := by
  unfold makeCrc1byteAat makeCrc1bitAat byteLoop
  simp only [byte_from_table]

/-! ## The long division -/

/-- A byte brought in at the bottom, and moved up to the top. -/
theorem divSteps_byte (G : BitVec (8 * k + 8)) (byte : BitVec 8) {n : ℕ} (hn : n ≤ 8 * k) :
    divSteps G n (byte.setWidth (8 * k + 8)) = byte.setWidth (8 * k + 8) <<< n := by
  apply divSteps_clear
  intro i hi
  rw [BitVec.getMsbD_setWidth]
  simp
  omega

theorem trailerLoop_cons (G : BitVec (8 * k + 8)) (read : BitVec 8 → BitVec 8) (r initializer : BitVec (8 * k + 8))
    (byte : BitVec 8) (msg : List (BitVec 8)) : trailerLoop G read r initializer (byte :: msg) =
      trailerLoop G read (shiftLoop G r (read byte ^^^ MSB initializer) 8) (initializer <<< 8) msg := by
  conv_lhs => unfold trailerLoop
  by_cases h : initializer = 0#_
  · simp [h, MSB]
  · simp [h]

/-- What is left of the initializer goes into the trailer. -/
theorem trailerLoop_trailer (G : BitVec (8 * k + 8)) {read : BitVec 8 → BitVec 8} (hread : read 0#8 = 0#8)
    (r initializer : BitVec (8 * k + 8)) {n : ℕ} (hn : n ≤ k + 1) :
    (trailerLoop G read r initializer (List.replicate n 0#8)).1 =
      divSteps G (8 * n) r ^^^ initializer >>> (8 * (k + 1 - n)) := by
  induction n generalizing r initializer with
  | zero =>
    rw [BitVec.ushiftRight_eq_zero (by omega), BitVec.xor_zero]
    rfl
  | succ n ih =>
    have hbyte : (MSB initializer).setWidth (8 * k + 8) <<< (8 * n) ^^^ initializer <<< 8 >>> (8 * (k + 1 - n)) =
        initializer >>> (8 * (k + 1 - (n + 1))) := by
      rw [MSB_setWidth]
      apply BitVec.eq_of_getLsbD_eq
      intro i hi
      rw [BitVec.getLsbD_xor, BitVec.getLsbD_shiftLeft, BitVec.getLsbD_ushiftRight, BitVec.getLsbD_ushiftRight,
        BitVec.getLsbD_ushiftRight, BitVec.getLsbD_shiftLeft]
      rcases Nat.lt_or_ge i (8 * n) with h | h
      · rw [show 8 * (k + 1 - n) + i - 8 = 8 * (k + 1 - (n + 1)) + i by omega]
        simp [hi, h]
        omega
      · rw [show 8 * k + (i - 8 * n) = 8 * (k + 1 - (n + 1)) + i by omega]
        have hout : ¬ 8 * (k + 1 - n) + i < 8 * k + 8 := by omega
        simp [hi, hout, Nat.not_lt.2 h]
    rw [List.replicate_succ, trailerLoop_cons, ih _ _ (by omega), hread, BitVec.zero_xor, shiftLoop_eq G r _ Nat.le.refl,
      Nat.sub_self, BitVec.ushiftRight_zero, divSteps_xor, ← divSteps_add, Nat.add_comm 8, divSteps_byte G _ (by omega),
      BitVec.xor_assoc, hbyte]
    rfl

/-- **The long division** of a message with its trailer, from any register and initializer. -/
theorem trailerLoop_eq (p : Params k) (msg : List (BitVec 8)) (r initializer : BitVec (8 * k + 8)) :
    (trailerLoop p.G p.read (trailerLoop p.G p.read r initializer msg).1 (trailerLoop p.G p.read r initializer msg).2
        (List.replicate (k + 1) 0#8)).1 =
      byteLoop p (divSteps p.G (8 * k + 8) r ^^^ initializer) msg := by
  induction msg generalizing r initializer with
  | nil =>
    have hread : p.read 0#8 = 0#8 := by
      unfold Params.read
      rw [reflectBits_reverse]
      simp
    have htrailer := trailerLoop_trailer p.G hread r initializer (Nat.le_refl (k + 1))
    rw [Nat.sub_self, Nat.mul_zero, BitVec.ushiftRight_zero] at htrailer
    exact htrailer
  | cons byte msg ih =>
    -- the byte that is shifted in now is brought in at the top a register's width ahead
    have hahead : divSteps p.G (8 * k + 8) (shiftLoop p.G r (p.read byte ^^^ MSB initializer) 8) ^^^ initializer <<< 8 =
        bitLoop p.G (divSteps p.G (8 * k + 8) r ^^^ initializer ^^^ (p.read byte).setWidth (8 * k + 8) <<< (8 * k)) 8 := by
      have htop : divSteps p.G (8 * k + 8) ((p.read byte ^^^ MSB initializer).setWidth (8 * k + 8)) =
          divSteps p.G 8 ((p.read byte).setWidth (8 * k + 8) <<< (8 * k)) ^^^
            divSteps p.G 8 (initializer >>> (8 * k) <<< (8 * k)) := by
        rw [divSteps_add, divSteps_byte p.G _ (Nat.le_refl _),
          BitVec.setWidth_xor, MSB_setWidth, BitVec.shiftLeft_xor_distrib, divSteps_xor]
      rw [shiftLoop_eq p.G r _ Nat.le.refl, Nat.sub_self, BitVec.ushiftRight_zero, divSteps_xor, htop, bitLoop_eq,
        divSteps_xor, divSteps_xor, divSteps_top p.G initializer, divSteps_comm p.G (8 * k + 8) 8]
      ac_rfl
    rw [trailerLoop_cons, ih, hahead]
    rfl

/-! ## The values that are returned -/

theorem finish_undef (p : Params k) (undef undef' r : BitVec (8 * k + 8)) : p.finish undef r = p.finish undef' r := by
  unfold Params.finish
  rw [reflectBits_reverse, reflectBits_reverse]

/-- **The table and the register agree**, whatever a shift by the width of the register gives. The long division agrees
with them for no parameters and no message, as it has no instances; with the reversal of the others it would. -/
theorem crc_agree (p : Params k) (undef₁ undef₂ undef₃ undef₄ : BitVec (8 * k + 8)) (msg : List (BitVec 8)) :
    (makeCrc1byteAat p undef₁ msg Context.new (makeLookupTable p.G)).1 = crc1bitAatV2 p undef₂ msg ∧
      crc1bitAatV2 p undef₂ msg = (makeCrc1bitAat p undef₃ msg Context.new).1 ∧
      crc1bitAatV1 unqualifiedReflectBits p msg ≠ some (crc1bitAatV2 p undef₂ msg) ∧
      crc1bitAatV1 (some fun r => reflectBits undef₄ r (8 * k + 8)) p msg = some (crc1bitAatV2 p undef₂ msg) := by
  refine ⟨?_, ?_, nofun, ?_⟩
  · rw [makeCrc1byteAat_eq]
    exact finish_undef ..
  · exact finish_undef ..
  · have hlong := trailerLoop_eq p msg 0#_ p.rinit
    rw [divSteps_zero_right, BitVec.zero_xor] at hlong
    unfold crc1bitAatV2 crc1bitAatV1
    rw [Option.map_some]
    dsimp only
    rw [hlong]
    exact congrArg some (finish_undef p undef₄ undef₂ _)

/-- The long division of the message `123456789` by the generator of the CRC-16 of USB is not to be had. -/
theorem no_long_division :
    ¬∀ (p : Params 1) (msg : List (BitVec 8)),
      crc1bitAatV1 unqualifiedReflectBits p msg = some (crc1bitAatV2 p 0#16 msg) := by
  intro h
  have hagree := h ⟨0x8005#16, 0xffff#16, 0xffff#16, true, true⟩
    [0x31#8, 0x32#8, 0x33#8, 0x34#8, 0x35#8, 0x36#8, 0x37#8, 0x38#8, 0x39#8]
  cases hagree

/-! ## A message in chunks -/

/-- What the calls on the chunks of a message return, one after the other. -/
def streamed (call : List (BitVec 8) → Context k → BitVec (8 * k + 8) × Context k) :
    List (List (BitVec 8)) → Context k → List (BitVec (8 * k + 8))
  | [], _ => []
  | msg :: chunks, ctx => (call msg ctx).1 :: streamed call chunks (call msg ctx).2

/-- The initial value goes into the register once, the final changes into none of its later values. -/
theorem streamed_eq (p : Params k) (undef : BitVec (8 * k + 8)) (chunks : List (List (BitVec 8))) (ctx : Context k) :
    streamed (makeCrc1bitAat p undef) chunks ctx = (List.range chunks.length).map fun i =>
      p.finish undef (byteLoop p (ctx.start p) (chunks.take (i + 1)).flatten) := by
  induction chunks generalizing ctx with
  | nil => rfl
  | cons msg chunks ih =>
    have hstart : (makeCrc1bitAat p undef msg ctx).2.start p = byteLoop p (ctx.start p) msg := rfl
    have happend : ∀ more, byteLoop p (byteLoop p (ctx.start p) msg) more = byteLoop p (ctx.start p) (msg ++ more) := by
      intro more
      exact List.foldl_append.symm
    rw [streamed, ih, hstart, List.length_cons, List.range_succ_eq_map, List.map_cons, List.map_map]
    congr 1
    · rw [List.take_succ_cons, List.take_zero, List.flatten_singleton]
      rfl
    · apply List.map_congr_left
      intro i _
      rw [happend, Function.comp_apply, List.take_succ_cons, List.flatten_cons]

/-- **Each call returns the CRC of all that has been fed in so far**, with or without the table; the
last one that of the whole message. -/
theorem crc_streamed (p : Params k) (undef undef' : BitVec (8 * k + 8)) (chunks : List (List (BitVec 8))) :
    streamed (makeCrc1bitAat p undef) chunks Context.new =
        ((List.range chunks.length).map fun i => crc1bitAatV2 p undef' (chunks.take (i + 1)).flatten) ∧
      streamed (fun msg ctx => makeCrc1byteAat p undef msg ctx (makeLookupTable p.G)) chunks Context.new =
        ((List.range chunks.length).map fun i => crc1bitAatV2 p undef' (chunks.take (i + 1)).flatten) ∧
      ∀ last, (streamed (makeCrc1bitAat p undef) (chunks ++ [last]) Context.new).getLast? =
        some (crc1bitAatV2 p undef' (chunks ++ [last]).flatten) := by
  have hall : ∀ chunks : List (List (BitVec 8)), streamed (makeCrc1bitAat p undef) chunks Context.new =
      (List.range chunks.length).map fun i => crc1bitAatV2 p undef' (chunks.take (i + 1)).flatten := by
    intro chunks
    rw [streamed_eq]
    apply List.map_congr_left
    intro i _
    exact finish_undef ..
  refine ⟨hall chunks, ?_, ?_⟩
  · have htable : (fun msg ctx => makeCrc1byteAat p undef msg ctx (makeLookupTable p.G)) = makeCrc1bitAat p undef := by
      funext msg ctx
      exact makeCrc1byteAat_eq ..
    rw [htable]
    exact hall chunks
  · intro last
    have hlen : (chunks ++ [last]).length = chunks.length + 1 := List.length_append
    rw [hall, hlen, List.range_succ, List.map_append, List.map_singleton, List.getLast?_concat, ← hlen,
      List.take_length]

end Libtarp.Crc
