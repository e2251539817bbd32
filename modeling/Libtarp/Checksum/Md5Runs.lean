import Libtarp.Checksum.Rfc1321

/-!
# MD5 of a message in chunks

* `step_eq`: a round of the loop is an operation of RFC 1321, with the registers turned.
* `processBlock_eq`: `MD5_process_block` is the compression of RFC 1321.
* `getTrailer_eq`: the trailer pads the message. With it the message is whole blocks.
* `md5_eq`: the digest of a message in chunks.
-/

namespace Libtarp.Md5

open Lib

/-! ## One block -/

theorem inputs_eq : ∀ i < 64, transformationInputs.getD i (0, 0, 0) = (Rfc1321.k i, Rfc1321.s i, Rfc1321.T.getD i 0) := by
  decide +kernel

theorem s_lt : ∀ i < 64, Rfc1321.s i < 32 := by decide +kernel

theorem lrotu32_eq (x : Word) {n : ℕ} (hn : n < 32) : lrotu32 x n = x.rotateLeft n := by
  rw [BitVec.rotateLeft_eq_rotateLeftAux_of_lt hn]
  rfl

/-- The registers of RFC 1321, in the order in which the loop has them before round `i`. -/
def turned (i : ℕ) (w : Words) : Words :=
  match i % 4 with
  | 0 => w
  | 1 => { a := w.d, b := w.a, c := w.b, d := w.c }
  | 2 => { a := w.c, b := w.d, c := w.a, d := w.b }
  | _ => { a := w.b, b := w.c, c := w.d, d := w.a }

theorem step_operation (block : List UInt8) (w : Words) {i : ℕ} (hi : i < 64) :
    step block w i = { a := w.d, b := Rfc1321.operation block i w.a w.b w.c w.d, c := w.b, d := w.c } := by
  have hfun : transform (i >>> 4) w.b w.c w.d = Rfc1321.function (i / 16) w.b w.c w.d := by
    rw [show i >>> 4 = i / 16 from Nat.shiftRight_eq_div_pow i 4]
    rcases i / 16 with _ | _ | _ | round <;> rfl
  unfold step Rfc1321.operation
  rw [inputs_eq i hi]
  dsimp only
  rw [hfun, lrotu32_eq _ (s_lt i hi), ← BitVec.add_assoc, BitVec.add_comm _ w.b]
  rfl

/-- **A round of the loop.** -/
theorem step_eq (block : List UInt8) (w : Words) {i : ℕ} (hi : i < 64) :
    step block (turned i (Rfc1321.registers block w i)) i = turned (i + 1) (Rfc1321.registers block w (i + 1)) := by
  rw [step_operation block _ hi, Rfc1321.registers]
  unfold turned
  obtain h | h | h | h : i % 4 = 0 ∨ i % 4 = 1 ∨ i % 4 = 2 ∨ i % 4 = 3 := by omega
  · rw [h, show (i + 1) % 4 = 1 by omega]
    rfl
  · rw [h, show (i + 1) % 4 = 2 by omega]
    rfl
  · rw [h, show (i + 1) % 4 = 3 by omega]
    rfl
  · rw [h, show (i + 1) % 4 = 0 by omega]
    rfl

theorem loop_eq (block : List UInt8) (w : Words) {n : ℕ} (hn : n ≤ 64) :
    (List.range n).foldl (step block) w = turned n (Rfc1321.registers block w n) := by
  induction n with
  | zero => rfl
  | succ n ih => rw [List.range_succ, List.foldl_append, ih (by omega), List.foldl_cons, List.foldl_nil, step_eq _ _ (by omega)]

theorem decodeBlock_eq {n : ℕ} {block : List UInt8} (h : block.length = 4 * n) : decodeBlock block = block := by
  induction n generalizing block with
  | zero =>
    obtain rfl := List.eq_nil_of_length_eq_zero h
    rfl
  | succ n ih =>
    match block, h with
    | b₀ :: b₁ :: b₂ :: b₃ :: block, h =>
      simp only [List.length_cons] at h
      have hword : leBytes 4 (leValue [b₀, b₁, b₂, b₃]) = [b₀, b₁, b₂, b₃] := leBytes_leValue [b₀, b₁, b₂, b₃]
      rw [decodeBlock, le32toh, hword, ih (by omega)]
      rfl

/-- **A block is compressed.** -/
theorem processBlock_eq (ctx : Ctx) :
    processBlock ctx = { ctx with hash := Rfc1321.compress ctx.hash ctx.block.bytes } := by
  have hdecode : decodeBlock ctx.block.bytes = ctx.block.bytes := decodeBlock_eq (n := 16) ctx.block.size
  unfold processBlock
  dsimp only
  rw [hdecode, loop_eq ctx.block.bytes ctx.hash Nat.le.refl, ctx.block.write_self]
  congr 1
  simp only [Words.add, Rfc1321.compress, turned, BitVec.add_comm]

/-! ## A message in chunks -/

/-- The context after the message `x`. -/
def Tracks (ctx : Ctx) (x : List UInt8) : Prop :=
  Absorbed 64 Rfc1321.compress Rfc1321.start x ctx.hash (ctx.block.bytes.take ctx.cursor)

theorem tracks_new (block : Buffer 64) : Tracks (newctx block) [] := by
  have h : (newctx block).hash = Rfc1321.start := by
    show ({ a := 0x67452301, b := 0xefcdab89, c := 0x98badcfe, d := 0x10325476 } : Words) = Rfc1321.start
    decide
  unfold Tracks
  rw [h]
  exact absorbed_nil (by decide)

variable {ctx : Ctx} {x : List UInt8}

theorem Tracks.cursor (h : Tracks ctx x) : ctx.cursor = x.length % 64 := by
  have hlen := Absorbed.length h
  have hlt := ctx.cursor_lt
  rw [List.length_take, ctx.block.size] at hlen
  omega

theorem and_64 {n : ℕ} (h : n ≤ 64) : n &&& 64 ≠ 0 ↔ n = 64 := by
  have hall : ∀ n ≤ 64, (n &&& 64 ≠ 0 ↔ n = 64) := by decide +kernel
  exact hall n h

/-- **What is left of a message, from a place in a block on.** -/
theorem Tracks.digestPart (h : Tracks ctx x) (message : List UInt8) :
    Tracks (Md5.digestPart ctx message) (x ++ message) ∧ (Md5.digestPart ctx message).inputLen = ctx.inputLen := by
  fun_induction Md5.digestPart ctx message generalizing x with
  | case1 ctx message hm bytes block hfull =>
    rename_i ih
    have hlt := ctx.cursor_lt
    have hlen : (message.take bytes).length = bytes := List.length_take_of_le (Nat.min_le_right ..)
    have hend : ctx.cursor + bytes = 64 := (and_64 (by omega)).1 hfull
    -- the block is filled by the bytes that are taken
    have hbytes : block.bytes = ctx.block.bytes.take ctx.cursor ++ message.take bytes := by
      rw [← ctx.block.take_write (by omega), hlen, hend]
      exact (List.take_of_length_le (Nat.le_of_eq block.size)).symm
    obtain ⟨htracks, hinput⟩ := @ih (x ++ message.take bytes) (by
      unfold Tracks
      rw [processBlock_eq]
      dsimp only
      rw [hbytes, List.take_zero]
      apply Absorbed.block h (by decide)
      rw [List.length_append, hlen, List.length_take, ctx.block.size]
      omega)
    refine ⟨?_, by rw [hinput, processBlock_eq]⟩
    rw [List.append_assoc, List.take_append_drop] at htracks
    exact htracks
  | case2 ctx message hm bytes block hpart hlt =>
    rename_i ih
    have hlen : (message.take bytes).length = bytes := List.length_take_of_le (Nat.min_le_right ..)
    have hnext : Tracks { ctx with block := block, cursor := ctx.cursor + bytes, cursor_lt := hlt }
        (x ++ message.take bytes) := by
      have hbytes := ctx.block.take_write (show ctx.cursor + (message.take bytes).length ≤ 64 by omega)
      rw [hlen] at hbytes
      unfold Tracks
      dsimp only
      rw [show block.bytes.take (ctx.cursor + bytes) = _ from hbytes]
      apply Absorbed.short h (by decide)
      rw [List.length_append, hlen, List.length_take, ctx.block.size]
      omega
    obtain ⟨htracks, hinput⟩ := ih hnext
    refine ⟨?_, hinput⟩
    rw [List.append_assoc, List.take_append_drop] at htracks
    exact htracks
  | case3 ctx message hm =>
    obtain rfl : message = [] := List.eq_nil_of_length_eq_zero (by omega)
    rw [List.append_nil]
    exact ⟨h, rfl⟩

/-- The context between calls: the length of the message is kept too. -/
structure Digested (ctx : Ctx) (x : List UInt8) : Prop where
  tracks : Tracks ctx x
  inputLen : ctx.inputLen = x.length % 2 ^ 64

/-- **A chunk.** -/
theorem Digested.digest (h : Digested ctx x) (message : List UInt8) : Digested (Md5.digest ctx message false) (x ++ message) := by
  unfold Md5.digest
  by_cases hm : message.length > 0
  · obtain ⟨htracks, hinput⟩ := h.tracks.digestPart message
    rw [if_pos hm, if_neg Bool.false_ne_true]
    refine ⟨htracks, ?_⟩
    dsimp only
    rw [hinput, h.inputLen, List.length_append]
    omega
  · obtain rfl : message = [] := List.eq_nil_of_length_eq_zero (by omega)
    rw [List.append_nil]
    exact h

theorem Digested.chunks (h : Digested ctx x) (chunks : List (List UInt8)) :
    Digested (chunks.foldl (fun ctx message => Md5.digest ctx message false) ctx) (x ++ chunks.flatten) := by
  induction chunks generalizing ctx x with
  | nil =>
    rw [List.flatten_nil, List.append_nil]
    exact h
  | cons message chunks ih =>
    rw [List.flatten_cons, ← List.append_assoc]
    exact ih (h.digest message)

/-! ## The end of a message -/

theorem findPadding_eq : ∀ cursor < 64, findPadding cursor = (119 - cursor) % 64 + 1 := by decide +kernel

/-- **The padding** is that of RFC 1321. -/
theorem Tracks.findPadding (h : Tracks ctx x) : Md5.findPadding ctx.cursor = Rfc1321.padding x.length := by
  rw [findPadding_eq _ ctx.cursor_lt, Rfc1321.padding_eq, h.cursor]

/-- **The trailer** pads the message. -/
theorem getTrailer_eq (h : Digested ctx x) : getTrailer ctx =
    0x80 :: List.replicate (Rfc1321.padding x.length - 1) 0 ++ leBytes 8 (8 * x.length) := by
  have hpos := (Nat.find_spec (Rfc1321.padding_exists x.length)).1
  have hlength : leBytes 8 (ctx.inputLen <<< 3 % 2 ^ 64) = leBytes 8 (8 * x.length) := by
    have hbits : ctx.inputLen <<< 3 % 2 ^ 64 = 8 * x.length % 2 ^ (8 * 8) := by
      rw [h.inputLen, Nat.shiftLeft_eq]
      omega
    rw [hbits, leBytes_mod]
  unfold getTrailer
  dsimp only
  rw [h.tracks.findPadding, hlength, Nat.add_sub_cancel]
  change 0 < Rfc1321.padding x.length at hpos
  generalize Rfc1321.padding x.length = p at hpos
  have hl := leBytes_length 8 (8 * x.length)
  generalize leBytes 8 (8 * x.length) = l at hl
  obtain ⟨p, rfl⟩ := Nat.exists_eq_succ_of_ne_zero (Nat.pos_iff_ne_zero.1 hpos)
  have hone := (Buffer.zeros (p + 1 + 8)).take_write (show 0 + [0x80].length ≤ p + 1 + 8 by simp)
  have hzeros := ((Buffer.zeros (p + 1 + 8)).write 0 [0x80]).take_write
    (show 1 + (List.replicate p (0 : UInt8)).length ≤ p + 1 + 8 by rw [List.length_replicate]; omega)
  rw [List.length_replicate, Nat.add_comm 1 p] at hzeros
  rw [Nat.succ_eq_add_one, Nat.add_sub_cancel, Buffer.write_bytes _ (by omega), hzeros, List.drop_eq_nil_of_le,
    List.append_nil]
  · rw [show ((Buffer.zeros (p + 1 + 8)).write 0 [0x80]).bytes.take 1 = _ from hone]
    rfl
  · rw [Buffer.size]
    omega

/-- **The digest of a message in chunks**, and the padding that goes into it. -/
theorem md5_eq (block : Buffer 64) (chunks : List (List UInt8)) (last : List UInt8) :
    let m := chunks.flatten ++ last
    let ctx := chunks.foldl (fun ctx message => digest ctx message false) (newctx block)
    let padding := findPadding (digest ctx last false).cursor
    dump (digest ctx last true) = Rfc1321.digest m ∧
      1 ≤ padding ∧ padding ≤ 64 ∧ (m.length + padding) % 64 = 56 := by
  intro m ctx padding
  have hnew : Digested (newctx block) [] := ⟨tracks_new block, rfl⟩
  have h : Digested (digest ctx last false) m := (hnew.chunks chunks).digest last
  have hpad : m ++ getTrailer (digest ctx last false) = Rfc1321.pad m := by
    rw [getTrailer_eq h, ← List.append_assoc]
    rfl
  have hlast : digest ctx last true = digestPart (digest ctx last false) (getTrailer (digest ctx last false)) := rfl
  have hfinal := (h.tracks.digestPart (getTrailer (digest ctx last false))).1
  have hpadding : padding = (119 - m.length % 64) % 64 + 1 := by
    rw [← Rfc1321.padding_eq]
    exact h.tracks.findPadding
  refine ⟨?_, by omega, by omega, by omega⟩
  rw [hpad] at hfinal
  unfold dump Rfc1321.digest Rfc1321.hash
  rw [hlast, hfinal.state]

end Libtarp.Md5
