import Libtarp.Checksum.Fips

/-!
# SHA-256 of a message in chunks

* `processBlock_hash`: `process_block` is the compression of FIPS 180-4.
* `Tracks`: the context after a message, of which `buff` holds what does not fill a block.
* `processLast_hash`: the padding in `buff` is that of the message.
* `digest_eq`: the digest of a message in chunks.
-/

namespace Libtarp.Sha256

open Lib

/-! ## One block -/

theorem constants_eq (i : ℕ) : wordAt constants i = Fips.K i := by
  have h : constants = Fips.primes.map (Fips.fraction 3) := by decide +kernel
  unfold wordAt Fips.K
  rw [h]

theorem initialHash_eq : initialHash = Fips.H₀ := by decide +kernel

theorem leValue_lt (bytes : List UInt8) : leValue bytes < 256 ^ bytes.length := by
  induction bytes with
  | nil => decide
  | cons b bytes ih =>
    have hb := b.toNat_lt
    rw [leValue, List.length_cons, Nat.pow_succ]
    omega

theorem toHbo_word {bytes : List UInt8} (h : bytes.length = 4) :
    toHbo (BitVec.ofNat 32 (leValue bytes)) = BitVec.ofNat 32 (beValue bytes) := by
  have hlt := leValue_lt bytes
  rw [h] at hlt
  unfold toHbo
  rw [BitVec.toNat_ofNat, Nat.mod_eq_of_lt (show leValue bytes < 2 ^ 32 by omega), swap_leValue h]

/-- The schedule starts with the words of the block. -/
theorem blockWords_eq {n : ℕ} {data : List UInt8} (h : data.length = 4 * n) :
    ((blockWords data).map toHbo).length = n ∧
      ∀ i < n, wordAt ((blockWords data).map toHbo) i = Fips.M data i := by
  induction n generalizing data with
  | zero =>
    obtain rfl := List.eq_nil_of_length_eq_zero h
    exact ⟨rfl, by omega⟩
  | succ n ih =>
    match data, h with
    | b₀ :: b₁ :: b₂ :: b₃ :: data, h =>
      simp only [List.length_cons] at h
      obtain ⟨hlen, hwords⟩ := ih (show data.length = 4 * n by omega)
      rw [blockWords, List.map_cons, toHbo_word rfl]
      refine ⟨by rw [List.length_cons, hlen], ?_⟩
      intro i hi
      cases i with
      | zero => rfl
      | succ i =>
        have hword := hwords i (by omega)
        unfold wordAt Fips.M at hword ⊢
        rw [List.getD_cons_succ, hword]
        rfl

/-- A schedule filled up as far as its length. -/
theorem schedule_eq (block : List UInt8) {n i : ℕ} {sched : List Word} (hi : 16 ≤ i) (hlen : sched.length = i)
    (hsched : ∀ t < i, wordAt sched t = Fips.W block t) :
    ∀ t < i + n, wordAt (schedule n i sched) t = Fips.W block t := by
  induction n generalizing i sched with
  | zero => exact hsched
  | succ n ih =>
    have hnext : Fips.W block i = op1 (wordAt sched (i - 2)) + wordAt sched (i - 7) + op0 (wordAt sched (i - 15)) +
        wordAt sched (i - 16) := by
      rw [Fips.W, if_neg (by omega), hsched _ (by omega), hsched _ (by omega), hsched _ (by omega), hsched _ (by omega)]
      rfl
    have hmore := ih (show 16 ≤ i + 1 by omega)
      (show (sched ++ [Fips.W block i]).length = i + 1 by rw [List.length_append, hlen, List.length_singleton]) (by
      intro t ht
      unfold wordAt at hsched ⊢
      rcases Nat.lt_or_ge t i with h | h
      · rw [← hsched t h, List.getD_eq_getElem?_getD, List.getD_eq_getElem?_getD, List.getElem?_append_left (by omega)]
      · obtain rfl : t = i := by omega
        simp [← hlen])
    intro t ht
    rw [schedule, ← hnext]
    exact hmore t (by omega)

/-- The steps on a block. -/
theorem doOne_eq (block : List UInt8) (H : Words) {sched : List Word}
    (hsched : ∀ t < 64, wordAt sched t = Fips.W block t) {n : ℕ} (hn : n ≤ 64) :
    (List.range n).foldl (doOne sched) H = Fips.working H block n := by
  induction n with
  | zero => rfl
  | succ n ih =>
    rw [List.range_succ, List.foldl_append, ih (by omega)]
    simp only [List.foldl_cons, List.foldl_nil, doOne]
    rw [constants_eq, hsched n (by omega)]
    rfl

/-- **A block is compressed.** -/
theorem processBlock_hash (ctx : Ctx) {data : List UInt8} (h : 64 ≤ data.length) :
    processBlock ctx data = { ctx with hash := Fips.compress ctx.hash (data.take 64) } := by
  have hlen : (data.take 64).length = 4 * 16 := List.length_take_of_le h
  obtain ⟨hwords, hword⟩ := blockWords_eq hlen
  have hsched := schedule_eq (data.take 64) (n := 48) Nat.le.refl hwords (by
    intro t ht
    rw [hword t ht, Fips.W, if_pos ht])
  unfold processBlock
  dsimp only
  rw [doOne_eq (data.take 64) ctx.hash hsched Nat.le.refl]
  rfl

/-! ## A message in chunks -/

/-- The context after the message `x`. -/
structure Tracks (ctx : Ctx) (x : List UInt8) : Prop where
  absorbed : Absorbed 64 Fips.compress Fips.H₀ x ctx.hash (ctx.buff.bytes.take ctx.offset)
  offset : ctx.offset = x.length % 64
  msglen : ctx.msglen = x.length % 2 ^ 64

theorem tracks_new (buff : Buffer 128) : Tracks (Ctx.new buff) [] := by
  refine ⟨?_, rfl, rfl⟩
  rw [Ctx.new, List.take_zero, initialHash_eq]
  exact absorbed_nil (by decide)

variable {ctx : Ctx} {x : List UInt8}

/-- **As much of a chunk as goes into the buffer.** -/
theorem Tracks.processOne (h : Tracks ctx x) (data : List UInt8) :
    ∃ y, data = y ++ (Sha256.processOne ctx data).2 ∧ Tracks (Sha256.processOne ctx data).1 (x ++ y) ∧
      ((Sha256.processOne ctx data).1.offset = 0 ∨ (Sha256.processOne ctx data).2 = []) := by
  have hoff := h.offset
  have hmsg := h.msglen
  obtain ⟨n, hn⟩ : ∃ n, n = min (64 - ctx.offset) data.length := ⟨_, rfl⟩
  have hlen : (data.take n).length = n := List.length_take_of_le (by omega)
  have hin : ctx.offset + (data.take n).length ≤ 128 := by omega
  -- what fits is behind what was there
  have htake := ctx.buff.take_write hin
  refine ⟨data.take n, ?_⟩
  unfold Sha256.processOne
  dsimp only
  rw [← hn]
  by_cases hfull : ctx.offset + n = 64
  · rw [if_pos hfull]
    refine ⟨(List.take_append_drop n data).symm, ⟨?_, ?_, ?_⟩, Or.inl rfl⟩
    · rw [processBlock_hash _ (by rw [Buffer.size]; decide)]
      rw [hlen, hfull] at htake
      dsimp only
      rw [htake]
      exact h.absorbed.block (by decide) (by
        rw [List.length_append, h.absorbed.length]
        omega)
    · rw [List.length_append, hlen]
      show 0 = _
      omega
    · rw [List.length_append, hlen, processBlock_hash _ (by rw [Buffer.size]; decide)]
      dsimp only
      omega
  · rw [if_neg hfull]
    refine ⟨(List.take_append_drop n data).symm, ⟨?_, ?_, ?_⟩, Or.inr (List.drop_eq_nil_of_le (by omega))⟩
    · rw [hlen] at htake
      dsimp only
      rw [htake]
      exact h.absorbed.short (by decide) (by
        rw [List.length_append, h.absorbed.length]
        omega)
    · rw [List.length_append, hlen]
      show ctx.offset + n = _
      omega
    · rw [List.length_append, hlen]
      show (ctx.msglen + n) % 2 ^ 64 = _
      omega

/-- **The full blocks of a chunk.** -/
theorem Tracks.processFull (h : Tracks ctx x) (data : List UInt8) (h0 : ctx.offset = 0 ∨ data = []) :
    ∃ y, data = y ++ (Sha256.processFull ctx data).2 ∧ Tracks (Sha256.processFull ctx data).1 (x ++ y) ∧
      ((Sha256.processFull ctx data).1.offset = 0 ∨ (Sha256.processFull ctx data).2 = []) := by
  fun_induction Sha256.processFull ctx data generalizing x with
  | case1 ctx data hlen ih =>
    have hoff : ctx.offset = 0 := by
      rcases h0 with h0 | rfl
      · exact h0
      · exact absurd hlen (by decide)
    have hblock : (data.take 64).length = 64 := List.length_take_of_le hlen
    have hxlen := h.offset
    have hmsg := h.msglen
    rw [processBlock_hash _ hlen] at ih ⊢
    have hnext : Tracks { ctx with hash := Fips.compress ctx.hash (data.take 64), msglen := (ctx.msglen + 64) % 2 ^ 64 }
        (x ++ data.take 64) := by
      have hpart : ctx.buff.bytes.take ctx.offset = [] := by rw [hoff, List.take_zero]
      have habs := h.absorbed
      rw [hpart] at habs
      refine ⟨?_, ?_, ?_⟩
      · dsimp only
        rw [hpart]
        exact habs.block (by decide) hblock
      · rw [List.length_append, hblock]
        dsimp only
        omega
      · rw [List.length_append, hblock]
        dsimp only
        omega
    obtain ⟨y, hy, htracks, hrest⟩ := ih hnext (Or.inl hoff)
    refine ⟨data.take 64 ++ y, ?_, ?_, hrest⟩
    · rw [List.append_assoc, ← hy, List.take_append_drop]
    · rw [← List.append_assoc]
      exact htracks
  | case2 ctx data hlen =>
    refine ⟨[], rfl, ?_, h0⟩
    rw [List.append_nil]
    exact h

theorem processFull_short (ctx : Ctx) (data : List UInt8) : (Sha256.processFull ctx data).2.length < 64 := by
  fun_induction Sha256.processFull ctx data with
  | case1 ctx data hlen ih => exact ih
  | case2 ctx data hlen => exact Nat.lt_of_not_le hlen

theorem processOne_rest (ctx : Ctx) (data : List UInt8) :
    (Sha256.processOne ctx data).2 = data.drop (min (64 - ctx.offset) data.length) := by
  unfold Sha256.processOne
  dsimp only
  split_ifs <;> rfl

/-- **A chunk.** -/
theorem Tracks.process (h : Tracks ctx x) (data : List UInt8) : Tracks (Sha256.process ctx data false) (x ++ data) := by
  have hstart : ∃ y left ctx', (if ctx.offset > 0 then Sha256.processOne ctx data else (ctx, data)) = (ctx', left) ∧
      data = y ++ left ∧ Tracks ctx' (x ++ y) ∧ (ctx'.offset = 0 ∨ left = []) := by
    by_cases hoff : ctx.offset > 0
    · obtain ⟨y, hy, htracks, hrest⟩ := h.processOne data
      exact ⟨y, _, _, if_pos hoff, hy, htracks, hrest⟩
    · refine ⟨[], data, ctx, if_neg hoff, rfl, ?_, Or.inl (by omega)⟩
      rw [List.append_nil]
      exact h
  obtain ⟨y, left, ctx₁, hone, rfl, h₁, h0⟩ := hstart
  obtain ⟨z, hz, h₂, h0'⟩ := h₁.processFull left h0
  have hshort := processFull_short ctx₁ left
  unfold Sha256.process
  rw [hone]
  dsimp only
  generalize Sha256.processFull ctx₁ left = full at hz h₂ h0' hshort
  obtain ⟨ctx₂, left₂⟩ := full
  dsimp only at hz h₂ h0' hshort
  rw [if_neg Bool.false_ne_true, hz, ← List.append_assoc, ← List.append_assoc]
  by_cases hlen : left₂.length > 0
  · have hoff : ctx₂.offset = 0 := by
      rcases h0' with h0' | rfl
      · exact h0'
      · simp at hlen
    obtain ⟨u, hu, h₃, -⟩ := h₂.processOne left₂
    rw [processOne_rest, hoff, List.drop_eq_nil_of_le (by omega), List.append_nil] at hu
    rw [if_pos hlen, hu]
    rw [hu] at h₃
    exact h₃
  · obtain rfl : left₂ = [] := List.eq_nil_of_length_eq_zero (by omega)
    rw [if_neg hlen, List.append_nil]
    exact h₂

/-! ## The end of a message -/

/-- What `process_last` leaves in the buffer, up to the end of the length. -/
def lastBuff (ctx : Ctx) : Buffer 128 :=
  ((ctx.buff.write (ctx.msglen % 64) (List.replicate (128 - ctx.msglen % 64) 0)).write (ctx.msglen % 64) [0x80]).write
    (if ctx.msglen % 64 < 56 then 56 else 64 + 56) (leBytes 8 (toNbo (ctx.msglen <<< 3 % 2 ^ 64)))

/-- The bytes after the last full block, padded. -/
def tail (x : List UInt8) : List UInt8 :=
  rest 64 x ++ 0x80 :: List.replicate (Fips.zeros x.length) 0 ++ beBytes 8 (8 * x.length)

theorem tail_length (x : List UInt8) : (tail x).length = if x.length % 64 < 56 then 64 else 128 := by
  unfold tail
  rw [List.length_append, List.length_append, List.length_cons, List.length_replicate, beBytes_length, rest_length,
    Fips.zeros_eq]
  split_ifs <;> omega

/-- The buffer after `0x80` and the zeros. -/
theorem padded_bytes (b : Buffer 128) {c : ℕ} (hc : c < 64) :
    ((b.write c (List.replicate (128 - c) 0)).write c [0x80]).bytes =
      b.bytes.take c ++ 0x80 :: List.replicate (127 - c) 0 := by
  have hsize := b.size
  have hlen : (b.bytes.take c).length = c := List.length_take_of_le (by omega)
  have hzeros : (b.write c (List.replicate (128 - c) 0)).bytes = b.bytes.take c ++ List.replicate (128 - c) 0 := by
    rw [Buffer.write_bytes _ (by rw [List.length_replicate]; omega), List.length_replicate,
      List.drop_eq_nil_of_le (by omega), List.append_nil]
  rw [Buffer.write_bytes _ (by rw [List.length_singleton]; omega), hzeros, List.take_left' hlen, List.length_singleton,
    ← List.drop_drop, List.drop_left' hlen, List.append_assoc, show 128 - c = 127 - c + 1 by omega]
  rfl

/-- **The padding in the buffer** is that of the message. -/
theorem lastBuff_eq (h : Tracks ctx x) :
    (lastBuff ctx).bytes.take (if x.length % 64 < 56 then 64 else 128) = tail x := by
  have hmod : ctx.msglen % 64 = x.length % 64 := by
    rw [h.msglen]
    omega
  have hpart : ctx.buff.bytes.take (x.length % 64) = rest 64 x := by
    rw [← h.offset]
    exact h.absorbed.part
  have hbits : leBytes 8 (toNbo (ctx.msglen <<< 3 % 2 ^ 64)) = beBytes 8 (8 * x.length) := by
    have hlen : ctx.msglen <<< 3 % 2 ^ 64 = 8 * x.length % 2 ^ (8 * 8) := by
      rw [h.msglen, Nat.shiftLeft_eq]
      omega
    unfold toNbo
    rw [leBytes_swap, hlen, beBytes_mod]
  have hc := Nat.mod_lt x.length (show 64 > 0 by decide)
  have hzeros := Fips.zeros_eq x.length
  unfold lastBuff tail
  rw [hmod, hbits]
  generalize x.length % 64 = c at hpart hc hzeros
  have hrest : (rest 64 x).length = c := by rw [← hpart, List.length_take, ctx.buff.size]; omega
  have hbuff := padded_bytes ctx.buff hc
  rw [hpart] at hbuff
  generalize (ctx.buff.write c (List.replicate (128 - c) 0)).write c [0x80] = b at hbuff
  obtain ⟨off, hoff⟩ : ∃ off, off = if c < 56 then 56 else 64 + 56 := ⟨_, rfl⟩
  have hend : (if c < 56 then 64 else 128) = off + (beBytes 8 (8 * x.length)).length := by
    rw [beBytes_length, hoff]
    split_ifs <;> rfl
  have hk : off - c = Fips.zeros x.length + 1 := by
    rw [hzeros, hoff]
    split_ifs <;> omega
  have hle : off - c ≤ 128 - c := by
    rw [hoff]
    split_ifs <;> omega
  rw [← hoff, hend, b.take_write (by rw [beBytes_length, hoff]; split_ifs <;> decide), hbuff, List.take_append, hrest,
    List.take_of_length_le (by omega), hk, List.take_succ_cons, List.take_replicate, Nat.min_eq_left (by omega)]

/-- **The hash at the end of a message.** -/
theorem processLast_hash (h : Tracks ctx x) : (processLast ctx).hash = Fips.hash x := by
  have hsize := (lastBuff ctx).size
  have hbuff := lastBuff_eq h
  have hlast : processLast ctx =
      (fun ctx' : Ctx => if (if ctx.msglen % 64 < 56 then 56 else 64 + 56) > 64 then
        processBlock ctx' ((lastBuff ctx).bytes.drop 64) else ctx')
      (processBlock { ctx with buff := lastBuff ctx } (lastBuff ctx).bytes) := rfl
  have hmod : ctx.msglen % 64 = x.length % 64 := by
    rw [h.msglen]
    omega
  have hpad : Fips.pad x = x ++ (0x80 :: List.replicate (Fips.zeros x.length) 0 ++ beBytes 8 (8 * x.length)) := by
    unfold Fips.pad
    rw [List.append_assoc]
  have hblocks : blocks 64 (Fips.pad x) = blocks 64 x ++ blocks 64 (tail x) := by
    rw [hpad, blocks_append (by decide)]
    unfold tail
    rw [List.append_assoc]
  have hlen := tail_length x
  unfold Fips.hash
  rw [hblocks, List.foldl_append, ← h.absorbed.state, hlast, hmod, processBlock_hash _ (by omega)]
  by_cases hc : x.length % 64 < 56
  · rw [if_pos hc] at hbuff hlen
    rw [if_pos hc, blocks_exact (by decide) hlen, hbuff]
    rfl
  · rw [if_neg hc] at hbuff hlen
    rw [List.take_of_length_le (by omega)] at hbuff
    have hdrop : ((tail x).drop 64).length = 64 := by rw [List.length_drop]; omega
    have htwo : blocks 64 (tail x) = [(tail x).take 64, (tail x).drop 64] := by
      have hsplit : blocks 64 ((tail x).take 64 ++ (tail x).drop 64) = (tail x).take 64 :: blocks 64 ((tail x).drop 64) :=
        blocks_block (by decide) (by rw [List.length_take]; omega)
      rw [List.take_append_drop, blocks_exact (by decide) hdrop] at hsplit
      exact hsplit
    rw [if_neg hc, htwo, hbuff]
    dsimp only
    rw [if_pos (by decide), processBlock_hash _ (Nat.le_of_eq hdrop.symm), List.take_of_length_le (Nat.le_of_eq hdrop)]
    rfl

theorem Tracks.chunks (h : Tracks ctx x) (chunks : List (List UInt8)) :
    Tracks (chunks.foldl (fun ctx data => Sha256.process ctx data false) ctx) (x ++ chunks.flatten) := by
  induction chunks generalizing ctx x with
  | nil =>
    rw [List.flatten_nil, List.append_nil]
    exact h
  | cons data chunks ih =>
    rw [List.flatten_cons, ← List.append_assoc]
    exact ih (h.process data)

/-! ## The digest -/

theorem wordsToNbo_leBytes (v : ℕ) (buff : List UInt8) :
    wordsToNbo (leBytes 4 v ++ buff) = beBytes 4 v ++ wordsToNbo buff := by
  have hword : wordsToNbo (leBytes 4 v ++ buff) = leBytes 4 (swap 4 (leValue (leBytes 4 v))) ++ wordsToNbo buff := rfl
  have hback := leBytes_leValue (leBytes 4 v)
  rw [leBytes_length] at hback
  rw [hword, leBytes_swap, beBytes, hback, beBytes]

theorem getHashbytes_eq (ctx : Ctx) : getHashbytes ctx =
    [ctx.hash.a, ctx.hash.b, ctx.hash.c, ctx.hash.d, ctx.hash.e, ctx.hash.f, ctx.hash.g, ctx.hash.h].flatMap
      fun x => beBytes 4 x.toNat := by
  have hwords : ∀ ws : List Word, wordsToNbo (ws.flatMap fun x => leBytes 4 x.toNat) =
      ws.flatMap fun x => beBytes 4 x.toNat := by
    intro ws
    induction ws with
    | nil => rfl
    | cons w ws ih => rw [List.flatMap_cons, List.flatMap_cons, wordsToNbo_leBytes, ih]
  exact hwords _

/-- **The digest of a message in chunks.** -/
theorem digest_eq (buff : Buffer 128) (chunks : List (List UInt8)) (last : List UInt8) :
    getHashbytes (process (chunks.foldl (fun ctx data => process ctx data false) (Ctx.new buff)) last true) =
      Fips.digest (chunks.flatten ++ last) := by
  have h := ((tracks_new buff).chunks chunks).process last
  have hlast : ∀ ctx, process ctx last true = processLast (process ctx last false) := fun _ => rfl
  rw [List.nil_append] at h
  rw [getHashbytes_eq, hlast, processLast_hash h]
  rfl

end Libtarp.Sha256
