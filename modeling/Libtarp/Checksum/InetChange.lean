import Libtarp.Checksum.InetRuns

/-!
# Incremental changes of the Internet checksum

Every word that is changed adds `65535`, the second zero of one's complement arithmetic, to what a
sum over the edited buffer comes to (`updateChange_spec`, `updateChangeValue_spec`).
`change_correct_iff` says when that does not show.
-/

namespace Libtarp.Inet

/-! ## The sum after a change -/

/-- `sum` has `65535` added to it for each of `n` words, and the words `old` exchanged for `new`. -/
structure Changed (n : ℕ) (old new : List UInt8) (ctx ctx' : Ctx) : Prop where
  fits : ctx.sum < 2 ^ 32 → ctx'.sum < 2 ^ 32
  sum : (ctx'.sum + total old) % 2 ^ 32 = (ctx.sum + total new + 65535 * n) % 2 ^ 32

variable {ctx mid ctx' : Ctx} {m n : ℕ} {old new old' new' : List UInt8}

theorem Changed.refl (ctx : Ctx) (x : List UInt8) : Changed 0 x x ctx ctx := ⟨id, rfl⟩

theorem Changed.append (h : Changed m old new ctx mid) (h' : Changed n old' new' mid ctx')
    (hold : old.length % 2 = 0) (hnew : new.length % 2 = 0) : Changed (m + n) (old ++ old') (new ++ new') ctx ctx' := by
  refine ⟨fun hfits => h'.fits (h.fits hfits), ?_⟩
  have hsum := h.sum
  have hsum' := h'.sum
  rw [total_append hold, total_append hnew]
  omega

/-- One word, and the same bytes around it. -/
theorem changed_word (ctx : Ctx) (a b c d : UInt8) : Changed 1 [a, b] [c, d] ctx (ctx.change (word a b) (word c d)) := by
  have hle := word_le a b
  refine ⟨fun _ => Nat.mod_lt _ (by decide), ?_⟩
  simp only [Ctx.change, Ctx.add, total, words, List.sum_cons, List.sum_nil]
  omega

theorem changed_byte (ctx : Ctx) (a c : UInt8) : Changed 1 [a] [c] ctx (ctx.change a.toNat c.toNat) := by
  have ha := a.toNat_lt
  refine ⟨fun _ => Nat.mod_lt _ (by decide), ?_⟩
  simp only [Ctx.change, Ctx.add, total, words, word, UInt8.toNat_zero, List.sum_cons, List.sum_nil]
  omega

theorem Changed.congr_right (h : Changed n old new ctx ctx') (hold : old.length % 2 = 0) (hnew : new.length % 2 = 0)
    (x : List UInt8) : Changed n (old ++ x) (new ++ x) ctx ctx' := h.append (Changed.refl ctx' x) hold hnew

theorem changeWords_spec (ctx : Ctx) {n : ℕ} {old new : List UInt8} (hold : old.length = 2 * n)
    (hnew : new.length = 2 * n) (x y : List UInt8) :
    ∃ ctx', changeWords n ctx (old ++ x) (new ++ y) = .ok ctx' ∧ Changed n old new ctx ctx' := by
  induction n generalizing ctx old new with
  | zero =>
    obtain rfl := List.eq_nil_of_length_eq_zero hold
    obtain rfl := List.eq_nil_of_length_eq_zero hnew
    exact ⟨ctx, rfl, Changed.refl ctx []⟩
  | succ n ih =>
    match old, new, hold, hnew with
    | a :: b :: old, c :: d :: new, hold, hnew =>
      simp only [List.length_cons] at hold hnew
      obtain ⟨ctx', h, hctx⟩ := ih (ctx.change (word a b) (word c d)) (show old.length = 2 * n by omega)
        (show new.length = 2 * n by omega)
      have hchanged := (changed_word ctx a b c d).append hctx (by simp) (by simp)
      rw [Nat.add_comm] at hchanged
      exact ⟨ctx', h, hchanged⟩

/-- The byte that ends a change, with what follows it in the buffer. -/
theorem changeTail_spec (ctx : Ctx) {x y change : List UInt8} {offset : ℕ} {c : UInt8} (a : UInt8)
    (post : List UInt8) (hx : x.length + 1 = offset + change.length) (hchange : change = y ++ [c]) :
    ∃ ctx', changeTail ctx (x ++ a :: post) offset change = .ok ctx' ∧ Changed 1 (a :: post) (c :: post) ctx ctx' := by
  have hbuff : (x ++ a :: post).drop (offset + change.length - 1) = a :: post := by
    rw [← hx, Nat.add_sub_cancel, List.drop_left]
  have hlast : change.drop (change.length - 1) = [c] := by
    rw [hchange, List.length_append, List.length_singleton, Nat.add_sub_cancel, List.drop_left]
  unfold changeTail
  rw [hbuff, hlast]
  dsimp only
  rw [← hx, List.length_append, List.length_cons]
  cases post with
  | nil => exact ⟨_, if_pos rfl, (changed_byte ctx a c).fits, (changed_byte ctx a c).sum⟩
  | cons b post =>
    refine ⟨ctx.change (word a b) (word c b), ?_, (changed_word ctx a b c b).congr_right (by simp) (by simp) post⟩
    rw [List.length_cons, if_neg (by omega)]

/-- The part of a change that starts with a word. -/
theorem changeRest_spec (ctx : Ctx) {x y old new change : List UInt8} {offset : ℕ} (post : List UInt8)
    (hx : x.length + new.length = offset + change.length) (hchange : change = y ++ new)
    (hlen : old.length = new.length) :
    ∃ ctx', (do
        let ctx ← changeWords (new.length >>> 1) ctx (old ++ post) new
        if new.length &&& 1 = 1 then changeTail ctx (x ++ (old ++ post)) offset change else pure ctx) = .ok ctx' ∧
      Changed ((new.length + 1) / 2) (old ++ post) (new ++ post) ctx ctx' := by
  rw [length_half, length_odd]
  rcases Nat.mod_two_eq_zero_or_one new.length with heven | hodd
  · obtain ⟨ctx', h, hctx⟩ := changeWords_spec ctx (show old.length = 2 * (new.length / 2) by omega)
      (show new.length = 2 * (new.length / 2) by omega) post []
    rw [List.append_nil] at h
    refine ⟨ctx', ?_, ?_⟩
    · rw [h]
      exact if_neg (by omega)
    · rw [show (new.length + 1) / 2 = new.length / 2 by omega]
      exact hctx.congr_right (by omega) heven post
  · -- the last byte has no other to make a word with
    obtain ⟨q, c, rfl⟩ : ∃ q c, new = q ++ [c] := by
      rcases List.eq_nil_or_concat new with rfl | ⟨q, c, rfl⟩
      · simp at hodd
      · exact ⟨q, c, List.concat_eq_append⟩
    obtain ⟨o, a, rfl⟩ : ∃ o a, old = o ++ [a] := by
      rcases List.eq_nil_or_concat old with rfl | ⟨o, a, rfl⟩
      · simp at hlen
      · exact ⟨o, a, List.concat_eq_append⟩
    rw [List.length_append, List.length_singleton] at hlen hodd hx
    rw [List.length_append, List.length_singleton] at hlen
    obtain ⟨mid, h, hmid⟩ := changeWords_spec ctx (show o.length = 2 * (q.length / 2) by omega)
      (show q.length = 2 * (q.length / 2) by omega) (a :: post) [c]
    obtain ⟨ctx', h', hctx⟩ := changeTail_spec mid a post
      (show (x ++ o).length + 1 = offset + change.length by rw [List.length_append]; omega)
      (show change = (y ++ q) ++ [c] by rw [hchange, List.append_assoc])
    refine ⟨ctx', ?_, ?_⟩
    · rw [List.length_append, List.length_singleton, show (q.length + 1) / 2 = q.length / 2 by omega,
        List.append_assoc o, List.singleton_append, h]
      rw [List.append_assoc] at h'
      exact (if_pos hodd).trans h'
    · have hall := hmid.append hctx (by omega) (by omega)
      rw [List.length_append, List.length_singleton, List.append_assoc, List.append_assoc,
        show (q.length + 1 + 1) / 2 = q.length / 2 + 1 by omega]
      exact hall

/-- The words that a change of `length` bytes at `offset` lies in. -/
def touched (offset length : ℕ) : ℕ := if length = 0 then 0 else (offset % 2 + length + 1) / 2

/-- **A change of a range of bytes.** -/
theorem updateChange_spec (ctx : Ctx) {x old post change : List UInt8} (hlen : old.length = change.length) :
    ∃ ctx', updateChange ctx (x ++ (old ++ post)) x.length change = .ok ctx' ∧
      Changed (touched x.length change.length) (x ++ (old ++ post)) (x ++ (change ++ post)) ctx ctx' := by
  unfold updateChange touched
  by_cases hzero : change.length = 0
  · obtain rfl := List.eq_nil_of_length_eq_zero hzero
    obtain rfl := List.eq_nil_of_length_eq_zero hlen
    exact ⟨ctx, rfl, Changed.refl ctx _⟩
  · have hin : ¬ x.length + change.length > (x ++ (old ++ post)).length := by
      rw [List.length_append, List.length_append]
      omega
    rw [if_neg hzero, if_neg hzero, if_neg hin]
    dsimp only
    rw [show x.length &&& 1 = x.length % 2 from length_odd x]
    rcases Nat.mod_two_eq_zero_or_one x.length with heven | hodd
    · obtain ⟨ctx', h, hctx⟩ := changeRest_spec ctx post (show x.length + _ = _ from rfl) (List.nil_append change).symm hlen
      refine ⟨ctx', ?_, ?_⟩
      · simp only [heven, Nat.zero_ne_one, if_false, Nat.sub_self, Nat.add_zero, List.drop_left, List.drop_zero]
        exact h
      · have hall := (Changed.refl ctx x).append hctx heven heven
        rw [heven, Nat.zero_add]
        rw [Nat.zero_add] at hall
        exact hall
    · -- the byte before the change is the other half of its first word
      obtain ⟨w, z, rfl⟩ : ∃ w z, x = w ++ [z] := by
        rcases List.eq_nil_or_concat x with rfl | ⟨w, z, rfl⟩
        · simp at hodd
        · exact ⟨w, z, List.concat_eq_append⟩
      obtain ⟨c, q, rfl⟩ := List.exists_cons_of_length_pos (Nat.pos_of_ne_zero hzero)
      obtain ⟨b, o, rfl⟩ := List.exists_cons_of_length_pos (hlen ▸ Nat.pos_of_ne_zero hzero)
      have hw : w.length % 2 = 0 := by
        rw [List.length_append, List.length_singleton] at hodd
        omega
      rw [List.length_cons, List.length_cons] at hlen
      obtain ⟨ctx', h, hctx⟩ := changeRest_spec (ctx.change (word z b) (word z c)) post
        (show (w ++ [z, b]).length + q.length = (w ++ [z]).length + (c :: q).length by
          simp only [List.length_append, List.length_cons, List.length_nil]
          omega)
        (show c :: q = [c] ++ q from rfl) (show o.length = q.length by omega)
      have hhead : changeHead ctx (w ++ [z] ++ (b :: o ++ post)) (w ++ [z]).length (c :: q) =
          .ok (ctx.change (word z b) (word z c)) := by
        unfold changeHead
        rw [List.length_append, List.length_singleton, Nat.add_sub_cancel, List.append_assoc, List.drop_left]
        rfl
      have hrest : (w ++ [z] ++ (b :: o ++ post)).drop ((w ++ [z]).length + 1) = o ++ post := by
        rw [List.drop_append]
        simp
      have hbuff : w ++ [z] ++ (b :: o ++ post) = w ++ [z, b] ++ (o ++ post) := by simp
      refine ⟨ctx', ?_, ?_⟩
      · simp only [hodd, if_true, hhead, List.length_cons, Nat.add_sub_cancel, Nat.add_sub_cancel_left, hrest,
          List.drop_succ_cons, List.drop_zero]
        rw [hbuff]
        exact h
      · have hword := (changed_word ctx z b z c).append hctx (by simp) (by simp)
        have hall := (Changed.refl ctx w).append hword (by omega) (by omega)
        rw [hodd, List.length_cons, hbuff]
        rw [show 0 + (1 + (q.length + 1) / 2) = (1 + (q.length + 1) + 1) / 2 by omega] at hall
        simpa using hall

/-! ## A change of a value -/

/-- The value at an address, of as many bytes. -/
def value : List UInt8 → ℕ
  | [] => 0
  | b :: bytes => b.toNat + 256 * value bytes

theorem value_lt {n : ℕ} {bytes : List UInt8} (h : bytes.length = 2 * n) : value bytes < 2 ^ (16 * n) := by
  induction n generalizing bytes with
  | zero =>
    obtain rfl := List.eq_nil_of_length_eq_zero h
    decide
  | succ n ih =>
    match bytes, h with
    | a :: b :: bytes, h =>
      have ha := a.toNat_lt
      have hb := b.toNat_lt
      have hlt := ih (show bytes.length = 2 * n by simp only [List.length_cons] at h; omega)
      rw [Nat.mul_succ, Nat.pow_add]
      simp only [value]
      omega

theorem addValue_fits {ctx : Ctx} (h : ctx.sum < 2 ^ 32) (n v : ℕ) : (addValue n ctx v).sum < 2 ^ 32 := by
  induction n generalizing ctx v with
  | zero => exact h
  | succ n ih => exact ih (Nat.mod_lt _ (by decide)) _

theorem addValue_spec (ctx : Ctx) {n : ℕ} {bytes : List UInt8} (h : bytes.length = 2 * n) :
    (addValue n ctx (value bytes)).sum % 2 ^ 32 = (ctx.sum + total bytes) % 2 ^ 32 := by
  induction n generalizing ctx bytes with
  | zero =>
    obtain rfl := List.eq_nil_of_length_eq_zero h
    rfl
  | succ n ih =>
    match bytes, h with
    | a :: b :: bytes, h =>
      have hword := word_le a b
      have hval : value (a :: b :: bytes) = word a b + 2 ^ 16 * value bytes := by
        simp only [value, word]
        omega
      have hlow : value (a :: b :: bytes) % 2 ^ 16 = word a b := by omega
      have hhigh : value (a :: b :: bytes) >>> 16 = value bytes := by
        rw [Nat.shiftRight_eq_div_pow]
        omega
      unfold addValue
      rw [hlow, hhigh, ih _ (by simp only [List.length_cons] at h; omega)]
      simp only [Ctx.add, total, words, List.sum_cons]
      omega

theorem addValue_compl (ctx : Ctx) {n : ℕ} {bytes : List UInt8} (h : bytes.length = 2 * n) :
    ((addValue n ctx (2 ^ (16 * n) - 1 - value bytes)).sum + total bytes) % 2 ^ 32 =
      (ctx.sum + 65535 * n) % 2 ^ 32 := by
  induction n generalizing ctx bytes with
  | zero =>
    obtain rfl := List.eq_nil_of_length_eq_zero h
    rfl
  | succ n ih =>
    match bytes, h with
    | a :: b :: bytes, h =>
      have hlen : bytes.length = 2 * n := by
        simp only [List.length_cons] at h
        omega
      have hword := word_le a b
      have hlt := value_lt hlen
      have hcompl : 2 ^ (16 * (n + 1)) - 1 - value (a :: b :: bytes) =
          65535 - word a b + 2 ^ 16 * (2 ^ (16 * n) - 1 - value bytes) := by
        rw [Nat.mul_succ, Nat.pow_add]
        simp only [value, word] at hword ⊢
        omega
      have hlow : (2 ^ (16 * (n + 1)) - 1 - value (a :: b :: bytes)) % 2 ^ 16 = 65535 - word a b := by omega
      have hhigh : (2 ^ (16 * (n + 1)) - 1 - value (a :: b :: bytes)) >>> 16 = 2 ^ (16 * n) - 1 - value bytes := by
        rw [Nat.shiftRight_eq_div_pow]
        omega
      have hrest := ih (ctx.add (65535 - word a b)) hlen
      unfold addValue
      rw [hlow, hhigh]
      simp only [Ctx.add, total, words, List.sum_cons] at hrest ⊢
      omega

/-- **A change of a value.** -/
theorem updateChangeValue_spec (ctx : Ctx) {n : ℕ} {x old new post : List UInt8} (hx : x.length % 2 = 0)
    (hold : old.length = 2 * n) (hnew : new.length = 2 * n) :
    Changed n (x ++ (old ++ post)) (x ++ (new ++ post)) ctx (updateChangeValue n ctx (value old) (value new)) := by
  have hword : Changed n old new ctx (updateChangeValue n ctx (value old) (value new)) := by
    have hcompl := addValue_compl ctx hold
    have hadd := addValue_spec (addValue n ctx (2 ^ (16 * n) - 1 - value old)) hnew
    refine ⟨fun hfits => addValue_fits (addValue_fits hfits ..) .., ?_⟩
    unfold updateChangeValue
    omega
  have hall := (Changed.refl ctx x).append (hword.congr_right (by omega) (by omega) post) hx hx
  rw [Nat.zero_add] at hall
  exact hall

/-! ## The checksum after a change -/

/-- Neither the second zero nor what is carried out of the accumulator shows in the checksum. -/
def SameFold (s n : ℕ) : Prop :=
  (s % 2 ^ 32 = 0 ↔ (s + 65535 * n) % 2 ^ 32 = 0) ∧ (s % 2 ^ 32 + 65535 * n) / 2 ^ 32 % 65535 = 0

theorem ones_eq_iff {r t n w : ℕ} (hsum : r + 65535 * n = 2 ^ 32 * w + t) :
    ones t = ones r ↔ (r = 0 ↔ t = 0) ∧ w % 65535 = 0 := by
  have hmod : r % 65535 = (w + t) % 65535 := by omega
  unfold ones
  by_cases ht : t = 0
  · by_cases hr : r = 0
    · rw [hr, ht] at hmod
      have hw : w % 65535 = 0 := hmod.symm
      simp [hr, ht, hw]
    · simp [hr, ht]
  · by_cases hr : r = 0
    · simp [hr, ht]
    · simp only [hr, ht, if_false, true_and]
      omega

theorem ones_same_iff (s n : ℕ) : ones ((s + 65535 * n) % 2 ^ 32) = ones (s % 2 ^ 32) ↔ SameFold s n := by
  apply ones_eq_iff
  rw [← Nat.mod_add_mod, Nat.div_add_mod]

/-- The context of a buffer, changed along with the buffer, gives the checksum of the edited buffer. -/
def Incremental (joint₀ joint₁ joint₀' joint₁' : UInt8) (buff buff' : List UInt8) (change : Ctx → Except Failure Ctx) :
    Prop :=
  ∃ ctx ctx' fresh, update (Ctx.new joint₀ joint₁) buff = .ok ctx ∧ change ctx = .ok ctx' ∧
    update (Ctx.new joint₀' joint₁') buff' = .ok fresh ∧ getChecksum ctx' = getChecksum fresh

variable (joint₀ joint₁ joint₀' joint₁' : UInt8)

/-- What holds of a change that does to the sum what it should. -/
theorem incremental_iff {buff buff' : List UInt8} {change : Ctx → Except Failure Ctx} {n : ℕ}
    (hlen : buff'.length = buff.length)
    (hchange : ∀ ctx, ∃ ctx', change ctx = .ok ctx' ∧ Changed n buff buff' ctx ctx') :
    Incremental joint₀ joint₁ joint₀' joint₁' buff buff' change ↔
      buff.length / 2 < 2 ^ 32 ∧ SameFold (total buff') n := by
  have hnew := tracks_new joint₀ joint₁
  have hnew' := tracks_new joint₀' joint₁'
  by_cases hcount : buff.length / 2 < 2 ^ 32
  · obtain ⟨ctx, hok, hctx⟩ := hnew.aligned (c := buff) (by simp) hcount
    obtain ⟨fresh, hok', hfresh⟩ := hnew'.aligned (c := buff') (by simp) (by rw [hlen]; exact hcount)
    obtain ⟨ctx', hok'', hctx'⟩ := hchange ctx
    have hsum : ctx'.sum = (total buff' + 65535 * n) % 2 ^ 32 := by
      have hfits := hctx'.fits hctx.sum_lt
      have hold := hctx.sum
      have hnew := hctx'.sum
      rw [List.nil_append, Nat.add_zero] at hold
      omega
    have hsame : getChecksum ctx' = getChecksum fresh ↔ SameFold (total buff') n := by
      have hle := ones_le (total buff' % 2 ^ 32)
      have hle' := ones_le ((total buff' + 65535 * n) % 2 ^ 32)
      rw [← ones_same_iff, hfresh.getChecksum, List.nil_append, Nat.add_zero]
      unfold getChecksum
      rw [foldSum_eq, hsum]
      omega
    constructor
    · rintro ⟨ctx₁, ctx₁', fresh₁, h, h', h'', heq⟩
      obtain rfl := Except.ok.inj (hok.symm.trans h)
      obtain rfl := Except.ok.inj (hok''.symm.trans h')
      obtain rfl := Except.ok.inj (hok'.symm.trans h'')
      exact ⟨hcount, hsame.1 heq⟩
    · exact fun h => ⟨ctx, ctx', fresh, hok, hok'', hok', hsame.2 h.2⟩
  · constructor
    · rintro ⟨ctx, -, -, hok, -⟩
      rw [hnew.update_error (by simpa using hcount)] at hok
      cases hok
    · exact fun h => absurd h.1 hcount

theorem edited_eq {buff : List UInt8} {offset : ℕ} {change : List UInt8} (h : offset + change.length ≤ buff.length) :
    ∃ x old post, buff = x ++ (old ++ post) ∧ x.length = offset ∧ old.length = change.length ∧
      (buff.drop offset).take change.length = old ∧ edited buff offset change = x ++ (change ++ post) := by
  refine ⟨buff.take offset, (buff.drop offset).take change.length, buff.drop (offset + change.length), ?_, ?_, ?_, rfl, ?_⟩
  · rw [← List.drop_drop, List.take_append_drop, List.take_append_drop]
  · rw [List.length_take]
    omega
  · rw [List.length_take, List.length_drop]
    omega
  · unfold edited
    rw [List.append_assoc]

/-- **The checksum after a change**, of a range of bytes or of a value of whole words. -/
theorem change_correct_iff {buff : List UInt8} {offset : ℕ} {change : List UInt8}
    (hin : offset + change.length ≤ buff.length) :
    (Incremental joint₀ joint₁ joint₀' joint₁' buff (edited buff offset change)
        (fun ctx => updateChange ctx buff offset change) ↔
      buff.length / 2 < 2 ^ 32 ∧ SameFold (total (edited buff offset change)) (touched offset change.length)) ∧
    ∀ n, offset % 2 = 0 → change.length = 2 * n →
      (Incremental joint₀ joint₁ joint₀' joint₁' buff (edited buff offset change)
          (fun ctx => .ok (updateChangeValue n ctx (value ((buff.drop offset).take change.length)) (value change))) ↔
        buff.length / 2 < 2 ^ 32 ∧ SameFold (total (edited buff offset change)) n) := by
  obtain ⟨x, old, post, hbuff, rfl, hlen, hold, hedited⟩ := edited_eq hin
  have hsame : (edited buff x.length change).length = buff.length := by
    rw [hedited, hbuff]
    simp only [List.length_append]
    omega
  rw [hold]
  constructor
  · apply incremental_iff _ _ _ _ hsame
    intro ctx
    rw [hbuff] at hedited ⊢
    rw [hedited]
    exact updateChange_spec ctx hlen
  · intro n heven hn
    apply incremental_iff _ _ _ _ hsame
    intro ctx
    rw [hedited, hbuff]
    exact ⟨_, rfl, updateChangeValue_spec ctx heven (hlen.trans hn) hn⟩

theorem change_correct_iff_two :
    (Incremental 0 0 0 0 [1, 2, 3, 4] (edited [1, 2, 3, 4] 2 [5, 6])
        (fun ctx => updateChange ctx [1, 2, 3, 4] 2 [5, 6]) ↔
      [1, 2, 3, 4].length / 2 < 2 ^ 32 ∧ SameFold (total (edited [1, 2, 3, 4] 2 [5, 6])) (touched 2 2)) ∧
    ∀ n, 2 % 2 = 0 → [5, 6].length = 2 * n →
      (Incremental 0 0 0 0 [1, 2, 3, 4] (edited [1, 2, 3, 4] 2 [5, 6])
          (fun ctx => .ok (updateChangeValue n ctx (value (([1, 2, 3, 4].drop 2).take 2)) (value [5, 6]))) ↔
        [1, 2, 3, 4].length / 2 < 2 ^ 32 ∧ SameFold (total (edited [1, 2, 3, 4] 2 [5, 6])) n) :=
  change_correct_iff 0 0 0 0 (show 2 + [5, 6].length ≤ [1, 2, 3, 4].length by decide)

/-- Two bytes that become zero, as a range of bytes and as a value: the sum is the second zero, and
that of the zero bytes the first. -/
theorem change_keeps_second_zero :
    ¬ Incremental 0 0 0 0 [1, 0] (edited [1, 0] 0 [0, 0]) (fun ctx => updateChange ctx [1, 0] 0 [0, 0]) ∧
    ¬ Incremental 0 0 0 0 [1, 0] (edited [1, 0] 0 [0, 0]) (fun ctx => .ok (updateChangeValue 1 ctx 1 0)) := by
  have hold : update (Ctx.new 0 0) [1, 0] = .ok { Ctx.new 0 0 with sum := 1 } := rfl
  have hfresh : update (Ctx.new 0 0) (edited [1, 0] 0 [0, 0]) = .ok (Ctx.new 0 0) := rfl
  have hrange : updateChange { Ctx.new 0 0 with sum := 1 } [1, 0] 0 [0, 0] = .ok { Ctx.new 0 0 with sum := 65535 } := rfl
  have hvalue : updateChangeValue 1 { Ctx.new 0 0 with sum := 1 } 1 0 = { Ctx.new 0 0 with sum := 65535 } := rfl
  constructor
  · rintro ⟨ctx, ctx', fresh, h, h', h'', heq⟩
    obtain rfl := Except.ok.inj (hold.symm.trans h)
    obtain rfl := Except.ok.inj (hrange.symm.trans h')
    obtain rfl := Except.ok.inj (hfresh.symm.trans h'')
    rw [getChecksum_small (by decide), getChecksum_small (by decide)] at heq
    exact absurd heq (by decide)
  · rintro ⟨ctx, ctx', fresh, h, h', h'', heq⟩
    obtain rfl := Except.ok.inj (hold.symm.trans h)
    obtain rfl := hvalue.symm.trans (Except.ok.inj h')
    obtain rfl := Except.ok.inj (hfresh.symm.trans h'')
    rw [getChecksum_small (by decide), getChecksum_small (by decide)] at heq
    exact absurd heq (by decide)

end Libtarp.Inet
