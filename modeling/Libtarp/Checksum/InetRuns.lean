import Libtarp.Checksum.Inet
import Mathlib.Algebra.BigOperators.Group.List.Basic
import Mathlib.Data.Nat.Init
import Mathlib.Tactic.SplitIfs

/-!
# The Internet checksum of a message in chunks

* `ones`: the one's complement sum of numbers that add up to `s`. It is what `fold_sum` makes
  of `s` (`foldSum_eq`), and what one's complement addition of the words comes to.
* `Tracks`: the context after a message. `extra` is what the sum is off by.
* `correct_iff`: when the checksum of a message in chunks is that of the message.
-/

namespace Libtarp.Inet

/-! ## One's complement sums -/

def ones (s : ℕ) : ℕ := if s = 0 then 0 else (s - 1) % 65535 + 1

theorem foldSum_eq (sum : ℕ) : foldSum sum = ones sum := by
  induction sum using Nat.strong_induction_on with
  | _ sum ih =>
    have hmod : sum &&& 65535 = sum % 65536 := Nat.and_two_pow_sub_one_eq_mod sum 16
    rw [foldSum]
    split_ifs with h
    · rw [hmod, ih _ (by omega)]
      unfold ones
      split_ifs <;> omega
    · unfold ones
      split_ifs <;> omega

theorem onesAdd_ones {s w : ℕ} (hw : w ≤ 65535) : onesAdd (ones s) w = ones (s + w) := by
  unfold onesAdd ones
  split_ifs <;> omega

theorem foldl_onesAdd {ws : List ℕ} (hw : ∀ w ∈ ws, w ≤ 65535) (s : ℕ) :
    ws.foldl onesAdd (ones s) = ones (s + ws.sum) := by
  induction ws generalizing s with
  | nil => rfl
  | cons w ws ih =>
    rw [List.foldl_cons, onesAdd_ones (hw w (List.mem_cons_self ..)), ih fun v hv => hw v (List.mem_cons_of_mem _ hv),
      List.sum_cons, Nat.add_assoc]

theorem word_le (a b : UInt8) : word a b ≤ 65535 := by
  have ha := a.toNat_lt
  have hb := b.toNat_lt
  unfold word
  omega

theorem words_le (message : List UInt8) : ∀ w ∈ words message, w ≤ 65535 := by
  fun_induction words message with
  | case1 => simp
  | case2 a => simpa using word_le a 0
  | case3 a b message ih =>
    intro w hw
    rcases List.mem_cons.1 hw with rfl | hw
    · exact word_le a b
    · exact ih w hw

/-- What the words of a message add up to. -/
def total (message : List UInt8) : ℕ := (words message).sum

theorem rfc1071_eq (message : List UInt8) : rfc1071 message = 65535 - ones (total message) := by
  have h := foldl_onesAdd (words_le message) 0
  rw [Nat.zero_add] at h
  unfold rfc1071 total
  rw [← h]
  rfl

theorem ones_le (s : ℕ) : ones s ≤ 65535 := by
  unfold ones
  split_ifs <;> omega

theorem words_append {x : List UInt8} (hx : x.length % 2 = 0) (y : List UInt8) : words (x ++ y) = words x ++ words y := by
  fun_induction words x with
  | case1 => rfl
  | case2 a => simp at hx
  | case3 a b x ih =>
    simp only [List.length_cons] at hx
    simp only [List.cons_append, words, ih (by omega)]

theorem total_append {x : List UInt8} (hx : x.length % 2 = 0) (y : List UInt8) : total (x ++ y) = total x + total y := by
  unfold total
  rw [words_append hx, List.sum_append]

/-- More bytes after half a word. -/
theorem total_append_odd {x : List UInt8} (hx : x.length % 2 = 1) (b : UInt8) (y : List UInt8) :
    total (x ++ b :: y) = total x + 256 * b.toNat + total y := by
  obtain ⟨x, a, rfl⟩ : ∃ z a, x = z ++ [a] := by
    rcases List.eq_nil_or_concat x with rfl | ⟨z, a, rfl⟩
    · simp at hx
    · exact ⟨z, a, List.concat_eq_append⟩
  have hx' : x.length % 2 = 0 := by
    rw [List.length_append, List.length_singleton] at hx
    omega
  rw [List.append_assoc, total_append hx', total_append hx']
  simp [total, words, word]
  omega

/-! ## One chunk -/

theorem addWords_spec {n i : ℕ} {ctx : Ctx} {buff : List UInt8} (hn : n = i + buff.length / 2) (hlt : n < 2 ^ 32)
    (hs : ctx.sum < 2 ^ 32) : ∃ sum left, addWords n i ctx buff = .ok ({ ctx with sum := sum }, left) ∧
      sum < 2 ^ 32 ∧ (sum + total left) % 2 ^ 32 = (ctx.sum + total buff) % 2 ^ 32 ∧
      left.length = buff.length % 2 ∧ (buff.length % 2 = 1 → left.head? = buff.getLast?) := by
  fun_induction words buff generalizing i ctx with
  | case1 =>
    unfold addWords
    rw [if_neg (by rw [hn]; simp)]
    exact ⟨ctx.sum, [], rfl, hs, rfl, rfl, by simp⟩
  | case2 a =>
    unfold addWords
    rw [if_neg (by rw [hn]; simp)]
    exact ⟨ctx.sum, [a], rfl, hs, rfl, rfl, fun _ => rfl⟩
  | case3 a b buff ih =>
    simp only [List.length_cons] at hn
    have hsum : (ctx.add (word a b)).sum < 2 ^ 32 := Nat.mod_lt _ (by decide)
    have hnext : n = (i + 1) % 2 ^ 32 + buff.length / 2 := by omega
    obtain ⟨sum, left, h, hs', htot, hlen, hlast⟩ := ih hnext hsum
    refine ⟨sum, left, ?_, hs', ?_, ?_, ?_⟩
    · unfold addWords
      rw [if_pos (by omega)]
      exact h
    · rw [htot]
      simp only [Ctx.add, total, words, List.sum_cons]
      omega
    · simp only [List.length_cons]
      omega
    · intro hodd
      simp only [List.length_cons] at hodd
      rw [hlast (by omega)]
      cases buff with
      | nil => simp at hodd
      | cons c buff => rfl

/-- With too many words the loop does not stop where the buffer ends. -/
theorem addWords_error {n i : ℕ} (ctx : Ctx) (buff : List UInt8) (hn : 2 ^ 32 ≤ n) (hi : i < 2 ^ 32) :
    addWords n i ctx buff = .error .pastEnd := by
  fun_induction words buff generalizing i ctx with
  | case1 =>
    unfold addWords
    rw [if_pos (by omega)]
  | case2 a =>
    unfold addWords
    rw [if_pos (by omega)]
  | case3 a b buff ih =>
    unfold addWords
    rw [if_pos (by omega)]
    exact ih _ (Nat.mod_lt _ (by decide))

/-- The context after the message `x`. -/
structure Tracks (ctx : Ctx) (x : List UInt8) (extra : ℕ) (joint₁ : UInt8) : Prop where
  sum : ctx.sum = (total x + extra) % 2 ^ 32
  truncated : ctx.truncated = decide (x.length % 2 = 1)
  last : x.length % 2 = 1 → x.getLast? = some ctx.joint₀
  joint₁ : ctx.joint₁ = joint₁

theorem tracks_new (joint₀ joint₁ : UInt8) : Tracks (Ctx.new joint₀ joint₁) [] 0 joint₁ := by
  refine ⟨rfl, rfl, ?_, rfl⟩
  simp

theorem length_half (buff : List UInt8) : buff.length >>> 1 = buff.length / 2 := Nat.shiftRight_eq_div_pow _ 1

theorem length_odd (buff : List UInt8) : buff.length &&& 1 = buff.length % 2 := Nat.and_two_pow_sub_one_eq_mod _ 1

variable {ctx : Ctx} {x : List UInt8} {extra : ℕ} {joint₁ : UInt8}

theorem updateAligned_spec {buff : List UInt8} (hlt : buff.length / 2 < 2 ^ 32) (hs : ctx.sum < 2 ^ 32) :
    ∃ ctx', updateAligned ctx buff = .ok ctx' ∧ ctx'.sum = (ctx.sum + total buff) % 2 ^ 32 ∧
      ctx'.truncated = (ctx.truncated || decide (buff.length % 2 = 1)) ∧
      (buff.length % 2 = 1 → buff.getLast? = some ctx'.joint₀) ∧
      (buff.length % 2 = 0 → ctx'.joint₀ = ctx.joint₀) ∧ ctx'.joint₁ = ctx.joint₁ := by
  obtain ⟨sum, left, h, hs', htot, hlen, hlast⟩ := addWords_spec (show _ = 0 + _ from (Nat.zero_add _).symm) hlt hs
  unfold updateAligned
  dsimp only
  rw [length_half, h, length_odd]
  by_cases hodd : buff.length % 2 = 1
  · obtain ⟨v, rfl⟩ := List.length_eq_one_iff.1 (hlen.trans hodd)
    have hv : buff.getLast? = some v := (hlast hodd).symm
    refine ⟨{ ({ ctx with sum := sum } : Ctx).add v.toNat with truncated := true, joint₀ := v }, ?_, ?_, ?_, ?_, ?_, rfl⟩
    · show (if _ then _ else _) = _
      rw [if_pos hodd]
      rfl
    · rw [← htot]
      simp [Ctx.add, total, words, word]
    · simp [hodd]
    · exact fun _ => hv
    · omega
  · obtain rfl : left = [] := List.eq_nil_of_length_eq_zero (by omega)
    refine ⟨{ ctx with sum := sum }, ?_, ?_, ?_, fun h1 => absurd h1 hodd, fun _ => rfl, rfl⟩
    · show (if _ then _ else _) = _
      rw [if_neg hodd]
      rfl
    · rw [← htot]
      exact (Nat.mod_eq_of_lt hs').symm
    · simp [hodd]

theorem updateAligned_error (ctx : Ctx) {buff : List UInt8} (hge : 2 ^ 32 ≤ buff.length / 2) :
    updateAligned ctx buff = .error .pastEnd := by
  unfold updateAligned
  dsimp only
  rw [length_half, addWords_error ctx buff hge (by decide)]
  rfl

theorem Tracks.sum_lt (h : Tracks ctx x extra joint₁) : ctx.sum < 2 ^ 32 := h.sum ▸ Nat.mod_lt _ (by decide)

/-- A chunk that does not go on within a word. -/
theorem Tracks.aligned (h : Tracks ctx x extra joint₁) {c : List UInt8} (hx : x.length % 2 = 1 → c = [])
    (hlt : c.length / 2 < 2 ^ 32) : ∃ ctx', update ctx c = .ok ctx' ∧ Tracks ctx' (x ++ c) extra joint₁ := by
  obtain ⟨ctx', hok, hsum, htr, hodd, heven, hj⟩ := updateAligned_spec hlt h.sum_lt
  have hupdate : update ctx c = updateAligned ctx c := by
    unfold update
    rw [h.truncated]
    by_cases hp : x.length % 2 = 1
    · rw [hx hp]
      simp
    · simp [hp]
  refine ⟨ctx', hupdate.trans hok, ?_⟩
  by_cases hp : x.length % 2 = 1
  · obtain rfl := hx hp
    rw [List.append_nil]
    refine ⟨?_, ?_, ?_, hj.trans h.joint₁⟩
    · rw [hsum, h.sum]
      simp [total, words]
    · rw [htr, h.truncated]
      simp
    · rw [heven rfl]
      exact h.last
  · have hlen : (x ++ c).length % 2 = c.length % 2 := by
      rw [List.length_append]
      omega
    refine ⟨?_, ?_, ?_, hj.trans h.joint₁⟩
    · rw [hsum, h.sum, total_append (by omega)]
      omega
    · rw [htr, h.truncated, hlen]
      simp [hp]
    · rw [hlen]
      intro hc
      have hne : c ≠ [] := by
        rintro rfl
        simp at hc
      rw [List.getLast?_append_of_ne_nil _ hne]
      exact hodd hc

/-- What the sum is off by after a word was completed while `joint[1]` was not zero. -/
def slip (joint₁ b : UInt8) : ℕ := (256 * b.toNat + 2 ^ 16 - 256 * joint₁.toNat) % 2 ^ 16 + 2 ^ 32 - 256 * b.toNat

/-- **A chunk that goes on within a word.** -/
theorem Tracks.join (h : Tracks ctx x extra joint₁) (hx : x.length % 2 = 1) {b : UInt8} {c : List UInt8}
    (hlt : c.length / 2 < 2 ^ 32) :
    ∃ ctx', update ctx (b :: c) = .ok ctx' ∧ Tracks ctx' (x ++ b :: c) (extra + slip joint₁ b) 0 := by
  have hb := b.toNat_lt
  have hj := joint₁.toNat_lt
  obtain ⟨start, hstart⟩ : ∃ s : Ctx, s = { ctx.add ((word ctx.joint₀ b + 2 ^ 16 - word ctx.joint₀ ctx.joint₁) % 2 ^ 16) with
    truncated := false, joint₀ := 0, joint₁ := 0 } := ⟨_, rfl⟩
  have hs : start.sum < 2 ^ 32 := by
    rw [hstart]
    exact Nat.mod_lt _ (by decide)
  obtain ⟨ctx', hok, hsum, htr, hodd, -, hj'⟩ := updateAligned_spec hlt hs
  have hupdate : update ctx (b :: c) = updateAligned start c := by
    unfold update
    rw [h.truncated, hstart]
    simp [hx]
  -- what is added takes back the half word and adds the joined one
  have hnext : (word ctx.joint₀ b + 2 ^ 16 - word ctx.joint₀ ctx.joint₁) % 2 ^ 16 =
      (256 * b.toNat + 2 ^ 16 - 256 * joint₁.toNat) % 2 ^ 16 := by
    rw [h.joint₁]
    unfold word
    congr 1
    omega
  have hlen : (x ++ b :: c).length % 2 = c.length % 2 := by
    rw [List.length_append, List.length_cons]
    omega
  refine ⟨ctx', hupdate.trans hok, ?_, ?_, ?_, ?_⟩
  · rw [hsum, hstart, total_append_odd hx]
    simp only [Ctx.add]
    rw [hnext, h.sum]
    unfold slip
    omega
  · rw [htr, hstart, hlen]
    simp
  · rw [hlen]
    intro hc
    have hne : c ≠ [] := by
      rintro rfl
      simp at hc
    rw [List.getLast?_append_of_ne_nil _ (List.cons_ne_nil b c), List.getLast?_cons_of_ne_nil hne]
    exact hodd hc
  · rw [hj', hstart]

/-! ## All the chunks -/

/-- In no chunk are there more words than the loop counts. -/
def Counts : ℕ → List (List UInt8) → Prop
  | _, [] => True
  | length, chunk :: chunks => (chunk.length - length % 2) / 2 < 2 ^ 32 ∧ Counts (length + chunk.length) chunks

/-- No chunk goes on within a word. -/
def NoJoin : ℕ → List (List UInt8) → Prop
  | _, [] => True
  | length, chunk :: chunks => (length % 2 = 1 → chunk = []) ∧ NoJoin (length + chunk.length) chunks

theorem updates_cons (ctx : Ctx) (chunk : List UInt8) (chunks : List (List UInt8)) :
    updates ctx (chunk :: chunks) = update ctx chunk >>= fun ctx => updates ctx chunks := List.foldlM_cons

theorem slip_zero (b : UInt8) : slip 0 b = 2 ^ 32 := by
  have hb := b.toNat_lt
  unfold slip
  rw [UInt8.toNat_zero]
  omega

/-- Where `joint[1]` is zero, a completed word counts for what it is. -/
theorem Tracks.join_zero (h : Tracks ctx x extra 0) {c : List UInt8} (hlt : (c.length - x.length % 2) / 2 < 2 ^ 32) :
    ∃ ctx', update ctx c = .ok ctx' ∧ Tracks ctx' (x ++ c) extra 0 := by
  cases c with
  | nil => exact h.aligned (fun _ => rfl) (by decide)
  | cons b c =>
    rw [List.length_cons] at hlt
    rcases Nat.mod_two_eq_zero_or_one x.length with hx | hx
    · rw [hx] at hlt
      exact h.aligned (by omega) hlt
    · rw [hx] at hlt
      obtain ⟨ctx', hok, hctx⟩ := h.join hx (b := b) (c := c) (by omega)
      rw [slip_zero] at hctx
      refine ⟨ctx', hok, ?_, hctx.truncated, hctx.last, hctx.joint₁⟩
      rw [hctx.sum, ← Nat.add_assoc, Nat.add_mod_right]

theorem Tracks.update_error (h : Tracks ctx x extra joint₁) {c : List UInt8}
    (hge : ¬ (c.length - x.length % 2) / 2 < 2 ^ 32) : update ctx c = .error .pastEnd := by
  cases c with
  | nil => exact absurd (by simp) hge
  | cons b c =>
    rw [List.length_cons] at hge
    unfold update
    rw [h.truncated]
    by_cases hx : x.length % 2 = 1
    · simp only [hx, decide_true]
      exact updateAligned_error _ (by omega)
    · simp only [hx, decide_false]
      apply updateAligned_error
      rw [List.length_cons]
      omega

/-- The sum is right to the end while nothing is joined to a `joint[1]` that is not zero. -/
theorem Tracks.updates (h : Tracks ctx x extra joint₁) {chunks : List (List UInt8)} (hc : Counts x.length chunks)
    (hj : joint₁ = 0 ∨ NoJoin x.length chunks) :
    ∃ ctx', Inet.updates ctx chunks = .ok ctx' ∧ Tracks ctx' (x ++ chunks.flatten) extra joint₁ := by
  induction chunks generalizing ctx x with
  | nil =>
    refine ⟨ctx, rfl, ?_⟩
    rw [List.flatten_nil, List.append_nil]
    exact h
  | cons c chunks ih =>
    obtain ⟨hcount, hc⟩ := hc
    obtain ⟨mid, hok, hmid⟩ : ∃ mid, update ctx c = .ok mid ∧ Tracks mid (x ++ c) extra joint₁ := by
      rcases hj with rfl | ⟨hx, -⟩
      · exact h.join_zero hcount
      · by_cases hp : x.length % 2 = 1
        · exact h.aligned hx (by rw [hx hp]; decide)
        · exact h.aligned hx (by omega)
    rw [← List.length_append] at hc
    obtain ⟨ctx', hok', hctx⟩ := ih hmid hc (hj.imp id fun hn => by rw [List.length_append]; exact hn.2)
    refine ⟨ctx', ?_, ?_⟩
    · rw [updates_cons, hok]
      exact hok'
    · rw [List.flatten_cons, ← List.append_assoc]
      exact hctx

/-- The sum is off for good once something was. -/
theorem Tracks.updates_slip (h : Tracks ctx x extra joint₁) {chunks : List (List UInt8)} (hc : Counts x.length chunks)
    (hj : ¬ NoJoin x.length chunks) : ∃ b ctx', Inet.updates ctx chunks = .ok ctx' ∧
      Tracks ctx' (x ++ chunks.flatten) (extra + slip joint₁ b) 0 ∧ 256 * b.toNat ≤ total (x ++ chunks.flatten) := by
  induction chunks generalizing ctx x with
  | nil => exact absurd trivial hj
  | cons c chunks ih =>
    obtain ⟨hcount, hc⟩ := hc
    rw [← List.length_append] at hc
    by_cases hx : x.length % 2 = 1 → c = []
    · obtain ⟨mid, hok, hmid⟩ := h.aligned hx (by
        by_cases hp : x.length % 2 = 1
        · rw [hx hp]
          decide
        · omega)
      have hj' : ¬ NoJoin (x ++ c).length chunks := fun hn => hj ⟨hx, by rw [← List.length_append]; exact hn⟩
      obtain ⟨b, ctx', hok', hctx, hle⟩ := ih hmid hc hj'
      rw [List.append_assoc] at hctx hle
      refine ⟨b, ctx', ?_, hctx, hle⟩
      rw [updates_cons, hok]
      exact hok'
    · obtain ⟨hodd, hne⟩ := not_forall.1 hx
      obtain ⟨b, c, rfl⟩ := List.exists_cons_of_ne_nil hne
      rw [hodd, List.length_cons, Nat.add_sub_cancel] at hcount
      obtain ⟨mid, hok, hmid⟩ := h.join hodd (b := b) hcount
      obtain ⟨ctx', hok', hctx⟩ := hmid.updates hc (.inl rfl)
      refine ⟨b, ctx', ?_, ?_, ?_⟩
      · rw [updates_cons, hok]
        exact hok'
      · rw [List.append_assoc] at hctx
        exact hctx
      · rw [List.flatten_cons, List.cons_append, total_append_odd hodd]
        omega

theorem Tracks.updates_error (h : Tracks ctx x extra joint₁) {chunks : List (List UInt8)}
    (hc : ¬ Counts x.length chunks) : Inet.updates ctx chunks = .error .pastEnd := by
  induction chunks generalizing ctx x extra joint₁ with
  | nil => exact absurd trivial hc
  | cons c chunks ih =>
    rw [updates_cons]
    by_cases hcount : (c.length - x.length % 2) / 2 < 2 ^ 32
    · have hc' : ¬ Counts (x ++ c).length chunks := fun hn => hc ⟨hcount, by rw [← List.length_append]; exact hn⟩
      obtain ⟨mid, extra', j', hok, hmid⟩ : ∃ mid extra' j', update ctx c = .ok mid ∧ Tracks mid (x ++ c) extra' j' := by
        by_cases hx : x.length % 2 = 1 → c = []
        · obtain ⟨mid, hok, hmid⟩ := h.aligned hx (by
            by_cases hp : x.length % 2 = 1
            · rw [hx hp]
              decide
            · omega)
          exact ⟨mid, _, _, hok, hmid⟩
        · obtain ⟨hodd, hne⟩ := not_forall.1 hx
          obtain ⟨b, c, rfl⟩ := List.exists_cons_of_ne_nil hne
          rw [hodd, List.length_cons, Nat.add_sub_cancel] at hcount
          obtain ⟨mid, hok, hmid⟩ := h.join hodd (b := b) hcount
          exact ⟨mid, _, _, hok, hmid⟩
      rw [hok]
      exact ih hmid hc'
    · rw [h.update_error hcount]
      rfl

theorem Tracks.getChecksum (h : Tracks ctx x extra joint₁) :
    Inet.getChecksum ctx = 65535 - ones ((total x + extra) % 2 ^ 32) := by
  unfold Inet.getChecksum
  rw [foldSum_eq, h.sum]

/-- The sum after a slip, which may carry out of the word or out of the accumulator. -/
theorem add_slip {t : ℕ} {j b : UInt8} (ht : t < 2 ^ 32) (hb : 256 * b.toNat ≤ t) :
    (t + slip j b) % 2 ^ 32 + 256 * j.toNat = t ∨ (t + slip j b) % 2 ^ 32 + 256 * j.toNat = t + 65536 ∨
      (t + slip j b) % 2 ^ 32 + 256 * j.toNat + 2 ^ 32 = t + 65536 := by
  have hj := j.toNat_lt
  have hblt := b.toNat_lt
  unfold slip
  rcases Nat.lt_or_ge b.toNat j.toNat with hlt | hge
  · have h : (256 * b.toNat + 2 ^ 16 - 256 * j.toNat) % 2 ^ 16 + 256 * j.toNat = 256 * b.toNat + 65536 := by omega
    omega
  · have h : (256 * b.toNat + 2 ^ 16 - 256 * j.toNat) % 2 ^ 16 + 256 * j.toNat = 256 * b.toNat := by omega
    omega

theorem ones_slip {t : ℕ} {j b : UInt8} (hj : j ≠ 0) (ht : t < 2 ^ 32) (hb : 256 * b.toNat ≤ t) :
    ones ((t + slip j b) % 2 ^ 32) ≠ ones t := by
  have hpos : 0 < j.toNat := Nat.pos_of_ne_zero fun h => hj (UInt8.toNat_inj.1 h)
  have hlt := j.toNat_lt
  have hsum := add_slip ht hb (j := j)
  generalize (t + slip j b) % 2 ^ 32 = s at hsum
  unfold ones
  rcases hsum with hsum | hsum | hsum
  · split_ifs <;> omega
  · split_ifs <;> omega
  · split_ifs <;> omega

/-- **The checksum of a message in chunks.** -/
theorem correct_iff (joint₀ joint₁ : UInt8) (chunks : List (List UInt8)) (hfit : total chunks.flatten < 2 ^ 32) :
    (∃ ctx, updates (Ctx.new joint₀ joint₁) chunks = .ok ctx ∧ getChecksum ctx = rfc1071 chunks.flatten) ↔
      Counts 0 chunks ∧ (joint₁ = 0 ∨ NoJoin 0 chunks) := by
  have hnew := tracks_new joint₀ joint₁
  rw [rfc1071_eq]
  constructor
  · rintro ⟨ctx, hok, heq⟩
    by_contra hcond
    by_cases hc : Counts 0 chunks
    · obtain ⟨hj, hn⟩ := not_or.1 fun h => hcond ⟨hc, h⟩
      obtain ⟨b, ctx', hok', hctx, hle⟩ := hnew.updates_slip hc hn
      obtain rfl : ctx' = ctx := Except.ok.inj (hok'.symm.trans hok)
      rw [hctx.getChecksum, Nat.zero_add, List.nil_append] at heq
      have hne := ones_slip hj hfit hle
      have h1 := ones_le (total chunks.flatten)
      have h2 := ones_le ((total chunks.flatten + slip joint₁ b) % 2 ^ 32)
      omega
    · rw [hnew.updates_error hc] at hok
      cases hok
  · rintro ⟨hc, hj⟩
    obtain ⟨ctx, hok, hctx⟩ := hnew.updates hc hj
    refine ⟨ctx, hok, ?_⟩
    rw [hctx.getChecksum, List.nil_append, Nat.add_zero, Nat.mod_eq_of_lt hfit]

theorem correct_iff_two : (∃ ctx, updates (Ctx.new 0 0) [[1], [2, 3]] = .ok ctx ∧
    getChecksum ctx = rfc1071 [1, 2, 3]) ↔ Counts 0 [[1], [2, 3]] ∧ ((0 : UInt8) = 0 ∨ NoJoin 0 [[1], [2, 3]]) :=
  correct_iff 0 0 [[1], [2, 3]] (by decide)

theorem getChecksum_small {ctx : Ctx} (h : ctx.sum < 65536) : getChecksum ctx = 65535 - ctx.sum := by
  unfold getChecksum
  rw [foldSum_eq]
  unfold ones
  split_ifs <;> omega

/-- One byte and another, after a `joint[1]` of one: the word that was added is not the word taken
out. -/
theorem joins_garbage : total [1, 2] < 2 ^ 32 ∧
    ¬ ∃ ctx, updates (Ctx.new 0 1) [[1], [2]] = .ok ctx ∧ getChecksum ctx = rfc1071 [1, 2] := by
  refine ⟨by decide, ?_⟩
  rintro ⟨ctx, hok, heq⟩
  obtain rfl := Except.ok.inj ((show updates (Ctx.new 0 1) [[1], [2]] =
    .ok { sum := 257, truncated := false, joint₀ := 0, joint₁ := 0 } from rfl).symm.trans hok)
  rw [getChecksum_small (by decide)] at heq
  exact absurd heq (by decide)

end Libtarp.Inet
