import Libtarp.Checksum.Fletcher
import Mathlib.Data.Nat.ModEq
import Mathlib.Tactic.Linarith
import Mathlib.Tactic.Ring

/-!
# The Fletcher checksum of a message in chunks

Words are added one after the other. A chunk that goes on within a word takes the part of the
word that was added back, and adds it again with more bytes in it; the sums are reduced
then, and whenever `MAX_ADD` words were added since. `Plan` is what was added by then: the words
before the last reduction, and those after it.

* `Plan.Fits`: what the second sum comes to fits an accumulator.
* `Adds`: the sums of a context are those of a plan, as long as everything fitted.
* `correct_iff_fits`: when no accumulator wraps, and the checksum is that of the message.
-/

namespace Libtarp.Fletcher

open Lib

variable (k : Kind)

/-! ## Sums -/

theorem sum1_append (ws vs : List ℕ) : sum1 (ws ++ vs) = sum1 ws + sum1 vs := List.sum_append

theorem sum2_append (ws vs : List ℕ) : sum2 (ws ++ vs) = sum2 ws + vs.length * sum1 ws + sum2 vs := by
  induction ws with
  | nil => simp [sum1, sum2]
  | cons w ws ih =>
    simp only [List.cons_append, sum2, ih, List.length_append, sum1, List.sum_cons]
    ring

@[simp] theorem sum1_nil : sum1 [] = 0 := rfl

@[simp] theorem sum2_nil : sum2 [] = 0 := rfl

@[simp] theorem sum1_singleton (w : ℕ) : sum1 [w] = w := List.sum_singleton

@[simp] theorem sum2_singleton (w : ℕ) : sum2 [w] = w := by simp [sum2]

theorem size_pos : 0 < k.size := by cases k <;> decide

theorem maxAdd_eq : Kind.fletcher16.maxAdd = 5803 ∧ Kind.fletcher32.maxAdd = 23726747 ∧
    Kind.fletcher64.maxAdd = 92681 := by decide +kernel

theorem maxAdd_pos : 0 < k.maxAdd := by
  obtain ⟨h16, h32, h64⟩ := maxAdd_eq
  cases k <;> omega

theorem modulus_pos : 0 < k.modulus := by cases k <;> decide

theorem modulus_lt : 2 * k.modulus < 2 ^ k.accBits := by cases k <;> decide

/-! ## What is added -/

inductive Addition
  | new (w : ℕ)
  /-- in the place of the word added last -/
  | instead (w : ℕ)

structure Plan where
  before : List ℕ
  period : List ℕ

def Plan.words (p : Plan) : List ℕ := p.before ++ p.period

def Plan.next (p : Plan) : Addition → Plan
  | .new w => if p.period.length = k.maxAdd then ⟨p.words, [w]⟩ else ⟨p.before, p.period ++ [w]⟩
  | .instead w => ⟨p.before ++ p.period.dropLast, [w]⟩

/-- What the sums come to, when those at the last reduction are reduced. -/
def Plan.total1 (p : Plan) : ℕ := sum1 p.before % k.modulus + sum1 p.period

def Plan.total2 (p : Plan) : ℕ :=
  sum2 p.before % k.modulus + p.period.length * (sum1 p.before % k.modulus) + sum2 p.period

def Plan.Fits (p : Plan) : Prop := p.total2 k < 2 ^ k.accBits

/-- The second sum fits after every addition. -/
def AllFit : Plan → List Addition → Prop
  | _, [] => True
  | p, a :: as => (p.next k a).Fits k ∧ AllFit (p.next k a) as

/-- What a chunk adds, after a part of a word. -/
def additions (part chunk : List UInt8) : List Addition :=
  if chunk = [] then []
  else
    match words k (part ++ chunk) with
    | [] => []
    | w :: ws => (if part = [] then .new w else .instead w) :: ws.map .new

/-- What the chunks of a message add. -/
def allAdditions : List UInt8 → List (List UInt8) → List Addition
  | _, [] => []
  | part, chunk :: chunks => additions k part chunk ++ allAdditions (rest k.size (part ++ chunk)) chunks

theorem total1_mod (p : Plan) : p.total1 k % k.modulus = sum1 p.words % k.modulus := by
  unfold Plan.total1 Plan.words
  rw [sum1_append, Nat.mod_add_mod]

theorem total2_mod (p : Plan) : p.total2 k % k.modulus = sum2 p.words % k.modulus := by
  unfold Plan.total2 Plan.words
  rw [sum2_append]
  exact ((Nat.mod_modEq _ _).add ((Nat.ModEq.refl _).mul (Nat.mod_modEq _ _))).add (Nat.ModEq.refl _)

theorem allFit_append (p : Plan) (as bs : List Addition) :
    AllFit k p (as ++ bs) ↔ AllFit k p as ∧ AllFit k (as.foldl (Plan.next k) p) bs := by
  induction as generalizing p with
  | nil => simp [AllFit]
  | cons a as ih => simp only [List.cons_append, AllFit, ih, List.foldl_cons, and_assoc]

theorem next_new_full {p : Plan} (h : p.period.length = k.maxAdd) (w : ℕ) : p.next k (.new w) = ⟨p.words, [w]⟩ :=
  if_pos h

theorem next_new {p : Plan} (h : p.period.length ≠ k.maxAdd) (w : ℕ) :
    p.next k (.new w) = ⟨p.before, p.period ++ [w]⟩ := if_neg h

theorem words_next_new (p : Plan) (w : ℕ) : (p.next k (.new w)).words = p.words ++ [w] := by
  unfold Plan.next Plan.words
  split_ifs <;> simp

theorem words_next_instead {p : Plan} {init : List ℕ} {old : ℕ} (h : p.period = init ++ [old]) (w : ℕ) :
    (p.next k (.instead w)).words = p.before ++ init ++ [w] := by
  unfold Plan.next Plan.words
  rw [h, List.dropLast_concat]

theorem words_news (p : Plan) (ws : List ℕ) : ((ws.map .new).foldl (Plan.next k) p).words = p.words ++ ws := by
  induction ws generalizing p with
  | nil => simp
  | cons w ws ih => rw [List.map_cons, List.foldl_cons, ih, words_next_new, List.append_assoc, List.singleton_append]

/-! ## One word -/

/-- The context has the sums of the plan, unless `ok` fails. -/
structure Adds (ctx : Ctx) (p : Plan) (ok : Prop) : Prop where
  cnt : ctx.cnt = p.period.length
  wrapped : ctx.wrapped = false ↔ ok
  sum1 : ok → ctx.sum1 = p.total1 k
  sum2 : ok → ctx.sum2 = p.total2 k

variable {k} {ctx : Ctx} {p : Plan} {ok : Prop}

theorem Adds.new (h : Adds k ctx p ok) (w : ℕ) :
    Adds k (update k ctx w) (p.next k (.new w)) (ok ∧ (p.next k (.new w)).Fits k) := by
  -- the sums that `w` is added to, after a reduction if one is due
  obtain ⟨s₁, hs₁⟩ : ∃ s, s = if ctx.cnt = k.maxAdd then ctx.sum1 % k.modulus else ctx.sum1 := ⟨_, rfl⟩
  obtain ⟨s₂, hs₂⟩ : ∃ s, s = if ctx.cnt = k.maxAdd then ctx.sum2 % k.modulus else ctx.sum2 := ⟨_, rfl⟩
  have hctx : update k ctx w =
      { ctx with
        cnt := (if ctx.cnt = k.maxAdd then 0 else ctx.cnt) + 1
        sum1 := (s₁ + w) % 2 ^ k.accBits
        sum2 := (s₂ + (s₁ + w) % 2 ^ k.accBits) % 2 ^ k.accBits
        wrapped := ctx.wrapped || 2 ^ k.accBits ≤ s₁ + w || 2 ^ k.accBits ≤ s₂ + (s₁ + w) % 2 ^ k.accBits } := by
    unfold update
    rw [hs₁, hs₂]
    split_ifs <;> rfl
  have htotal : ok → s₁ + w = (p.next k (.new w)).total1 k ∧ s₂ + (s₁ + w) = (p.next k (.new w)).total2 k := by
    intro hok
    have h1 := h.sum1 hok
    have h2 := h.sum2 hok
    have h1m := total1_mod k p
    have h2m := total2_mod k p
    rw [hs₁, hs₂, h1, h2, h.cnt]
    by_cases hfull : p.period.length = k.maxAdd
    · rw [if_pos hfull, if_pos hfull, next_new_full k hfull, h1m, h2m]
      simp only [Plan.total1, Plan.total2, sum1_singleton, sum2_singleton, List.length_singleton, one_mul, true_and]
      rw [Nat.add_assoc]
    · rw [if_neg hfull, if_neg hfull, next_new k hfull]
      simp only [Plan.total1, Plan.total2, sum1_append, sum2_append, sum1_singleton, sum2_singleton, List.length_append,
        List.length_singleton]
      constructor <;> ring
  have hfits : ok → ((p.next k (.new w)).Fits k ↔
      ¬(2 ^ k.accBits ≤ s₁ + w ∨ 2 ^ k.accBits ≤ s₂ + (s₁ + w) % 2 ^ k.accBits)) := by
    intro hok
    unfold Plan.Fits
    rw [← (htotal hok).2]
    by_cases hlt : s₁ + w < 2 ^ k.accBits
    · rw [Nat.mod_eq_of_lt hlt]
      omega
    · omega
  rw [hctx]
  refine ⟨?_, ?_, ?_, ?_⟩
  · rw [h.cnt]
    unfold Plan.next
    split_ifs <;> simp
  · simp only [Bool.or_eq_false_iff, decide_eq_false_iff_not]
    rw [and_assoc, ← not_or, h.wrapped]
    constructor
    · rintro ⟨hok, hno⟩
      exact ⟨hok, (hfits hok).2 hno⟩
    · rintro ⟨hok, hf⟩
      exact ⟨hok, (hfits hok).1 hf⟩
  · rintro ⟨hok, hf⟩
    have hno := (hfits hok).1 hf
    rw [Nat.mod_eq_of_lt (by omega)]
    exact (htotal hok).1
  · rintro ⟨hok, hf⟩
    have hno := (hfits hok).1 hf
    rw [Nat.mod_eq_of_lt (show s₂ + (s₁ + w) % 2 ^ k.accBits < 2 ^ k.accBits by omega), Nat.mod_eq_of_lt (by omega)]
    exact (htotal hok).2

theorem reduce_eq (sum : ℕ) : reduce k sum = sum % k.modulus := by
  have hpos := modulus_pos k
  unfold reduce
  simp only [Nat.shiftLeft_eq, pow_one]
  split_ifs with h₁ h₂
  · rw [Nat.mod_eq_sub_mod h₁, Nat.mod_eq_of_lt (by omega)]
  · rfl
  · rw [Nat.mod_eq_of_lt (by omega)]

/-- A difference, where the modulus is added if need be. -/
theorem difference_eq {r v : ℕ} {c : Prop} [Decidable c] (hr : r < k.modulus) (hv : v ≤ k.modulus)
    (hc : c → v ≤ r) (hc' : ¬c → r ≤ v) :
    (if c then r - v else
      let s := (r + k.modulus - v) % 2 ^ k.accBits
      if s ≥ k.modulus then s - k.modulus else s) = (r + (k.modulus - v)) % k.modulus := by
  have hlt := modulus_lt k
  rw [← Nat.add_sub_assoc hv]
  by_cases h₁ : c
  · have hle := hc h₁
    rw [if_pos h₁, show r + k.modulus - v = r - v + k.modulus by omega, Nat.add_mod_right, Nat.mod_eq_of_lt (by omega)]
  · have hle := hc' h₁
    rw [if_neg h₁, Nat.mod_eq_of_lt (show r + k.modulus - v < 2 ^ k.accBits by omega)]
    dsimp only
    split_ifs with h₂
    · rw [Nat.mod_eq_sub_mod h₂, Nat.mod_eq_of_lt (by omega)]
    · rw [Nat.mod_eq_of_lt (by omega)]

theorem difference_mod {x v r : ℕ} (hv : v ≤ k.modulus) (hr : r % k.modulus = (x + v) % k.modulus) :
    (r % k.modulus + (k.modulus - v)) % k.modulus = x % k.modulus := by
  rw [hr, Nat.mod_add_mod, Nat.add_assoc, Nat.add_sub_cancel' hv, Nat.add_mod_right]

/-- **The word added last, taken back.** -/
theorem Adds.subtract {init : List ℕ} {old : ℕ} (h : Adds k ctx p ok) (hp : p.period = init ++ [old])
    (hold : old ≤ k.modulus) : Adds k (subtract k ctx old) ⟨p.before ++ init, []⟩ ok := by
  have hpos := modulus_pos k
  have hr₁ : ctx.sum1 % k.modulus < k.modulus := Nat.mod_lt _ hpos
  have hr₂ : ctx.sum2 % k.modulus < k.modulus := Nat.mod_lt _ hpos
  have hwords : p.words = p.before ++ init ++ [old] := by
    unfold Plan.words
    rw [hp, List.append_assoc]
  have hsum1 : (Fletcher.subtract k ctx old).sum1 = (ctx.sum1 % k.modulus + (k.modulus - old)) % k.modulus := by
    unfold Fletcher.subtract
    simp only [reduce_eq]
    exact difference_eq hr₁ hold (fun hc => Nat.le_of_lt hc) (fun hc => Nat.le_of_not_lt hc)
  have hsum2 : (Fletcher.subtract k ctx old).sum2 =
      (ctx.sum2 % k.modulus + (k.modulus - ctx.sum1 % k.modulus)) % k.modulus := by
    unfold Fletcher.subtract
    simp only [reduce_eq]
    exact difference_eq hr₂ hr₁.le (fun hc => hc) (fun hc => Nat.le_of_not_le hc)
  refine ⟨rfl, h.wrapped, ?_, ?_⟩
  · intro hok
    have hm := total1_mod k p
    rw [hwords, sum1_append, ← h.sum1 hok] at hm
    rw [hsum1, difference_mod hold (x := Fletcher.sum1 (p.before ++ init)) (by simpa using hm)]
    simp [Plan.total1]
  · intro hok
    have hm₁ := total1_mod k p
    have hm₂ := total2_mod k p
    rw [hwords, sum1_append, ← h.sum1 hok] at hm₁
    rw [hwords, sum2_append, ← h.sum2 hok] at hm₂
    rw [hsum2, difference_mod hr₁.le (x := Fletcher.sum2 (p.before ++ init))]
    · simp [Plan.total2]
    · rw [hm₂, Nat.add_mod_mod]
      have hadd := Nat.ModEq.add_left (Fletcher.sum2 (p.before ++ init)) hm₁
      rw [show _ % _ = _ from hadd]
      simp [Nat.add_assoc]

theorem Adds.instead {init : List ℕ} {old : ℕ} (h : Adds k ctx p ok) (hp : p.period = init ++ [old])
    (hold : old ≤ k.modulus) (w : ℕ) :
    Adds k (update k (Fletcher.subtract k ctx old) w) (p.next k (.instead w))
      (ok ∧ (p.next k (.instead w)).Fits k) := by
  have hnext : p.next k (.instead w) = Plan.next k ⟨p.before ++ init, []⟩ (.new w) := by
    rw [next_new k (show ([] : List ℕ).length ≠ k.maxAdd from (maxAdd_pos k).ne)]
    unfold Plan.next
    rw [hp, List.dropLast_concat]
    rfl
  rw [hnext]
  exact (h.subtract hp hold).new w

theorem Adds.news (h : Adds k ctx p ok) (ws : List ℕ) :
    Adds k (ws.foldl (update k) ctx) ((ws.map .new).foldl (Plan.next k) p) (ok ∧ AllFit k p (ws.map .new)) := by
  induction ws generalizing ctx p ok with
  | nil => simpa [AllFit] using h
  | cons w ws ih =>
    have := ih (h.new w)
    rwa [and_assoc] at this

theorem period_next_ne_nil (p : Plan) (a : Addition) : (p.next k a).period ≠ [] := by
  unfold Plan.next
  cases a with
  | new w => dsimp only; split_ifs <;> simp
  | instead w => simp

/-! ## One chunk -/

@[simp] theorem update_joint (ctx : Ctx) (w : ℕ) : (update k ctx w).joint = ctx.joint := by
  unfold update
  split_ifs <;> rfl

@[simp] theorem update_deficit (ctx : Ctx) (w : ℕ) : (update k ctx w).deficit = ctx.deficit := by
  unfold update
  split_ifs <;> rfl

theorem foldl_update_frame (ws : List ℕ) (ctx : Ctx) :
    (ws.foldl (update k) ctx).joint = ctx.joint ∧ (ws.foldl (update k) ctx).deficit = ctx.deficit := by
  induction ws generalizing ctx with
  | nil => exact ⟨rfl, rfl⟩
  | cons w ws ih => simpa using ih (update k ctx w)

theorem updateWords_eq (ctx : Ctx) (buff : List UInt8) :
    updateWords k (buff.length / k.size) ctx buff =
      (((blocks k.size buff).map word).foldl (update k) ctx, rest k.size buff) := by
  have hpos := size_pos k
  refine blocks_induction hpos (P := fun buff => ∀ ctx, updateWords k (buff.length / k.size) ctx buff =
    (((blocks k.size buff).map word).foldl (update k) ctx, rest k.size buff)) ?_ ?_ buff ctx
  · intro buff h ctx
    rw [Nat.div_eq_of_lt h, blocks_short h, rest_short h]
    rfl
  · intro b buff hb ih ctx
    rw [List.length_append, hb, Nat.add_div_left _ hpos, updateWords, blocks_block hpos hb, rest_block hpos hb, ← hb,
      List.take_left, List.drop_left, hb, ih]
    rfl

theorem word_le {bytes : List UInt8} (h : bytes.length ≤ k.size) : word bytes ≤ k.modulus := by
  have hlt : word bytes < 256 ^ bytes.length := by
    have := Nat.ofDigits_lt_base_pow_length (b := 256) (l := bytes.map UInt8.toNat) (by decide) (by
      intro x hx
      obtain ⟨b, -, rfl⟩ := List.mem_map.1 hx
      exact b.toNat_lt)
    rwa [List.length_map] at this
  have hle : 256 ^ bytes.length ≤ 256 ^ k.size := Nat.pow_le_pow_right (by decide) h
  have hpow : 256 ^ k.size = k.modulus + 1 := by cases k <;> decide
  omega

theorem words_append_aligned {x : List UInt8} (hx : rest k.size x = []) (y : List UInt8) :
    words k (x ++ y) = words k x ++ words k y := by
  unfold words
  rw [blocks_append (size_pos k), rest_append (size_pos k), hx, List.nil_append, List.map_append, if_pos rfl,
    List.append_nil, List.append_assoc]

/-- The context after the message `x`. -/
structure Tracks (k : Kind) (ctx : Ctx) (x : List UInt8) (p : Plan) (ok : Prop) : Prop where
  adds : Adds k ctx p ok
  size : ctx.joint.length = k.size
  joint : ctx.joint.take (rest k.size x).length = rest k.size x
  deficit : ctx.deficit = if rest k.size x = [] then 0 else k.size - (rest k.size x).length
  words : p.words = words k x
  last : rest k.size x ≠ [] → p.period ≠ []

variable {x : List UInt8}

theorem updateAligned_tracks (h : Tracks k ctx x p ok) (hx : rest k.size x = []) (buff : List UInt8) :
    Tracks k (updateAligned k ctx buff) (x ++ buff) (((words k buff).map .new).foldl (Plan.next k) p)
      (ok ∧ AllFit k p ((words k buff).map .new)) := by
  have hrest : rest k.size (x ++ buff) = rest k.size buff := by rw [rest_append (size_pos k), hx, List.nil_append]
  have hwords : (((words k buff).map .new).foldl (Plan.next k) p).words = words k (x ++ buff) := by
    rw [words_news, h.words, words_append_aligned hx]
  have hlt := rest_length_lt (size_pos k) buff
  obtain ⟨hjoint, hdef⟩ := foldl_update_frame (k := k) ((blocks k.size buff).map word) ctx
  have hadds := h.adds.news (words k buff)
  unfold updateAligned
  rw [updateWords_eq]
  dsimp only
  by_cases hr : rest k.size buff = []
  · -- nothing is left over: all words are whole
    rw [if_pos (by rw [hr]; rfl)]
    have hw : words k buff = (blocks k.size buff).map word := by
      unfold words
      rw [if_pos hr, List.append_nil]
    rw [hw] at hadds hwords ⊢
    refine ⟨hadds, hjoint ▸ h.size, ?_, ?_, hwords, ?_⟩
    · rw [hrest, hr]
      rfl
    · rw [hdef, h.deficit, hrest, if_pos hx, if_pos hr]
    · rw [hrest]
      exact fun hne => absurd hr hne
  · rw [if_neg fun hl => hr (List.eq_nil_of_length_eq_zero hl)]
    have hw : words k buff = (blocks k.size buff).map word ++ [word (rest k.size buff)] := by
      unfold words
      rw [if_neg hr]
    -- the last word is padded, and what it is made of is stored for the next update
    have hfold : (words k buff).foldl (update k) ctx =
        update k (((blocks k.size buff).map word).foldl (update k) ctx) (word (rest k.size buff)) := by
      rw [hw, List.foldl_append]
      rfl
    rw [hfold] at hadds
    refine ⟨⟨hadds.cnt, hadds.wrapped, hadds.sum1, hadds.sum2⟩, ?_, ?_, ?_, hwords, ?_⟩
    · have := h.size
      simp only [store, update_joint, hjoint, List.take_zero, List.nil_append, Nat.zero_add, List.length_append,
        List.length_drop]
      omega
    · rw [hrest]
      simp [store]
    · rw [hrest, if_neg hr]
    · intro _
      rw [hw, List.map_append, List.foldl_append]
      simp only [List.map_cons, List.map_nil, List.foldl_cons, List.foldl_nil]
      exact period_next_ne_nil _ _

/-- The word added last is the one that the rest of the message begins. -/
theorem Tracks.split (h : Tracks k ctx x p ok) (hx : rest k.size x ≠ []) :
    ∃ init, p.period = init ++ [word (rest k.size x)] ∧ p.before ++ init = (blocks k.size x).map word := by
  obtain ⟨init, old, hp⟩ := (List.eq_nil_or_concat p.period).resolve_left (h.last hx)
  rw [List.concat_eq_append] at hp
  have hw := h.words
  unfold Plan.words Fletcher.words at hw
  rw [hp, if_neg hx, ← List.append_assoc] at hw
  obtain ⟨hinit, hold⟩ := List.append_inj' hw rfl
  obtain rfl := List.singleton_inj.1 hold
  exact ⟨init, hp, hinit⟩

theorem store_length {joint : List UInt8} {l : ℕ} {y : List UInt8} (h : l + y.length ≤ joint.length) :
    (store joint l y).length = joint.length := by
  unfold store
  simp only [List.length_append, List.length_take, List.length_drop]
  omega

theorem store_take {joint y : List UInt8} (l : ℕ) (h : l ≤ joint.length) :
    (store joint l y).take (l + y.length) = joint.take l ++ y := by
  unfold store
  rw [List.take_append_of_le_length, List.take_of_length_le] <;>
    simp only [List.length_append, List.length_take] <;> omega

theorem words_short {x : List UInt8} (hx : x ≠ []) (h : x.length ≤ k.size) : words k x = [word x] := by
  have hpos := size_pos k
  unfold words
  rcases Nat.lt_or_eq_of_le h with hlt | heq
  · rw [blocks_short hlt, rest_short hlt, if_neg hx]
    rfl
  · rw [blocks_exact hpos heq, rest_exact hpos heq, if_pos rfl]
    rfl

/-- **More bytes of a word.** -/
theorem rejoin_tracks (h : Tracks k ctx x p ok) (hx : rest k.size x ≠ []) {y : List UInt8} (hy : y.length ≤ ctx.deficit) :
    Tracks k
      { update k (subtract k { ctx with joint := store ctx.joint (rest k.size x).length y } (word (rest k.size x)))
          (word (rest k.size x ++ y)) with deficit := ctx.deficit - y.length }
      (x ++ y) (p.next k (.instead (word (rest k.size x ++ y))))
      (ok ∧ (p.next k (.instead (word (rest k.size x ++ y)))).Fits k) := by
  have hpos := size_pos k
  have hlt := rest_length_lt hpos x
  obtain ⟨init, hp, hinit⟩ := h.split hx
  rw [h.deficit, if_neg hx] at hy
  have hlen : (rest k.size x ++ y).length ≤ k.size := by
    rw [List.length_append]
    omega
  -- what was added for the word cut short is taken back, and the longer word is added instead
  have hstored : Adds k { ctx with joint := store ctx.joint (rest k.size x).length y } p ok :=
    ⟨h.adds.cnt, h.adds.wrapped, h.adds.sum1, h.adds.sum2⟩
  have hadds := hstored.instead hp (word_le hlt.le) (word (rest k.size x ++ y))
  have hjoint : (update k (subtract k { ctx with joint := store ctx.joint (rest k.size x).length y }
      (word (rest k.size x))) (word (rest k.size x ++ y))).joint = store ctx.joint (rest k.size x).length y := by
    rw [update_joint]
    rfl
  have hne : rest k.size x ++ y ≠ [] := by simp [hx]
  have hwords : (p.next k (.instead (word (rest k.size x ++ y)))).words = words k (x ++ y) := by
    rw [words_next_instead k hp, hinit]
    have hsplit : words k (x ++ y) = (blocks k.size x).map word ++ words k (rest k.size x ++ y) := by
      unfold words
      rw [blocks_append hpos, rest_append hpos, List.map_append, List.append_assoc]
    rw [hsplit, words_short hne hlen]
  refine ⟨⟨hadds.cnt, hadds.wrapped, hadds.sum1, hadds.sum2⟩, ?_, ?_, ?_, hwords, fun _ => period_next_ne_nil _ _⟩
  · dsimp only
    rw [hjoint, store_length (by rw [h.size]; omega), h.size]
  · dsimp only
    rw [hjoint, rest_append hpos]
    -- the word is still short, or it is whole now
    rcases Nat.lt_or_eq_of_le hlen with hless | heq
    · rw [rest_short hless, List.length_append, store_take _ (by rw [h.size]; omega), h.joint]
    · rw [rest_exact hpos heq]
      rfl
  · dsimp only
    rw [rest_append hpos, h.deficit, if_neg hx]
    rcases Nat.lt_or_eq_of_le hlen with hless | heq
    · rw [rest_short hless, if_neg hne, List.length_append]
      omega
    · rw [rest_exact hpos heq, if_pos rfl]
      rw [List.length_append] at heq
      omega

theorem update_with_deficit (ctx : Ctx) (d w : ℕ) :
    update k { ctx with deficit := d } w = { update k ctx w with deficit := d } := by
  unfold update
  split_ifs <;> rfl

theorem words_nil : words k [] = [] := by
  unfold words
  rw [blocks_nil (size_pos k), rest_nil]
  rfl

theorem updateAligned_nil (ctx : Ctx) : updateAligned k ctx [] = ctx := by
  unfold updateAligned
  rw [List.length_nil, Nat.zero_div]
  rfl

/-- A chunk after a message that ends with a word. -/
theorem updateBlock_whole (h : Tracks k ctx x p ok) (hx : rest k.size x = []) (chunk : List UInt8) :
    Tracks k (updateBlock k ctx chunk) (x ++ chunk) ((additions k (rest k.size x) chunk).foldl (Plan.next k) p)
      (ok ∧ AllFit k p (additions k (rest k.size x) chunk)) := by
  have hadd : additions k (rest k.size x) chunk = (words k chunk).map .new := by
    unfold additions
    rw [hx, List.nil_append]
    by_cases hc : chunk = []
    · rw [if_pos hc, hc, words_nil]
      rfl
    · rw [if_neg hc]
      cases words k chunk <;> rfl
  rw [hadd]
  unfold updateBlock
  rw [if_neg (by rw [h.deficit, if_pos hx]; omega)]
  exact updateAligned_tracks h hx chunk

/-- Where the message ends within a word, `updateBlock` begins with that word. -/
theorem Tracks.joined (h : Tracks k ctx x p ok) (hx : rest k.size x ≠ []) :
    ctx.deficit = k.size - (rest k.size x).length ∧ 0 < ctx.deficit ∧
      k.size - min k.size ctx.deficit = (rest k.size x).length := by
  have hlt := rest_length_lt (size_pos k) x
  have hdef : ctx.deficit = k.size - (rest k.size x).length := by rw [h.deficit, if_neg hx]
  exact ⟨hdef, by omega, by omega⟩

/-- A chunk that does not complete the word begun. -/
theorem updateBlock_short (h : Tracks k ctx x p ok) (hx : rest k.size x ≠ []) {chunk : List UInt8} (hc : chunk ≠ [])
    (hshort : chunk.length < ctx.deficit) :
    Tracks k (updateBlock k ctx chunk) (x ++ chunk) ((additions k (rest k.size x) chunk).foldl (Plan.next k) p)
      (ok ∧ AllFit k p (additions k (rest k.size x) chunk)) := by
  have hlt := rest_length_lt (size_pos k) x
  obtain ⟨hdef, hdpos, hl⟩ := h.joined hx
  have htrack := rejoin_tracks h hx hshort.le
  have hword : words k (rest k.size x ++ chunk) = [word (rest k.size x ++ chunk)] := by
    refine words_short (by simp [hx]) ?_
    rw [List.length_append]
    omega
  have hadd : additions k (rest k.size x) chunk = [.instead (word (rest k.size x ++ chunk))] := by
    unfold additions
    rw [if_neg hc, hword]
    simp only [if_neg hx, List.map_nil]
  have hjoint : (store ctx.joint (rest k.size x).length chunk).take (k.size - (ctx.deficit - chunk.length)) =
      rest k.size x ++ chunk := by
    rw [show k.size - (ctx.deficit - chunk.length) = (rest k.size x).length + chunk.length by omega,
      store_take _ (by rw [h.size]; omega), h.joint]
  have hctx := update_with_deficit (k := k)
    (subtract k { ctx with joint := store ctx.joint (rest k.size x).length chunk } (word (rest k.size x)))
    (ctx.deficit - chunk.length) (word (rest k.size x ++ chunk))
  rw [← hctx] at htrack
  unfold updateBlock
  rw [if_pos ⟨hdpos, List.length_pos_iff.2 hc⟩, hl]
  dsimp only
  rw [h.joint, if_pos hshort, hadd, hjoint]
  simp only [AllFit, and_true]
  exact htrack

/-- A chunk that completes the word begun. What is left of it begins with a word. -/
theorem updateBlock_long (h : Tracks k ctx x p ok) (hx : rest k.size x ≠ []) {chunk : List UInt8}
    (hlong : ctx.deficit ≤ chunk.length) :
    Tracks k (updateBlock k ctx chunk) (x ++ chunk) ((additions k (rest k.size x) chunk).foldl (Plan.next k) p)
      (ok ∧ AllFit k p (additions k (rest k.size x) chunk)) := by
  have hpos := size_pos k
  have hlt := rest_length_lt hpos x
  obtain ⟨hdef, hdpos, hl⟩ := h.joined hx
  obtain ⟨y, z, rfl, hy⟩ : ∃ y z, chunk = y ++ z ∧ y.length = ctx.deficit :=
    ⟨_, _, (List.take_append_drop ctx.deficit chunk).symm, List.length_take_of_le hlong⟩
  have hclen : 0 < (y ++ z).length := by omega
  -- the first bytes complete the word, and the others begin new ones
  have htrack := rejoin_tracks h hx hy.le
  have hlen : (rest k.size x ++ y).length = k.size := by
    rw [List.length_append]
    omega
  have hjoint : (store ctx.joint (rest k.size x).length y).take k.size = rest k.size x ++ y := by
    have htake := store_take (y := y) (rest k.size x).length (show _ ≤ ctx.joint.length by rw [h.size]; omega)
    rwa [← List.length_append, hlen, h.joint] at htake
  have hrest : rest k.size (x ++ y) = [] := by rw [rest_append hpos, rest_exact hpos hlen]
  have hadd : additions k (rest k.size x) (y ++ z) =
      .instead (word (rest k.size x ++ y)) :: (words k z).map .new := by
    have hword : words k (rest k.size x ++ (y ++ z)) = word (rest k.size x ++ y) :: words k z := by
      unfold words
      rw [← List.append_assoc, blocks_block hpos hlen, rest_block hpos hlen]
      rfl
    unfold additions
    rw [if_neg (List.length_pos_iff.1 hclen), hword]
    simp only [if_neg hx]
  have htake : (y ++ z).take ctx.deficit = y := by rw [← hy, List.take_left]
  have hdrop : (y ++ z).drop ctx.deficit = z := by rw [← hy, List.drop_left]
  unfold updateBlock
  rw [if_pos ⟨hdpos, hclen⟩, hl]
  dsimp only
  rw [Nat.sub_eq_zero_of_le hy.ge] at htrack
  rw [h.joint, if_neg (Nat.not_lt.2 hlong), htake, hdrop, hjoint, hadd, ← List.append_assoc]
  have hlast := updateAligned_tracks htrack hrest z
  rw [and_assoc] at hlast
  by_cases hz : z.length = 0
  · rw [if_pos hz]
    obtain rfl := List.eq_nil_of_length_eq_zero hz
    rw [updateAligned_nil] at hlast
    exact hlast
  · rw [if_neg hz]
    exact hlast

/-- **A chunk.** -/
theorem updateBlock_tracks (h : Tracks k ctx x p ok) (chunk : List UInt8) :
    Tracks k (updateBlock k ctx chunk) (x ++ chunk) ((additions k (rest k.size x) chunk).foldl (Plan.next k) p)
      (ok ∧ AllFit k p (additions k (rest k.size x) chunk)) := by
  by_cases hx : rest k.size x = []
  · exact updateBlock_whole h hx chunk
  by_cases hc : chunk = []
  · subst hc
    have hstay : updateBlock k ctx [] = ctx := by
      unfold updateBlock
      rw [if_neg (by simp), updateAligned_nil]
    rw [hstay, List.append_nil]
    simpa [additions, AllFit] using h
  rcases Nat.lt_or_ge chunk.length ctx.deficit with hshort | hlong
  · exact updateBlock_short h hx hc hshort
  · exact updateBlock_long h hx hlong

/-! ## A message -/

theorem tracks_new {joint : List UInt8} (hj : joint.length = k.size) : Tracks k (Ctx.new joint) [] ⟨[], []⟩ True := by
  have hr : rest k.size ([] : List UInt8) = [] := rest_nil _
  refine ⟨⟨rfl, by simp [Ctx.new], ?_, ?_⟩, hj, ?_, ?_, ?_, fun hne => absurd hr hne⟩
  · simp [Ctx.new, Plan.total1]
  · simp [Ctx.new, Plan.total2]
  · rw [hr]
    rfl
  · rw [hr, if_pos rfl]
    rfl
  · rw [words_nil]
    rfl

/-- The context after all chunks. -/
theorem tracks_chunks (h : Tracks k ctx x p ok) (chunks : List (List UInt8)) :
    Tracks k (chunks.foldl (updateBlock k) ctx) (x ++ chunks.flatten)
      ((allAdditions k (rest k.size x) chunks).foldl (Plan.next k) p)
      (ok ∧ AllFit k p (allAdditions k (rest k.size x) chunks)) := by
  induction chunks generalizing ctx x p ok with
  | nil => simpa [allAdditions, AllFit] using h
  | cons chunk chunks ih =>
    have hnext := ih (updateBlock_tracks h chunk)
    rw [rest_append (size_pos k), and_assoc, ← allFit_append, ← List.foldl_append, List.append_assoc] at hnext
    exact hnext

theorem getChecksum_eq (ctx : Ctx) :
    (getChecksum k ctx).2 = ctx.sum2 % k.modulus * 2 ^ k.width + ctx.sum1 % k.modulus := by
  have h₁ : ctx.sum1 % k.modulus < 2 ^ k.width :=
    (Nat.mod_lt _ (modulus_pos k)).trans (by cases k <;> decide)
  have h₂ : ctx.sum2 % k.modulus < 2 ^ k.width :=
    (Nat.mod_lt _ (modulus_pos k)).trans (by cases k <;> decide)
  unfold getChecksum
  dsimp only
  rw [Nat.or_comm, ← Nat.shiftLeft_add_eq_or_of_lt h₁, Nat.shiftLeft_eq]
  apply Nat.mod_eq_of_lt
  rw [Nat.two_mul, Nat.pow_add]
  calc ctx.sum2 % k.modulus * 2 ^ k.width + ctx.sum1 % k.modulus
      < (ctx.sum2 % k.modulus + 1) * 2 ^ k.width := by rw [Nat.succ_mul]; exact Nat.add_lt_add_left h₁ _
    _ ≤ 2 ^ k.width * 2 ^ k.width := Nat.mul_le_mul_right _ h₂

/-- **When the checksum is right**: the sums wrap nowhere, and make up the checksum of the
message, exactly when what is added from one reduction to the next fits the accumulators. -/
theorem correct_iff_fits {joint : List UInt8} (hj : joint.length = k.size) (chunks : List (List UInt8)) :
    ((chunks.foldl (updateBlock k) (Ctx.new joint)).wrapped = false ∧
      (getChecksum k (chunks.foldl (updateBlock k) (Ctx.new joint))).2 = fletcher k chunks.flatten) ↔
      AllFit k ⟨[], []⟩ (allAdditions k [] chunks) := by
  have h := tracks_chunks (tracks_new hj) chunks
  rw [rest_nil, List.nil_append, true_and] at h
  constructor
  · rintro ⟨hw, -⟩
    exact h.adds.wrapped.1 hw
  · intro hfit
    refine ⟨h.adds.wrapped.2 hfit, ?_⟩
    unfold fletcher
    rw [getChecksum_eq, h.adds.sum1 hfit, h.adds.sum2 hfit, total1_mod, total2_mod, h.words]

theorem correct_iff_fits_two :
    (([[1, 2, 3], [4]].foldl (updateBlock .fletcher32) (Ctx.new [7, 7])).wrapped = false ∧
      (getChecksum .fletcher32 ([[1, 2, 3], [4]].foldl (updateBlock .fletcher32) (Ctx.new [7, 7]))).2 =
        fletcher .fletcher32 [1, 2, 3, 4]) ↔
      AllFit .fletcher32 ⟨[], []⟩ (allAdditions .fletcher32 [] [[1, 2, 3], [4]]) :=
  correct_iff_fits (by decide) [[1, 2, 3], [4]]

/-! ## A message that wraps -/

/-- Words added without a reduction. -/
theorem foldl_update (ws : List ℕ) (h₁ : ctx.sum1 < 2 ^ k.accBits) (h₂ : ctx.sum2 < 2 ^ k.accBits)
    (hc : ctx.cnt + ws.length ≤ k.maxAdd) :
    (ws.foldl (update k) ctx).sum1 = (ctx.sum1 + sum1 ws) % 2 ^ k.accBits ∧
      (ws.foldl (update k) ctx).sum2 = (ctx.sum2 + ws.length * ctx.sum1 + sum2 ws) % 2 ^ k.accBits ∧
      (ws.foldl (update k) ctx).cnt = ctx.cnt + ws.length := by
  have hN : 0 < 2 ^ k.accBits := Nat.two_pow_pos _
  induction ws generalizing ctx with
  | nil => simp [Nat.mod_eq_of_lt h₁, Nat.mod_eq_of_lt h₂]
  | cons w ws ih =>
    rw [List.length_cons] at hc
    -- the count allows another word, so the sums are not reduced in between
    have hne : ctx.cnt ≠ k.maxAdd := by omega
    have hs₁ : (update k ctx w).sum1 = (ctx.sum1 + w) % 2 ^ k.accBits := by
      unfold update
      rw [if_neg hne]
    have hs₂ : (update k ctx w).sum2 = (ctx.sum2 + (ctx.sum1 + w) % 2 ^ k.accBits) % 2 ^ k.accBits := by
      unfold update
      rw [if_neg hne]
    have hs₃ : (update k ctx w).cnt = ctx.cnt + 1 := by
      unfold update
      rw [if_neg hne]
    obtain ⟨e₁, e₂, e₃⟩ := ih (show (update k ctx w).sum1 < _ from hs₁ ▸ Nat.mod_lt _ hN)
      (show (update k ctx w).sum2 < _ from hs₂ ▸ Nat.mod_lt _ hN) (by rw [hs₃]; omega)
    rw [hs₁] at e₁ e₂
    rw [hs₂] at e₂
    rw [hs₃] at e₃
    rw [List.foldl_cons, e₁, e₂, e₃]
    refine ⟨?_, ?_, ?_⟩
    · rw [Nat.mod_add_mod]
      simp [sum1, Nat.add_assoc]
    · have hm : (ctx.sum1 + w) % 2 ^ k.accBits ≡ ctx.sum1 + w [MOD 2 ^ k.accBits] := Nat.mod_modEq _ _
      have hsum := (((Nat.mod_modEq (ctx.sum2 + (ctx.sum1 + w) % 2 ^ k.accBits) (2 ^ k.accBits)).trans
        (hm.add_left ctx.sum2)).add (hm.mul_left ws.length)).add_right (sum2 ws)
      rw [show _ % _ = _ % _ from hsum, List.length_cons, sum2]
      congr 1
      ring
    · rw [List.length_cons]
      omega

/-- A reduction that is due, made early. -/
theorem update_full (hc : ctx.cnt = k.maxAdd) (w : ℕ) :
    update k ctx w =
      update k { ctx with sum1 := ctx.sum1 % k.modulus, sum2 := ctx.sum2 % k.modulus, cnt := 0 } w := by
  have hne : 0 ≠ k.maxAdd := (maxAdd_pos k).ne
  unfold update
  rw [if_pos hc, if_neg hne]

theorem sum1_replicate (n w : ℕ) : sum1 (List.replicate n w) = n * w := by
  exact List.sum_replicate_nat

theorem two_mul_sum2_replicate (n w : ℕ) : 2 * sum2 (List.replicate n w) = w * (n * (n + 1)) := by
  induction n with
  | zero => simp
  | succ n ih =>
    rw [List.replicate_succ, sum2, Nat.mul_add, ih, List.length_replicate]
    ring

theorem words_byte (message : List UInt8) : words .fletcher16 message = message.map UInt8.toNat := by
  have hsize : Kind.fletcher16.size = 1 := rfl
  have hw : ∀ x : List UInt8, words .fletcher16 x = x.map UInt8.toNat := by
    intro x
    unfold words
    rw [hsize]
    refine blocks_induction Nat.one_pos (P := fun x => (blocks 1 x).map word ++
      (if rest 1 x = [] then [] else [word (rest 1 x)]) = x.map UInt8.toNat) ?_ ?_ x
    · intro x hx
      obtain rfl := List.eq_nil_of_length_eq_zero (Nat.lt_one_iff.1 hx)
      rw [blocks_short (by decide), rest_short (by decide)]
      rfl
    · intro b x hb ih
      obtain ⟨b, rfl⟩ := List.length_eq_one_iff.1 hb
      rw [blocks_block Nat.one_pos hb, rest_block Nat.one_pos hb, List.map_cons, List.cons_append, ih]
      simp [word]
  exact hw message

theorem updateBlock_byte (joint message : List UInt8) :
    updateBlock .fletcher16 (Ctx.new joint) message =
      (words .fletcher16 message).foldl (update .fletcher16) (Ctx.new joint) := by
  have hrest : rest Kind.fletcher16.size message = [] :=
    List.eq_nil_of_length_eq_zero (Nat.lt_one_iff.1 (rest_length_lt Nat.one_pos message))
  unfold updateBlock updateAligned words
  rw [if_neg (by simp [Ctx.new]), updateWords_eq, hrest, if_pos rfl, List.append_nil]
  rfl

/-- Two stretches with a reduction between them. -/
theorem foldl_update_two (joint : List UInt8) {ws vs : List ℕ} (hw : ws.length = k.maxAdd) (hv : vs.length ≤ k.maxAdd)
    (hne : vs ≠ []) :
    ((ws ++ vs).foldl (update k) (Ctx.new joint)).sum1 =
        (sum1 ws % 2 ^ k.accBits % k.modulus + sum1 vs) % 2 ^ k.accBits ∧
      ((ws ++ vs).foldl (update k) (Ctx.new joint)).sum2 =
        (sum2 ws % 2 ^ k.accBits % k.modulus + vs.length * (sum1 ws % 2 ^ k.accBits % k.modulus) + sum2 vs) %
          2 ^ k.accBits := by
  have hpos := modulus_pos k
  have hlt := modulus_lt k
  have hN : 0 < 2 ^ k.accBits := Nat.two_pow_pos _
  obtain ⟨e₁, e₂, e₃⟩ := foldl_update ws (show (Ctx.new joint).sum1 < 2 ^ k.accBits from hN)
    (show (Ctx.new joint).sum2 < 2 ^ k.accBits from hN) (by simp [Ctx.new, hw])
  obtain ⟨v, vs, rfl⟩ := List.exists_cons_of_ne_nil hne
  rw [List.foldl_append]
  generalize ws.foldl (update k) (Ctx.new joint) = c at e₁ e₂ e₃
  simp only [Ctx.new, Nat.zero_add, Nat.mul_zero] at e₁ e₂ e₃
  have hbound : ∀ x, x % k.modulus < 2 ^ k.accBits := fun x => (Nat.mod_lt x hpos).trans (by omega)
  obtain ⟨d, hd⟩ : ∃ d, d = { c with sum1 := c.sum1 % k.modulus, sum2 := c.sum2 % k.modulus, cnt := 0 } := ⟨_, rfl⟩
  obtain ⟨f₁, f₂, -⟩ := foldl_update (v :: vs) (show d.sum1 < 2 ^ k.accBits from hd ▸ hbound _)
    (show d.sum2 < 2 ^ k.accBits from hd ▸ hbound _) (by rw [hd]; simpa using hv)
  rw [List.foldl_cons, update_full (by rw [e₃, hw]), ← hd, ← List.foldl_cons, f₁, f₂, hd, e₁, e₂]
  exact ⟨rfl, rfl⟩

/-- One word of 254, and then only words of 255, which the modulus makes nothing of. -/
theorem fletcher16_stretches {n : ℕ} (hn : n + 1 = Kind.fletcher16.maxAdd) : ∃ s t,
    2 * s = 255 * (n * (n + 1)) ∧ 2 * t = 255 * ((n + 1) * (n + 1 + 1)) ∧
      (getChecksum .fletcher16 (updateBlock .fletcher16 (Ctx.new [0])
        (254 :: List.replicate (n + (n + 1)) 255))).2 =
        (((n + 1) * 254 + s) % 4294967296 % 255 + (n + 1) * ((254 + n * 255) % 4294967296 % 255) + t) % 4294967296 %
          255 * 256 + ((254 + n * 255) % 4294967296 % 255 + (n + 1) * 255) % 4294967296 % 255 ∧
      fletcher .fletcher16 (254 :: List.replicate (n + (n + 1)) 255) =
        ((n + 1) * 254 + s + (n + 1) * (254 + n * 255) + t) % 255 * 256 + (254 + n * 255 + (n + 1) * 255) % 255 := by
  have hwords : words .fletcher16 (254 :: List.replicate (n + (n + 1)) 255) =
      (254 :: List.replicate n 255) ++ List.replicate (n + 1) 255 := by
    rw [words_byte, List.map_cons, List.map_replicate, List.replicate_add]
    rfl
  have hbits : 2 ^ Kind.fletcher16.accBits = 4294967296 := by decide
  have hmod : Kind.fletcher16.modulus = 255 := by decide
  have hwidth : 2 ^ Kind.fletcher16.width = 256 := by decide
  have hone : sum1 (254 :: List.replicate n 255) = 254 + n * 255 := by
    rw [← sum1_replicate]
    rfl
  have htwo : sum2 (254 :: List.replicate n 255) = (n + 1) * 254 + sum2 (List.replicate n 255) := by
    rw [sum2, List.length_replicate]
  refine ⟨sum2 (List.replicate n 255), sum2 (List.replicate (n + 1) 255), two_mul_sum2_replicate n 255,
    two_mul_sum2_replicate (n + 1) 255, ?_, ?_⟩
  · obtain ⟨e₁, e₂⟩ := foldl_update_two [0]
      (show (254 :: List.replicate n 255).length = Kind.fletcher16.maxAdd by
        rw [List.length_cons, List.length_replicate, hn])
      (show (List.replicate (n + 1) 255).length ≤ Kind.fletcher16.maxAdd by rw [List.length_replicate, hn])
      (by rw [List.replicate_succ]; exact List.cons_ne_nil _ _)
    rw [updateBlock_byte, hwords, getChecksum_eq, e₁, e₂, hone, htwo, sum1_replicate, List.length_replicate, hbits, hmod,
      hwidth]
  · unfold fletcher
    rw [hwords, sum1_append, sum2_append, hone, htwo, sum1_replicate, List.length_replicate, hmod, hwidth]

/-- 11606 bytes: the second sum wraps at the end of the second stretch without a reduction. -/
theorem wraps_at_11606 :
    (getChecksum .fletcher16 (updateBlock .fletcher16 (Ctx.new [0]) (254 :: List.replicate 11605 255))).2 = 31742 ∧
      fletcher .fletcher16 (254 :: List.replicate 11605 255) = 31998 := by
  obtain ⟨s, t, hs, ht, hcode, hspec⟩ := fletcher16_stretches (n := 5802) maxAdd_eq.1.symm
  constructor
  · rw [show 11605 = 5802 + (5802 + 1) from rfl, hcode]
    omega
  · rw [show 11605 = 5802 + (5802 + 1) from rfl, hspec]
    omega

end Libtarp.Fletcher
