import Libtarp.HashTable.Model
import Libtarp.Lib.Chain
import Mathlib.Data.Finset.Card

/-!
# The buckets of a hash table

`Buckets nb b next S`: the chain of each of the `nb` buckets has exactly the nodes of `S`
that belong there, each once.

* `Buckets.rawSet`, `Buckets.unlink`: one node more, one node less.
* `moveChains_spec`: by induction on the chains and the buckets, the new table has the nodes
  of the old one.
* `maybeResize_spec`: so a resize neither loses nor duplicates a node.
-/

namespace Libtarp.HashTable

open Function Lib Bits

variable {ν : Type} {key : ν → List UInt8} {hash : List UInt8 → UInt64} {nb i : ℕ} {a : ν}
  {b : ℕ → Option ν} {next : ν → Option ν} {S T : Finset ν} {rounds : ℕ}

/-- The bucket that the key of a node selects. -/
def bucketOf (key : ν → List UInt8) (hash : List UInt8 → UInt64) (nb : ℕ) (a : ν) : ℕ :=
  ((hash (key a)).toNat % primeScrambler) &&& (nb - 1)

/-- Sizes of a table. -/
def Size (nb : ℕ) : Prop := minBuckets ≤ nb ∧ nb ≤ maxBuckets ∧ ∃ k, nb = 2 ^ k

theorem bucketOf_lt (h : Size nb) (a : ν) : bucketOf key hash nb a < nb := by
  obtain ⟨-, -, k, rfl⟩ := h
  unfold bucketOf
  rw [Nat.and_two_pow_sub_one_eq_mod]
  exact Nat.mod_lt _ (Nat.two_pow_pos k)

theorem node2index_eq (h : Size nb) (ha : key a ≠ []) :
    node2index key hash nb a = .ok (bucketOf key hash nb a) := by
  have hlt : bucketOf key hash nb a < nb := bucketOf_lt h a
  have hpow : ispow2 nb = true := by
    obtain ⟨-, -, k, rfl⟩ := h
    exact ispow2_two_pow k
  unfold node2index hash2index
  rw [if_neg (by simpa using ha), if_pos hpow]
  exact if_pos hlt

theorem node2index_nil (ha : key a = []) : node2index key hash nb a = .error .assertion :=
  if_pos (by rw [ha]; rfl)

/-- The chain of every bucket has exactly the nodes of `S` that belong there, each once. -/
def Buckets (key : ν → List UInt8) (hash : List UInt8 → UInt64) (nb : ℕ) (b : ℕ → Option ν)
    (next : ν → Option ν) (S : Finset ν) : Prop :=
  ∀ i < nb, ∃ l, Chain next (b i) l ∧ l.Nodup ∧ ∀ a, a ∈ l ↔ a ∈ S ∧ bucketOf key hash nb a = i

theorem buckets_empty (nb : ℕ) (next : ν → Option ν) : Buckets key hash nb (fun _ => none) next ∅ :=
  fun i _ => ⟨[], rfl, List.nodup_nil, by simp⟩

/-- The chain of the bucket that a node belongs in. -/
theorem Buckets.chain (h : Buckets key hash nb b next S) (hs : Size nb) (a : ν) :
    ∃ l, Chain next (b (bucketOf key hash nb a)) l ∧ l.Nodup ∧
      ∀ c, c ∈ l ↔ c ∈ S ∧ bucketOf key hash nb c = bucketOf key hash nb a :=
  h _ (bucketOf_lt hs a)

variable [DecidableEq ν]

/-- A node put in front of the chain of bucket `idx`. -/
theorem rawSet_chain {idx : ℕ} {l : List ν} (hc : Chain next (b i) l) (hal : a ∉ l) :
    Chain (update next a (b idx)) (update b idx (some a) i) (if i = idx then a :: l else l) := by
  by_cases hidx : i = idx
  · subst hidx
    rw [if_pos rfl, update_self]
    exact hc.push hal
  · rw [if_neg hidx, update_of_ne hidx]
    exact hc.update hal

/-- **One node more.** -/
theorem Buckets.rawSet (h : Buckets key hash nb b next S) (ha : a ∉ S) :
    Buckets key hash nb (update b (bucketOf key hash nb a) (some a))
      (update next a (b (bucketOf key hash nb a))) (insert a S) := by
  intro i hi
  obtain ⟨l, hc, hn, hm⟩ := h i hi
  have hal : a ∉ l := fun hl => ha ((hm a).1 hl).1
  refine ⟨_, rawSet_chain hc hal, ?_, fun c => ?_⟩
  · split_ifs
    · exact List.nodup_cons.2 ⟨hal, hn⟩
    · exact hn
  · rw [Finset.mem_insert]
    by_cases hidx : i = bucketOf key hash nb a
    · rw [if_pos hidx, List.mem_cons, hm c]
      constructor
      · rintro (rfl | ⟨hS, hb⟩)
        · exact ⟨.inl rfl, hidx.symm⟩
        · exact ⟨.inr hS, hb⟩
      · rintro ⟨rfl | hS, hb⟩
        · exact .inl rfl
        · exact .inr ⟨hS, hb⟩
    · rw [if_neg hidx, hm c]
      constructor
      · exact fun ⟨hS, hb⟩ => ⟨.inr hS, hb⟩
      · rintro ⟨rfl | hS, hb⟩
        · exact absurd hb.symm hidx
        · exact ⟨hS, hb⟩

/-- A node taken out of its bucket, where it is behind the nodes of `l₁`: it is gone from every chain. -/
theorem Buckets.unlink_chain {l l₁ l₂ : List ν} (h : Buckets key hash nb b next S) {idx : ℕ} (hidx : idx < nb)
    (hl : Chain next (b idx) (l₁ ++ a :: l₂)) (hi : i < nb) (hc : Chain next (b i) l) :
    Chain (match l₁.getLast? with
        | none => next
        | some c => update next c (next a))
      ((if l₁ = [] then update b idx (next a) else b) i) (l.erase a) := by
  obtain ⟨l', hc', -, hm'⟩ := h idx hidx
  obtain rfl := hc'.unique hl
  by_cases hii : i = idx
  · subst hii
    obtain rfl := hc.unique hl
    have hn := hl.nodup
    have hal : a ∉ l₁ := fun ha => (List.disjoint_of_nodup_append hn) ha (List.mem_cons_self ..)
    rw [List.erase_append_right _ hal, List.erase_cons_head]
    rcases List.eq_nil_or_concat l₁ with rfl | ⟨l₁, c, rfl⟩
    · simp only [if_true, List.getLast?_nil, update_self, List.nil_append] at hl ⊢
      exact hl.2
    · simp only [List.concat_eq_append, List.append_assoc, List.cons_append, List.nil_append,
        List.getLast?_append, List.getLast?_singleton, Option.some_or] at hl hn ⊢
      rw [if_neg (by simp)]
      exact hl.unlink hn
  · -- the other chains have neither the node nor the one before it
    obtain ⟨l', hc'', -, hm⟩ := h i hi
    obtain rfl := hc.unique hc''
    have hother : ∀ c ∈ l₁ ++ a :: l₂, c ∉ l := fun c hc hcl => hii (((hm c).1 hcl).2.symm.trans ((hm' c).1 hc).2)
    rw [List.erase_of_not_mem (hother a (by simp))]
    have hb : (if l₁ = [] then update b idx (next a) else b) i = b i := by
      split_ifs
      · exact update_of_ne hii _ _
      · rfl
    rw [hb]
    split
    · exact hc
    · rename_i c hlast
      exact hc.update (hother c (List.mem_append_left _ (List.mem_of_getLast? hlast)))

/-- **One node less**: it is in its bucket behind the nodes of `l₁`. -/
theorem Buckets.unlink {l₁ l₂ : List ν} (h : Buckets key hash nb b next S) {idx : ℕ} (hidx : idx < nb)
    (hl : Chain next (b idx) (l₁ ++ a :: l₂)) :
    Buckets key hash nb (if l₁ = [] then update b idx (next a) else b)
      (match l₁.getLast? with
        | none => next
        | some c => update next c (next a)) (S.erase a) := by
  intro i hi
  obtain ⟨l, hc, hn, hm⟩ := h i hi
  refine ⟨_, h.unlink_chain hidx hl hi hc, hn.erase a, fun c => ?_⟩
  rw [hn.mem_erase_iff, hm c, Finset.mem_erase, and_assoc]

/-! ## Moving to a new table -/

/-- The nodes of one chain moved. -/
theorem moveChain_spec (hs : Size nb) {l : List ν} {p : Option ν} (hc : Chain next p l) (hn : l.Nodup)
    (h : Buckets key hash nb b next S) (hd : ∀ a ∈ l, a ∉ S) (hk : ∀ a ∈ l, key a ≠ [])
    (hr : l.length ≤ rounds) :
    ∃ b' next', moveChain key hash nb rounds p (b, next) = .ok (b', next') ∧
      Buckets key hash nb b' next' (S ∪ l.toFinset) ∧ ∀ a, a ∉ l → next' a = next a := by
  induction l generalizing p b next S rounds with
  | nil =>
    obtain rfl := chain_nil.1 hc
    exact ⟨b, next, by rw [moveChain], by simpa using h, fun _ _ => rfl⟩
  | cons a l ih =>
    obtain ⟨rfl, hc⟩ := hc
    obtain ⟨hal, hn⟩ := List.nodup_cons.1 hn
    cases rounds with
    | zero => simp at hr
    | succ rounds =>
      have haS : a ∉ S := hd a (List.mem_cons_self ..)
      obtain ⟨b', next', hmove, hb', hrest⟩ := ih (hc.update hal) hn (h.rawSet haS)
        (fun c hcl => by
          rw [Finset.mem_insert, not_or]
          exact ⟨fun he => hal (he ▸ hcl), hd c (List.mem_cons_of_mem _ hcl)⟩)
        (fun c hcl => hk c (List.mem_cons_of_mem _ hcl)) (show l.length ≤ rounds by simpa using hr)
      refine ⟨b', next', ?_, ?_, fun c hcl => ?_⟩
      · rw [moveChain]
        simp only [hashtRawSet, node2index_eq hs (hk a (List.mem_cons_self ..)), bind, Except.bind, pure,
          Except.pure]
        exact hmove
      · rwa [List.toFinset_cons, Finset.union_insert, ← Finset.insert_union]
      · rw [List.mem_cons, not_or] at hcl
        rw [hrest c hcl.2, update_of_ne hcl.1]

/-- The nodes of the first `i` chains moved. -/
theorem moveChains_spec {n : ℕ} (hs : Size nb) (h : Buckets key hash n b next S) (hk : ∀ a ∈ S, key a ≠ [])
    (hr : S.card ≤ rounds) (hi : i ≤ n) :
    ∃ b' next', moveChains key hash nb rounds b i (fun _ => none, next) = .ok (b', next') ∧
      Buckets key hash nb b' next' (S.filter fun a => bucketOf key hash n a < i) ∧
      ∀ a, ¬bucketOf key hash n a < i → next' a = next a := by
  induction i with
  | zero =>
    refine ⟨_, _, rfl, ?_, fun _ _ => rfl⟩
    simpa using buckets_empty nb next
  | succ i ih =>
    obtain ⟨b₁, next₁, hmove, hb₁, hrest₁⟩ := ih (by omega)
    -- the chain of bucket `i` is still whole: only nodes of lower buckets have moved
    obtain ⟨l, hc, hn, hm⟩ := h i (by omega)
    have hlS : l.toFinset ⊆ S := fun a ha => ((hm a).1 (List.mem_toFinset.1 ha)).1
    obtain ⟨b₂, next₂, hmove₂, hb₂, hrest₂⟩ := moveChain_spec hs
      (hc.congr fun a ha => hrest₁ a (by rw [((hm a).1 ha).2]; omega)) hn hb₁
      (fun a ha => by
        rw [Finset.mem_filter, ((hm a).1 ha).2]
        omega)
      (fun a ha => hk a ((hm a).1 ha).1)
      (show l.length ≤ rounds by
        rw [← List.toFinset_card_of_nodup hn]
        exact (Finset.card_le_card hlS).trans hr)
    refine ⟨b₂, next₂, ?_, ?_, fun a ha => ?_⟩
    · simp only [moveChains, hmove, bind, Except.bind]
      exact hmove₂
    · have hset : (S.filter fun a => bucketOf key hash n a < i + 1) =
          (S.filter fun a => bucketOf key hash n a < i) ∪ l.toFinset := by
        ext a
        rw [Finset.mem_filter, Finset.mem_union, Finset.mem_filter, List.mem_toFinset, hm a]
        constructor
        · rintro ⟨hS, hlt⟩
          by_cases hlt' : bucketOf key hash n a < i
          · exact .inl ⟨hS, hlt'⟩
          · exact .inr ⟨hS, by omega⟩
        · rintro (⟨hS, hlt⟩ | ⟨hS, he⟩)
          · exact ⟨hS, by omega⟩
          · exact ⟨hS, by omega⟩
      rw [hset]
      exact hb₂
    · rw [hrest₂ a fun hal => ha (by rw [((hm a).1 hal).2]; omega), hrest₁ a (by omega)]

/-- What holds of a table between calls; `S` are its nodes. -/
structure Valid (key : ν → List UInt8) (hash : List UInt8 → UInt64) (ht : Hasht ν) (S : Finset ν) : Prop where
  size : Size ht.numBuckets
  buckets : Buckets key hash ht.numBuckets ht.buckets ht.next S
  count : ht.count = S.card
  cached : ∀ c, ht.cached = some c → c ∈ S
  keys : ∀ a ∈ S, key a ≠ []

omit [DecidableEq ν] in
theorem newSize_cases (ht : Hasht ν) (isdel : Bool) : newSize ht isdel = ht.numBuckets ∨
    isdel = false ∧ load ht > ht.lf ∧ newSize ht isdel = ht.numBuckets * 2 ∨
    isdel = true ∧ newSize ht isdel = ht.numBuckets / 2 := by
  have hl : ht.numBuckets <<< 1 = ht.numBuckets * 2 := by rw [Nat.shiftLeft_eq, pow_one]
  have hr : ht.numBuckets >>> 1 = ht.numBuckets / 2 := by rw [Nat.shiftRight_eq_div_pow, pow_one]
  unfold newSize
  cases isdel
  · by_cases hc : load ht > ht.lf
    · right; left; simp [hc, hl]
    · left; simp [hc]
  · by_cases hc : load ht < ht.lf >>> 3
    · right; right; simp [hc, hr]
    · left; simp [hc]

/-- A table is refused only when it would have to grow beyond the limit. -/
def Refused (ht : Hasht ν) : Prop := load ht > ht.lf ∧ maxBuckets < ht.numBuckets * 2

/-- The table gets another number of buckets, and its chains are built anew. -/
def Moves (ht : Hasht ν) (isdel : Bool) : Prop :=
  newSize ht isdel ≠ ht.numBuckets ∧ (isdel = true → minBuckets ≤ newSize ht isdel) ∧ newSize ht isdel ≤ maxBuckets

/-- **A resize loses and duplicates no node.** The table is left alone unless its chains are built anew. -/
theorem maybeResize_spec {ht : Hasht ν} (hv : Valid key hash ht S) (hr : S.card ≤ rounds) (isdel : Bool) :
    maybeResize key hash rounds ht isdel = .ok none ∧ isdel = false ∧ Refused ht ∨
      ∃ ht', maybeResize key hash rounds ht isdel = .ok (some ht') ∧ Valid key hash ht' S ∧
        ht'.dtor = ht.dtor ∧ (ht' = ht ∨ Moves ht isdel) ∧ (isdel = false → ¬Refused ht) := by
  obtain ⟨hmin, hmax, k, hk⟩ := hv.size
  simp only [maybeResize]
  -- where the new size is allowed nothing is refused
  have hnot : newSize ht isdel ≤ maxBuckets → isdel = false → ¬Refused ht := by
    rintro hle rfl ⟨hload, hbig⟩
    have hl : ht.numBuckets <<< 1 = ht.numBuckets * 2 := by rw [Nat.shiftLeft_eq, pow_one]
    have hgrow : newSize ht false = ht.numBuckets * 2 := by simp [newSize, hload, hl]
    omega
  by_cases hsame : newSize ht isdel = ht.numBuckets
  · rw [if_pos hsame]
    exact .inr ⟨ht, rfl, hv, rfl, .inl rfl, hnot (hsame.trans_le hmax)⟩
  rw [if_neg hsame]
  by_cases hlow : (isdel && decide (newSize ht isdel < minBuckets)) = true
  · rw [if_pos hlow]
    have hdel : isdel = true := (Bool.and_eq_true_iff.1 hlow).1
    exact .inr ⟨ht, rfl, hv, rfl, .inl rfl, fun hd => absurd (hdel.symm.trans hd) (by decide)⟩
  rw [if_neg hlow]
  have hge : minBuckets ≤ newSize ht isdel := by
    rcases newSize_cases ht isdel with h | ⟨-, -, h⟩ | ⟨hd, h⟩
    · exact absurd h hsame
    · omega
    · simpa [hd] using hlow
  have halloc : allocateHasht (newSize ht isdel) =
      if newSize ht isdel > maxBuckets then none else some (newSize ht isdel) := by
    simp only [allocateHasht, if_neg (show ¬newSize ht isdel < minBuckets by omega)]
  rw [halloc]
  by_cases hbig : newSize ht isdel > maxBuckets
  · rw [if_pos hbig]
    rcases newSize_cases ht isdel with h | ⟨hd, hl, h⟩ | ⟨-, h⟩
    · exact absurd h hsame
    · exact .inl ⟨rfl, hd, hl, by omega⟩
    · omega
  · rw [if_neg hbig]
    -- half or twice a power of two
    have hsize : Size (newSize ht isdel) := by
      refine ⟨hge, by omega, ?_⟩
      rcases newSize_cases ht isdel with h | ⟨-, -, h⟩ | ⟨-, h⟩
      · exact absurd h hsame
      · exact ⟨k + 1, by rw [h, hk, pow_succ]⟩
      · have hk0 : k ≠ 0 := by
          rintro rfl
          rw [hk] at hmin
          exact absurd hmin (by decide)
        obtain ⟨j, rfl⟩ := Nat.exists_eq_succ_of_ne_zero hk0
        exact ⟨j, by rw [h, hk, pow_succ, Nat.mul_div_cancel _ (by decide)]⟩
    obtain ⟨b', next', hmove, hb', -⟩ := moveChains_spec hsize hv.buckets hv.keys hr le_rfl
    have hall : (S.filter fun a => bucketOf key hash ht.numBuckets a < ht.numBuckets) = S :=
      Finset.filter_true_of_mem fun a _ => bucketOf_lt hv.size a
    rw [hall] at hb'
    simp only [hmove, bind, Except.bind]
    exact .inr ⟨_, rfl, ⟨hsize, hb', hv.count, hv.cached, hv.keys⟩, rfl, .inr ⟨hsame, fun _ => hge, by omega⟩,
      hnot (by omega)⟩

end Libtarp.HashTable
