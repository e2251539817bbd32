import Mathlib.Algebra.BigOperators.Group.List.Basic
import Mathlib.Algebra.GroupWithZero.Nat
import Mathlib.Data.List.DropRight
import Mathlib.Data.List.Nodup
import Mathlib.Data.List.Rotate
import Mathlib.Data.Nat.ModEq

/-!
# Taking turns in a ring

The members of a ring have a number of things to give, and take turns: the first one gives one thing and goes to the
end. A member with nothing to give leaves the ring, and the one after it loses its turn.

* `turns`: who gives, and who loses a turn, until all have left. `served` are the things given.
* `Fair`: between two things of one member, every other one that has something left gives one thing.
* `fair_iff`: that is so where no one loses a turn in such a place and gives nothing there.
* `turnsKept_iff`: the numbers around the ring with which no one loses a turn at all, as long as another one has things
  left. A row of empty members is a binary counter: every round halves it, and the bit that falls out is a lost turn.
-/

namespace Libtarp.Lib

variable {ι : Type*}

inductive Turn (ι : Type*)
  | gives (d : ι)
  /-- The member loses its turn, with so much left to give. -/
  | loses (d : ι) (left : ℕ)

def turns : List (ι × ℕ) → List (Turn ι)
  | [] => []
  | (d, n + 1) :: ring => .gives d :: turns (ring ++ [(d, n)])
  | [(_, 0)] => []
  | (_, 0) :: (d, n) :: ring => .loses d n :: turns (ring ++ [(d, n)])
termination_by ring => (ring.map fun p => p.2 + 1).sum
decreasing_by
  all_goals
    simp only [List.map_append, List.map_cons, List.map_nil, List.sum_append, List.sum_cons, List.sum_nil]
    omega

def Turn.giver : Turn ι → Option ι
  | .gives d => some d
  | .loses .. => none

/-- The members that give, in order. -/
def givers (ts : List (Turn ι)) : List ι := ts.filterMap Turn.giver

/-- A member that has things left after one of `c` gives exactly one before the next one of `c`. -/
def Fair [DecidableEq ι] (l : List ι) : Prop :=
  ∀ before c between after, l = before ++ c :: (between ++ c :: after) → c ∉ between →
    ∀ d ≠ c, d ∈ between ++ after → between.count d = 1

/-- No member loses a turn between two things of another one without giving anything there, while it has something
left. -/
def NoneLeftOut (ts : List (Turn ι)) : Prop :=
  ∀ before c between after, ts = before ++ .gives c :: (between ++ .gives c :: after) → .gives c ∉ between →
    ∀ d ≠ c, ∀ n, .loses d (n + 1) ∈ between → .gives d ∈ between

/-! ## One turn -/

theorem turns_eq_cons {ring : List (ι × ℕ)} {t : Turn ι} {ts : List (Turn ι)} (h : turns ring = t :: ts) :
    (∃ d n rest, ring = (d, n + 1) :: rest ∧ t = .gives d ∧ ts = turns (rest ++ [(d, n)])) ∨
      ∃ x d n rest, ring = (x, 0) :: (d, n) :: rest ∧ t = .loses d n ∧ ts = turns (rest ++ [(d, n)]) := by
  match ring with
  | [] =>
    rw [turns] at h
    cases h
  | (d, n + 1) :: rest =>
    rw [turns] at h
    obtain ⟨rfl, rfl⟩ := List.cons.inj h
    exact .inl ⟨d, n, rest, rfl, rfl, rfl⟩
  | [(_, 0)] =>
    rw [turns] at h
    cases h
  | (x, 0) :: (d, n) :: rest =>
    rw [turns] at h
    obtain ⟨rfl, rfl⟩ := List.cons.inj h
    exact .inr ⟨x, d, n, rest, rfl, rfl, rfl⟩

/-- After some turns there is a ring again, of some of the members. -/
theorem turns_eq_append {ring : List (ι × ℕ)} {before after : List (Turn ι)} (h : turns ring = before ++ after)
    (hnodup : (ring.map Prod.fst).Nodup) : ∃ ring', after = turns ring' ∧ (ring'.map Prod.fst).Nodup := by
  induction before generalizing ring with
  | nil => exact ⟨ring, h.symm, hnodup⟩
  | cons t before ih =>
    rcases turns_eq_cons h with ⟨d, n, rest, rfl, -, hts⟩ | ⟨x, d, n, rest, rfl, -, hts⟩
    · refine ih hts.symm ?_
      rw [List.map_append, List.map_cons, List.map_nil]
      exact (List.perm_append_singleton d _).nodup_iff.2 hnodup
    · refine ih hts.symm ?_
      rw [List.map_append, List.map_cons, List.map_nil]
      exact (List.perm_append_singleton d _).nodup_iff.2 (List.nodup_cons.1 hnodup).2

section

variable [DecidableEq ι]

/-- What a member of the ring has to give. -/
def left (ring : List (ι × ℕ)) (d : ι) : ℕ := ((ring.filter (·.1 = d)).map Prod.snd).sum

theorem left_cons (d d' : ι) (n : ℕ) (ring : List (ι × ℕ)) :
    left ((d, n) :: ring) d' = (if d = d' then n else 0) + left ring d' := by
  unfold left
  by_cases h : d = d'
  · rw [List.filter_cons_of_pos (by simpa using h), if_pos h, List.map_cons, List.sum_cons]
  · rw [List.filter_cons_of_neg (by simpa using h), if_neg h, Nat.zero_add]

theorem left_append (ring ring' : List (ι × ℕ)) (d : ι) : left (ring ++ ring') d = left ring d + left ring' d := by
  unfold left
  rw [List.filter_append, List.map_append, List.sum_append]

/-- Everyone gives all there is. -/
theorem count_givers (ring : List (ι × ℕ)) (d : ι) : (givers (turns ring)).count d = left ring d := by
  unfold givers
  induction ring using turns.induct with
  | case1 =>
    rw [turns]
    rfl
  | case2 d' n ring ih =>
    rw [turns, List.filterMap_cons_some (show Turn.giver (.gives d') = some d' from rfl), List.count_cons, ih,
      left_append, left_cons, left_cons]
    simp only [left, List.filter_nil, List.map_nil, List.sum_nil, beq_iff_eq]
    split_ifs <;> omega
  | case3 x =>
    rw [turns, left_cons]
    simp [left]
  | case4 x d' n ring ih =>
    rw [turns, List.filterMap_cons_none (show Turn.giver (.loses d' n) = none from rfl), ih, left_append, left_cons,
      left_cons, left_cons]
    simp only [left, List.filter_nil, List.map_nil, List.sum_nil]
    split_ifs <;> omega

omit [DecidableEq ι] in
theorem mem_givers {ts : List (Turn ι)} {d : ι} : d ∈ givers ts ↔ .gives d ∈ ts := by
  unfold givers
  rw [List.mem_filterMap]
  constructor
  · rintro ⟨t, ht, hd⟩
    cases t with
    | gives d' =>
      obtain rfl := Option.some.inj hd
      exact ht
    | loses d' n => cases hd
  · exact fun h => ⟨_, h, rfl⟩

/-- A member with something left is in the ring. -/
theorem mem_of_left {ring : List (ι × ℕ)} {d : ι} (h : 0 < left ring d) : ∃ n, (d, n + 1) ∈ ring := by
  induction ring with
  | nil => exact absurd h (Nat.lt_irrefl 0)
  | cons p ring ih =>
    obtain ⟨d', n⟩ := p
    rw [left_cons] at h
    by_cases hd : d' = d ∧ 0 < n
    · obtain ⟨rfl, hn⟩ := hd
      exact ⟨n - 1, by rw [Nat.sub_add_cancel hn]; exact List.mem_cons_self ..⟩
    · have hleft : 0 < left ring d := by
        split_ifs at h with heq
        · have hn : ¬0 < n := fun hn => hd ⟨heq, hn⟩
          omega
        · omega
      obtain ⟨m, hm⟩ := ih hleft
      exact ⟨m, List.mem_cons_of_mem _ hm⟩

end

variable [DecidableEq ι] in
/-- Who has something left gives it, and no one else gives. -/
theorem gives_mem_turns {ring : List (ι × ℕ)} {d : ι} : .gives d ∈ turns ring ↔ ∃ n, (d, n + 1) ∈ ring := by
  rw [← mem_givers, ← List.count_pos_iff, count_givers]
  refine ⟨mem_of_left, fun ⟨n, hn⟩ => ?_⟩
  obtain ⟨before, after, rfl⟩ := List.append_of_mem hn
  rw [left_append, left_cons, if_pos rfl]
  omega

/-! ## Between two turns of a member -/

/-- **All those before `c` in the ring** that have something to give do so, or lose a turn, before `c` gives. -/
theorem met {c d : ι} {n k : ℕ} {pre post : List (ι × ℕ)} {between after : List (Turn ι)}
    (h : turns (pre ++ (c, n) :: post) = between ++ .gives c :: after) (hc : .gives c ∉ between)
    (hpre : c ∉ pre.map Prod.fst) (hd : (d, k + 1) ∈ pre) :
    .gives d ∈ between ∨ ∃ j, .loses d (j + 1) ∈ between := by
  induction hlen : pre.length using Nat.strong_induction_on generalizing pre post between with
  | _ len ih =>
  match pre with
  | [] => cases hd
  | (x, m + 1) :: pre =>
    rw [List.cons_append, turns] at h
    have hne : x ≠ c := by
      rintro rfl
      exact hpre (List.mem_cons_self ..)
    -- the first one gives, and is not `c`
    match between with
    | [] =>
      obtain ⟨heq, -⟩ := List.cons.inj h
      exact absurd (Turn.gives.inj heq) hne
    | t :: between =>
      obtain ⟨rfl, hrest⟩ := List.cons.inj h
      rcases List.mem_cons.1 hd with heq | hmem
      · obtain ⟨rfl, -⟩ := Prod.mk.inj heq
        exact .inl (List.mem_cons_self ..)
      · rw [List.append_assoc, List.cons_append] at hrest
        rcases ih pre.length (by rw [← hlen]; exact Nat.lt_succ_self _) hrest
          (fun hmem => hc (List.mem_cons_of_mem _ hmem)) (fun hmem => hpre (List.mem_cons_of_mem _ hmem)) hmem rfl
          with hgives | ⟨j, hloses⟩
        · exact .inl (List.mem_cons_of_mem _ hgives)
        · exact .inr ⟨j, List.mem_cons_of_mem _ hloses⟩
  | [(x, 0)] =>
    obtain ⟨-, hzero⟩ := Prod.mk.inj (List.mem_singleton.1 hd)
    cases hzero
  | (x, 0) :: (y, m) :: pre =>
    rw [List.cons_append, List.cons_append, turns] at h
    match between with
    | [] =>
      obtain ⟨heq, -⟩ := List.cons.inj h
      cases heq
    | t :: between =>
      obtain ⟨rfl, hrest⟩ := List.cons.inj h
      rcases List.mem_cons.1 hd with heq | hmem
      · obtain ⟨-, hzero⟩ := Prod.mk.inj heq
        cases hzero
      rcases List.mem_cons.1 hmem with heq | hmem
      · obtain ⟨rfl, rfl⟩ := Prod.mk.inj heq
        exact .inr ⟨k, List.mem_cons_self ..⟩
      · rw [List.append_assoc, List.cons_append] at hrest
        rcases ih pre.length (by rw [← hlen]; simp only [List.length_cons]; omega) hrest
          (fun hmem => hc (List.mem_cons_of_mem _ hmem))
          (fun hmem => hpre (List.mem_cons_of_mem _ (List.mem_cons_of_mem _ hmem))) hmem rfl
          with hgives | ⟨j, hloses⟩
        · exact .inl (List.mem_cons_of_mem _ hgives)
        · exact .inr ⟨j, List.mem_cons_of_mem _ hloses⟩

variable [DecidableEq ι] {ring : List (ι × ℕ)}

/-- Between two things of `c`, another member that gives later gives or loses a turn. -/
theorem met_between {c d : ι} {before between after : List (Turn ι)} (hnodup : (ring.map Prod.fst).Nodup)
    (h : turns ring = before ++ .gives c :: (between ++ .gives c :: after)) (hc : .gives c ∉ between) (hd : d ≠ c)
    (hlater : .gives d ∈ between ++ after) : .gives d ∈ between ∨ ∃ j, .loses d (j + 1) ∈ between := by
  obtain ⟨ring₁, h₁, hnodup₁⟩ := turns_eq_append h hnodup
  rcases turns_eq_cons h₁.symm with ⟨c', n, rest, rfl, hgives, hrest⟩ | ⟨_, _, _, _, -, hloses, -⟩
  · obtain rfl := Turn.gives.inj hgives
    have hleft : 0 < left (rest ++ [(c, n)]) d := by
      rw [← count_givers, ← hrest, List.count_pos_iff, mem_givers]
      rcases List.mem_append.1 hlater with hmem | hmem
      · exact List.mem_append_left _ hmem
      · exact List.mem_append_right _ (List.mem_cons_of_mem _ hmem)
    obtain ⟨k, hk⟩ := mem_of_left hleft
    rcases List.mem_append.1 hk with hmem | hmem
    · exact met hrest.symm hc (List.nodup_cons.1 hnodup₁).1 hmem
    · obtain ⟨heq, -⟩ := Prod.mk.inj (List.mem_singleton.1 hmem)
      exact absurd heq hd
  · cases hloses

/-- One that loses a turn with something left gives later. -/
theorem gives_later {d : ι} {n : ℕ} {before after : List (Turn ι)} (hnodup : (ring.map Prod.fst).Nodup)
    (h : turns ring = before ++ .loses d (n + 1) :: after) : .gives d ∈ after := by
  obtain ⟨ring₁, h₁, -⟩ := turns_eq_append h hnodup
  rcases turns_eq_cons h₁.symm with ⟨_, _, _, -, hgives, -⟩ | ⟨x, d', n', rest, rfl, hloses, hrest⟩
  · cases hgives
  · obtain ⟨rfl, rfl⟩ := Turn.loses.inj hloses
    rw [hrest, ← mem_givers, ← List.count_pos_iff, count_givers, left_append, left_cons, if_pos rfl]
    omega

omit [DecidableEq ι] in
theorem givers_append (ts ts' : List (Turn ι)) : givers (ts ++ ts') = givers ts ++ givers ts' := List.filterMap_append

omit [DecidableEq ι] in
theorem givers_cons (c : ι) (ts : List (Turn ι)) : givers (.gives c :: ts) = c :: givers ts := rfl

omit [DecidableEq ι] in
theorem givers_eq_append_cons {ts : List (Turn ι)} {l l' : List ι} {c : ι} (h : givers ts = l ++ c :: l') :
    ∃ ts₁ ts₂, ts = ts₁ ++ .gives c :: ts₂ ∧ givers ts₁ = l ∧ givers ts₂ = l' := by
  obtain ⟨ts₁, ts₂, rfl, hl, hc⟩ := List.filterMap_eq_append_iff.1 h
  obtain ⟨ts₃, t, ts₄, rfl, hnone, ht, hl'⟩ := List.filterMap_eq_cons_iff.1 hc
  cases t with
  | loses d n => cases ht
  | gives d =>
    obtain rfl := Option.some.inj ht
    refine ⟨ts₁ ++ ts₃, ts₄, (List.append_assoc ..).symm, ?_, hl'⟩
    rw [givers_append]
    exact (congrArg₂ _ hl (List.filterMap_eq_nil_iff.2 hnone)).trans (List.append_nil l)

/-- **The turns are fair where no one is left out.** -/
theorem fair_iff (hnodup : (ring.map Prod.fst).Nodup) : Fair (givers (turns ring)) ↔ NoneLeftOut (turns ring) := by
  constructor
  · intro hfair before c between after h hc d hd n hloses
    obtain ⟨between₁, between₂, rfl⟩ := List.append_of_mem hloses
    have hsplit : givers (turns ring) = givers before ++ c :: (givers (between₁ ++ .loses d (n + 1) :: between₂) ++
        c :: givers after) := by
      rw [h, givers_append, givers_cons, givers_append _ (.gives c :: after), givers_cons]
    have hlater : .gives d ∈ between₂ ++ .gives c :: after := by
      have hts : turns ring = (before ++ .gives c :: between₁) ++ .loses d (n + 1) ::
          (between₂ ++ .gives c :: after) := by
        rw [h]
        simp only [List.append_assoc, List.cons_append]
      exact gives_later hnodup hts
    have hone := hfair _ c _ _ hsplit (fun hmem => hc (mem_givers.1 hmem)) d hd ?_
    · refine mem_givers.1 (List.count_pos_iff.1 ?_)
      omega
    · rw [← givers_append, mem_givers]
      rcases List.mem_append.1 hlater with hmem | hmem
      · exact List.mem_append_left _ (List.mem_append_right _ (List.mem_cons_of_mem _ hmem))
      · rcases List.mem_cons.1 hmem with heq | hmem
        · exact absurd (Turn.gives.inj heq) hd
        · exact List.mem_append_right _ hmem
  · intro hnone
    -- one that gives later is met, and is not left out
    have hmet : ∀ before c between after, givers (turns ring) = before ++ c :: (between ++ c :: after) → c ∉ between →
        ∀ d ≠ c, d ∈ between ++ after → d ∈ between := by
      intro before c between after h hc d hd hlater
      obtain ⟨ts₁, ts₂, hts, -, h₂⟩ := givers_eq_append_cons h
      obtain ⟨ts₃, ts₄, rfl, rfl, rfl⟩ := givers_eq_append_cons h₂
      have hc' : .gives c ∉ ts₃ := fun hmem => hc (mem_givers.2 hmem)
      rw [← givers_append, mem_givers] at hlater
      rw [mem_givers]
      rcases met_between hnodup hts hc' hd hlater with hgives | ⟨j, hloses⟩
      · exact hgives
      · exact hnone _ c _ _ hts hc' d hd j hloses
    intro before c between after h hc d hd hlater
    have hmem := hmet before c between after h hc d hd hlater
    have hpos := List.count_pos_iff.2 hmem
    by_contra hcount
    -- twice would leave out `c`
    obtain ⟨l₁, rest, rfl, hl₁⟩ := List.eq_append_cons_of_mem hmem
    rw [List.count_append, List.count_eq_zero.2 hl₁, List.count_cons_self] at hcount hpos
    obtain ⟨l₂, l₃, rfl, hl₂⟩ := List.eq_append_cons_of_mem (List.count_pos_iff.1 (by omega : 0 < rest.count d))
    have hsplit : givers (turns ring) = (before ++ c :: l₁) ++ d :: (l₂ ++ d :: (l₃ ++ c :: after)) := by
      rw [h]
      simp only [List.append_assoc, List.cons_append]
    have hmem' := hmet _ d l₂ _ hsplit hl₂ c hd.symm
      (List.mem_append_right _ (List.mem_append_right _ (List.mem_cons_self ..)))
    exact hc (List.mem_append_right _ (List.mem_cons_of_mem _ (List.mem_append_left _ hmem')))

/-! ## No turn is lost -/

/-- Who loses a turn with something left is the only one that has. -/
def NoneLost (ts : List (Turn ι)) : Prop :=
  ∀ before d n after, ts = before ++ .loses d (n + 1) :: after → ∀ d', .gives d' ∈ after → d' = d

/-- The others as a member sees them, in the order of the ring, from the one after it to the one before it: after how
many turns of the member they are empty. Those that come after it have had one turn less than it. -/
def around (before after : List ℕ) : List ℕ := after.map (· + 1) ++ before

/-- Those right before a member that are empty after `t` turns, each with the weight `2 ^ s`. After `t` rounds, a
`2 ^ t`-th part of them is still in the ring. -/
def emptied (t : ℕ) (l : List ℕ) : ℕ := ((l.rtakeWhile (· ≤ t)).map (2 ^ ·)).sum

/-- A member with `n` things has its turns: the empty ones before it are an even number each time, or no one else has
anything left. -/
def HasTurns (n : ℕ) (l : List ℕ) : Prop := ∀ t < n, (∃ s ∈ l, t + 2 ≤ s) → 2 ^ (t + 1) ∣ emptied t l

/-- Every member of the ring has its turns. -/
def TurnsKept (ns : List ℕ) : Prop := ∀ i : Fin ns.length, HasTurns ns[i] (around (ns.take i) (ns.drop (i + 1)))

instance (n : ℕ) (l : List ℕ) : Decidable (HasTurns n l) :=
  inferInstanceAs (Decidable (∀ t < n, (∃ s ∈ l, t + 2 ≤ s) → 2 ^ (t + 1) ∣ emptied t l))

instance (ns : List ℕ) : Decidable (TurnsKept ns) :=
  inferInstanceAs (Decidable (∀ i : Fin ns.length, HasTurns ns[i] (around (ns.take i) (ns.drop (i + 1)))))

theorem turnsKept_iff_split {ns : List ℕ} :
    TurnsKept ns ↔ ∀ before n after, ns = before ++ n :: after → HasTurns n (around before after) := by
  constructor
  · rintro h before n after rfl
    have hi : before.length < (before ++ n :: after).length := by
      rw [List.length_append, List.length_cons]
      omega
    have hturns := h ⟨before.length, hi⟩
    simp only [Fin.getElem_fin, List.getElem_append_right le_rfl, Nat.sub_self, List.getElem_cons_zero, List.take_left,
      List.drop_length_add_append, List.drop_one, List.tail_cons] at hturns
    exact hturns
  · intro h i
    refine h _ _ _ ?_
    rw [Fin.getElem_fin, List.getElem_cons_drop, List.take_append_drop]

theorem emptied_append_singleton (t : ℕ) (l : List ℕ) (s : ℕ) :
    emptied t (l ++ [s]) = if s ≤ t then emptied t l + 2 ^ s else 0 := by
  unfold emptied
  rw [List.rtakeWhile_concat]
  simp only [decide_eq_true_eq]
  split_ifs
  · rw [List.map_append, List.sum_append, List.map_singleton, List.sum_singleton]
  · rfl

/-- One more turn each. -/
theorem emptied_map_succ (t : ℕ) (l : List ℕ) : emptied (t + 1) (l.map (· + 1)) = 2 * emptied t l := by
  induction l using List.reverseRecOn with
  | nil => rfl
  | append_singleton l s ih =>
    rw [List.map_append, List.map_singleton, emptied_append_singleton, emptied_append_singleton, ih]
    split_ifs
    · rw [Nat.pow_succ]
      omega
    · omega
    · omega
    · rfl

/-- Those that come after a member are not empty at its first turn. -/
theorem emptied_zero_map_succ (l : List ℕ) : emptied 0 (l.map (· + 1)) = 0 := by
  induction l using List.reverseRecOn with
  | nil => rfl
  | append_singleton l s ih =>
    rw [List.map_append, List.map_singleton, emptied_append_singleton, if_neg (Nat.not_succ_le_zero s)]

/-- **Two empty ones** in a row are one that is empty a turn later. -/
theorem emptied_zero_zero (t : ℕ) (after before : List ℕ) :
    emptied t (after.map (· + 1) ++ 0 :: 0 :: before) ≡ emptied t (after.map (· + 1) ++ 1 :: before)
      [MOD 2 ^ (t + 1)] := by
  induction before using List.reverseRecOn with
  | nil =>
    rw [show after.map (· + 1) ++ [0, 0] = after.map (· + 1) ++ [0] ++ [0] from List.append_cons ..,
      emptied_append_singleton, emptied_append_singleton, emptied_append_singleton, if_pos t.zero_le, if_pos t.zero_le]
    cases t with
    | zero =>
      rw [emptied_zero_map_succ]
      rfl
    | succ t =>
      rw [if_pos (Nat.succ_le_succ t.zero_le)]
      exact congrArg (· % _) (Nat.add_assoc ..)
  | append_singleton before s ih =>
    have hsplit : ∀ l, after.map (· + 1) ++ (l ++ before ++ [s]) = after.map (· + 1) ++ (l ++ before) ++ [s] := fun l =>
      (List.append_assoc ..).symm
    have htwo := hsplit [0, 0]
    have hone := hsplit [1]
    simp only [List.cons_append, List.nil_append] at htwo hone
    rw [htwo, hone, emptied_append_singleton, emptied_append_singleton]
    split_ifs
    · exact ih.add_right _
    · rfl

/-! A turn does not change who has its turns. -/

theorem hasTurns_zero (l : List ℕ) : HasTurns 0 l := fun t ht => absurd ht t.not_lt_zero

theorem hasTurns_succ_map_succ (n : ℕ) (l : List ℕ) : HasTurns (n + 1) (l.map (· + 1)) ↔ HasTurns n l := by
  have hleft : ∀ t, (∃ s ∈ l.map (· + 1), t + 1 + 2 ≤ s) ↔ ∃ s ∈ l, t + 2 ≤ s := fun t => by
    simp only [List.mem_map, exists_exists_and_eq_and]
    refine exists_congr fun s => and_congr_right fun _ => ?_
    omega
  constructor
  · intro h t ht hother
    have hdvd := h (t + 1) (Nat.succ_lt_succ ht) ((hleft t).2 hother)
    rw [emptied_map_succ, Nat.pow_succ', Nat.mul_dvd_mul_iff_left Nat.two_pos] at hdvd
    exact hdvd
  · intro h t ht hother
    cases t with
    | zero =>
      rw [emptied_zero_map_succ]
      exact dvd_zero _
    | succ t =>
      rw [emptied_map_succ, Nat.pow_succ', Nat.mul_dvd_mul_iff_left Nat.two_pos]
      exact h t (Nat.lt_of_succ_lt_succ ht) ((hleft t).1 hother)

theorem hasTurns_zero_zero (n : ℕ) (after before : List ℕ) :
    HasTurns n (after.map (· + 1) ++ 0 :: 0 :: before) ↔ HasTurns n (after.map (· + 1) ++ 1 :: before) := by
  refine forall_congr' fun t => forall_congr' fun _ => imp_congr ?_ ?_
  · simp only [List.mem_append, List.mem_cons]
    refine exists_congr fun s => and_congr_left fun hle => or_congr_right ?_
    constructor
    · rintro (rfl | rfl | hmem)
      · cases hle
      · cases hle
      · exact .inr hmem
    · rintro (rfl | hmem)
      · omega
      · exact .inr (.inr hmem)
  · exact (emptied_zero_zero t after before).dvd_iff dvd_rfl

theorem turnsKept_cons {n : ℕ} {ns : List ℕ} :
    TurnsKept (n :: ns) ↔ HasTurns n (ns.map (· + 1)) ∧
      ∀ before m after, ns = before ++ m :: after → HasTurns m (around (n :: before) after) := by
  rw [turnsKept_iff_split]
  constructor
  · intro h
    refine ⟨?_, fun before m after heq => h (n :: before) m after (congrArg _ heq)⟩
    have hfirst := h [] n ns rfl
    rwa [around, List.append_nil] at hfirst
  · rintro ⟨hfirst, h⟩ before m after heq
    rcases List.cons_eq_append_iff.1 heq with ⟨rfl, heq⟩ | ⟨rest, rfl, heq⟩
    · obtain ⟨rfl, rfl⟩ := List.cons.inj heq
      rwa [around, List.append_nil]
    · exact h rest m after (List.cons.inj heq).2

theorem turnsKept_append_singleton {n : ℕ} {ns : List ℕ} :
    TurnsKept (ns ++ [n]) ↔ HasTurns n ns ∧
      ∀ before m after, ns = before ++ m :: after → HasTurns m (around before (after ++ [n])) := by
  rw [turnsKept_iff_split]
  constructor
  · intro h
    refine ⟨h ns n [] rfl, fun before m after heq => h before m (after ++ [n]) ?_⟩
    rw [heq, List.append_assoc, List.cons_append]
  · rintro ⟨hlast, h⟩ before m after heq
    rcases List.eq_nil_or_concat after with rfl | ⟨after, x, rfl⟩
    · obtain ⟨rfl, hlast'⟩ := List.append_inj' heq rfl
      obtain rfl := List.singleton_injective hlast'
      exact hlast
    · rw [List.concat_eq_append, ← List.cons_append, ← List.append_assoc] at heq
      obtain ⟨rfl, hlast'⟩ := List.append_inj' heq rfl
      obtain rfl := List.singleton_injective hlast'
      rw [List.concat_eq_append]
      exact h before m after rfl

/-- The first one gives. -/
theorem turnsKept_succ (n : ℕ) (ns : List ℕ) : TurnsKept ((n + 1) :: ns) ↔ TurnsKept (ns ++ [n]) := by
  rw [turnsKept_cons, turnsKept_append_singleton, hasTurns_succ_map_succ]
  refine and_congr_right fun _ => forall_congr' fun before => forall_congr' fun m => forall_congr' fun after => ?_
  rw [around, around, List.map_append, List.append_assoc]
  rfl

/-- The first one leaves the ring, and one that is empty as well loses its turn. -/
theorem turnsKept_zero_zero (ns : List ℕ) : TurnsKept (0 :: 0 :: ns) ↔ TurnsKept (ns ++ [0]) := by
  rw [turnsKept_cons, turnsKept_append_singleton, iff_true_intro (hasTurns_zero _), iff_true_intro (hasTurns_zero _)]
  constructor
  · intro h
    refine ⟨trivial, fun before m after heq => ?_⟩
    rw [around, List.map_append, List.append_assoc]
    exact (hasTurns_zero_zero m after before).1 (h.2 (0 :: before) m after (congrArg _ heq))
  · rintro ⟨-, h⟩
    refine ⟨trivial, fun before m after heq => ?_⟩
    rcases List.cons_eq_append_iff.1 heq with ⟨rfl, heq⟩ | ⟨rest, rfl, heq⟩
    · obtain ⟨rfl, rfl⟩ := List.cons.inj heq
      exact hasTurns_zero _
    · have hrest := h rest m after (List.cons.inj heq).2
      rw [around, List.map_append, List.append_assoc] at hrest
      exact (hasTurns_zero_zero m after rest).2 hrest

/-- The first one leaves the ring, and one with something left loses its turn. -/
theorem turnsKept_zero_succ (n : ℕ) (ns : List ℕ) : TurnsKept (0 :: (n + 1) :: ns) ↔ ∀ m ∈ ns, m = 0 := by
  rw [turnsKept_iff_split]
  constructor
  · intro h m hm
    by_contra hne
    have hdvd := h [0] (n + 1) ns rfl 0 n.succ_pos
      ⟨m + 1, List.mem_append_left _ (List.mem_map_of_mem hm), by omega⟩
    rw [around, emptied_append_singleton, if_pos le_rfl, emptied_zero_map_succ] at hdvd
    omega
  · rintro h before m after heq t ht ⟨s, hs, hle⟩
    -- only the one that loses its turn has anything left, and sees the others empty
    have hzero : ∀ x ∈ before ++ after, x = 0 := by
      rcases List.cons_eq_append_iff.1 heq with ⟨-, hfirst⟩ | ⟨rest, rfl, hrest⟩
      · obtain ⟨rfl, -⟩ := List.cons.inj hfirst
        exact absurd ht t.not_lt_zero
      rcases List.cons_eq_append_iff.1 hrest with ⟨rfl, hsecond⟩ | ⟨rest, rfl, rfl⟩
      · obtain ⟨rfl, rfl⟩ := List.cons.inj hsecond
        exact List.forall_mem_cons.2 ⟨rfl, h⟩
      · obtain rfl := h m (List.mem_append_right _ (List.mem_cons_self ..))
        exact absurd ht t.not_lt_zero
    rcases List.mem_append.1 hs with hmem | hmem
    · obtain ⟨x, hx, rfl⟩ := List.mem_map.1 hmem
      have := hzero x (List.mem_append_right _ hx)
      omega
    · have := hzero s (List.mem_append_left _ hmem)
      omega

omit [DecidableEq ι] in
theorem noneLost_gives {d : ι} {ts : List (Turn ι)} : NoneLost (.gives d :: ts) ↔ NoneLost ts := by
  constructor
  · intro h before d' n after heq
    exact h (.gives d :: before) d' n after (congrArg _ heq)
  · rintro h before d' n after heq
    rcases List.cons_eq_append_iff.1 heq with ⟨-, hfirst⟩ | ⟨before, rfl, hrest⟩
    · cases (List.cons.inj hfirst).1
    · exact h before d' n after hrest

omit [DecidableEq ι] in
theorem noneLost_loses {d : ι} {n : ℕ} {ts : List (Turn ι)} :
    NoneLost (.loses d n :: ts) ↔ (0 < n → ∀ d', .gives d' ∈ ts → d' = d) ∧ NoneLost ts := by
  constructor
  · intro h
    refine ⟨fun hn d' hd' => ?_, fun before d' m after heq => h (.loses d n :: before) d' m after (congrArg _ heq)⟩
    obtain ⟨n, rfl⟩ := Nat.exists_eq_add_one.2 hn
    exact h [] d n ts rfl d' hd'
  · rintro ⟨hfirst, h⟩ before d' m after heq
    rcases List.cons_eq_append_iff.1 heq with ⟨rfl, heq'⟩ | ⟨before, rfl, hrest⟩
    · obtain ⟨hloses, rfl⟩ := List.cons.inj heq'
      obtain ⟨rfl, rfl⟩ := Turn.loses.inj hloses
      exact hfirst m.succ_pos
    · exact h before d' m after hrest

/-- Where one member has all that is left, no one else gives or loses anything. -/
theorem noneLost_of_gives {d : ι} (hnodup : (ring.map Prod.fst).Nodup) (h : ∀ d', .gives d' ∈ turns ring → d' = d) :
    NoneLost (turns ring) := by
  intro before d' n after heq d'' hd''
  have hloser : d' = d := by
    refine h d' ?_
    rw [heq]
    exact List.mem_append_right _ (List.mem_cons_of_mem _ (gives_later hnodup heq))
  have hgiver : d'' = d := by
    refine h d'' ?_
    rw [heq]
    exact List.mem_append_right _ (List.mem_cons_of_mem _ hd'')
  rw [hloser, hgiver]

/-- **No turn is lost** exactly with such numbers. -/
theorem turnsKept_iff (hnodup : (ring.map Prod.fst).Nodup) :
    TurnsKept (ring.map Prod.snd) ↔ NoneLost (turns ring) := by
  induction ring using turns.induct with
  | case1 =>
    rw [turns]
    exact iff_of_true (fun i => i.elim0) fun before d n after heq => by simp at heq
  | case2 d n ring ih =>
    have hnodup' : ((ring ++ [(d, n)]).map Prod.fst).Nodup := by
      rw [List.map_append, List.map_singleton]
      exact (List.perm_append_singleton d _).nodup_iff.2 hnodup
    rw [turns, noneLost_gives, ← ih hnodup', List.map_cons, turnsKept_succ, List.map_append, List.map_singleton]
  | case3 x =>
    rw [turns]
    refine iff_of_true ?_ fun before d n after heq => by simp at heq
    exact (turnsKept_cons.2 ⟨hasTurns_zero _, fun before m after heq => by simp at heq⟩ : TurnsKept [0])
  | case4 x d n ring ih =>
    have hnodup' : ((ring ++ [(d, n)]).map Prod.fst).Nodup := by
      rw [List.map_append, List.map_singleton]
      exact (List.perm_append_singleton d _).nodup_iff.2 (List.nodup_cons.1 hnodup).2
    rw [turns, noneLost_loses, List.map_cons, List.map_cons]
    cases n with
    | zero =>
      rw [turnsKept_zero_zero, ← ih hnodup', List.map_append, List.map_singleton]
      exact (and_iff_right fun h => absurd h (Nat.lt_irrefl 0)).symm
    | succ n =>
      rw [turnsKept_zero_succ]
      have hgivers : (∀ d', .gives d' ∈ turns (ring ++ [(d, n + 1)]) → d' = d) ↔ ∀ m ∈ ring.map Prod.snd, m = 0 := by
        simp only [gives_mem_turns, List.forall_mem_map]
        constructor
        · rintro h ⟨d', m⟩ hmem
          by_contra hm
          obtain ⟨m, rfl⟩ := Nat.exists_eq_succ_of_ne_zero hm
          obtain rfl := h d' ⟨m, List.mem_append_left _ hmem⟩
          exact (List.nodup_cons.1 (List.nodup_cons.1 hnodup).2).1 (List.mem_map.2 ⟨_, hmem, rfl⟩)
        · rintro h d' ⟨m, hmem⟩
          rcases List.mem_append.1 hmem with hring | hlast
          · cases h _ hring
          · exact (Prod.mk.inj (List.mem_singleton.1 hlast)).1
      rw [← hgivers]
      exact ⟨fun h => ⟨fun _ => h, noneLost_of_gives hnodup' h⟩, fun h => h.1 n.succ_pos⟩

omit [DecidableEq ι] in
theorem noneLeftOut_of_noneLost {ts : List (Turn ι)} (h : NoneLost ts) : NoneLeftOut ts := by
  intro before c between after heq hc d hd n hloses
  obtain ⟨between₁, between₂, rfl⟩ := List.append_of_mem hloses
  refine absurd (h (before ++ .gives c :: between₁) d n (between₂ ++ .gives c :: after) ?_ c
    (List.mem_append_right _ (List.mem_cons_self ..))) hd.symm
  rw [heq]
  simp only [List.append_assoc, List.cons_append]

/-- **The turns are fair** where no one loses one. -/
theorem fair_of_turnsKept (hnodup : (ring.map Prod.fst).Nodup) (h : TurnsKept (ring.map Prod.snd)) :
    Fair (givers (turns ring)) :=
  (fair_iff hnodup).2 (noneLeftOut_of_noneLost ((turnsKept_iff hnodup).1 h))

/-! ## What is given -/

variable {α : Type*}

/-- The things that the members of a ring give, with their givers. -/
def served : List (ι × List α) → List (ι × α)
  | [] => []
  | (d, x :: xs) :: ring => (d, x) :: served (ring ++ [(d, xs)])
  | (_, []) :: ring => served (ring.rotate 1)
termination_by ring => (ring.map fun p => p.2.length + 1).sum
decreasing_by
  · simp only [List.map_append, List.map_cons, List.map_nil, List.sum_append, List.sum_cons, List.sum_nil,
      List.length_cons]
    omega
  · rw [((ring.rotate_perm 1).map _).sum_eq, List.map_cons, List.sum_cons]
    omega

omit [DecidableEq ι] in
/-- They are given in turn. -/
theorem map_fst_served (ring : List (ι × List α)) :
    (served ring).map Prod.fst = givers (turns (ring.map fun p => (p.1, p.2.length))) := by
  induction ring using served.induct with
  | case1 =>
    rw [served, List.map_nil, List.map_nil, turns]
    rfl
  | case2 d x xs ring ih =>
    rw [served, List.map_cons, ih, List.map_cons, List.map_append]
    dsimp only
    rw [List.length_cons, turns, givers_cons]
    rfl
  | case3 d ring ih =>
    rw [served, ih]
    match ring with
    | [] =>
      have hlast : turns [(d, 0)] = [] := by rw [turns]
      rw [List.rotate_nil, List.map_nil, turns]
      exact congrArg givers hlast.symm
    | (d', xs) :: ring =>
      have hskip : ∀ ring', turns ((d, 0) :: (d', xs.length) :: ring') =
          .loses d' xs.length :: turns (ring' ++ [(d', xs.length)]) := fun ring' => by rw [turns]
      rw [List.rotate_cons_succ, List.rotate_zero, List.map_append]
      exact (congrArg givers (hskip _)).symm

/-- What a member of the ring has. -/
def queueOf (ring : List (ι × List α)) (d : ι) : List α := (ring.filter (·.1 = d)).flatMap Prod.snd

theorem queueOf_cons (d d' : ι) (xs : List α) (ring : List (ι × List α)) :
    queueOf ((d, xs) :: ring) d' = (if d = d' then xs else []) ++ queueOf ring d' := by
  unfold queueOf
  by_cases h : d = d'
  · rw [List.filter_cons_of_pos (by simpa using h), if_pos h, List.flatMap_cons]
  · rw [List.filter_cons_of_neg (by simpa using h), if_neg h, List.nil_append]

theorem queueOf_append (ring ring' : List (ι × List α)) (d : ι) :
    queueOf (ring ++ ring') d = queueOf ring d ++ queueOf ring' d := by
  unfold queueOf
  rw [List.filter_append, List.flatMap_append]

/-- One that is not in the ring has nothing. -/
theorem queueOf_eq_nil {ring : List (ι × List α)} {d : ι} (h : d ∉ ring.map Prod.fst) : queueOf ring d = [] := by
  unfold queueOf
  rw [List.filter_eq_nil_iff.2, List.flatMap_nil]
  intro p hp heq
  exact h (of_decide_eq_true heq ▸ List.mem_map_of_mem hp)

/-- Where the members are different ones, a member has what stands with it. -/
theorem queueOf_of_mem {ring : List (ι × List α)} {d : ι} {xs : List α} (hnodup : (ring.map Prod.fst).Nodup)
    (h : (d, xs) ∈ ring) : queueOf ring d = xs := by
  induction ring with
  | nil => cases h
  | cons p ring ih =>
    obtain ⟨d', ys⟩ := p
    obtain ⟨hnot, hring⟩ := List.nodup_cons.1 hnodup
    rw [queueOf_cons]
    rcases List.mem_cons.1 h with heq | hmem
    · obtain ⟨rfl, rfl⟩ := Prod.mk.inj heq
      rw [if_pos rfl, queueOf_eq_nil hnot, List.append_nil]
    · have hne : d' ≠ d := by
        rintro rfl
        exact hnot (List.mem_map.2 ⟨_, hmem, rfl⟩)
      rw [if_neg hne, List.nil_append]
      exact ih hring hmem

/-- Their places do not matter. -/
theorem queueOf_rotate {ring : List (ι × List α)} (hnodup : (ring.map Prod.fst).Nodup) (n : ℕ) (d : ι) :
    queueOf (ring.rotate n) d = queueOf ring d := by
  have hnodup' : ((ring.rotate n).map Prod.fst).Nodup := by
    rw [List.map_rotate]
    exact List.nodup_rotate.2 hnodup
  by_cases hd : d ∈ ring.map Prod.fst
  · obtain ⟨⟨d, xs⟩, hmem, rfl⟩ := List.mem_map.1 hd
    rw [queueOf_of_mem hnodup hmem, queueOf_of_mem hnodup' (List.mem_rotate.2 hmem)]
  · rw [queueOf_eq_nil hd, queueOf_eq_nil]
    rw [List.map_rotate, List.mem_rotate]
    exact hd

/-- **All that a member has is given**, in its order. -/
theorem filter_served {ring : List (ι × List α)} (hnodup : (ring.map Prod.fst).Nodup) (d : ι) :
    ((served ring).filter (·.1 = d)).map Prod.snd = queueOf ring d := by
  induction ring using served.induct with
  | case1 =>
    rw [served]
    rfl
  | case2 d' x xs ring ih =>
    obtain ⟨hnot, hring⟩ := List.nodup_cons.1 hnodup
    have hnodup' : ((ring ++ [(d', xs)]).map Prod.fst).Nodup := by
      rw [List.map_append, List.map_cons, List.map_nil]
      exact (List.perm_append_singleton d' _).nodup_iff.2 hnodup
    rw [served, queueOf_cons]
    by_cases h : d' = d
    · rw [List.filter_cons_of_pos (by simpa using h), List.map_cons, ih hnodup', queueOf_append, if_pos h,
        queueOf_eq_nil (h ▸ hnot), queueOf_cons, if_pos h]
      exact rfl
    · rw [List.filter_cons_of_neg (by simpa using h), ih hnodup', queueOf_append, if_neg h, queueOf_cons, if_neg h]
      exact List.append_nil _
  | case3 d' ring ih =>
    have hring := (List.nodup_cons.1 hnodup).2
    rw [served, ih, queueOf_rotate hring, queueOf_cons]
    · split_ifs <;> rfl
    · rw [List.map_rotate]
      exact List.nodup_rotate.2 hring

end Libtarp.Lib
