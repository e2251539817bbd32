import Libtarp.Strings.Find

/-!
# Splitting and joining strings (`string_utils.cxx`, `string_utils.hxx`)

`split` goes on one character behind the place where a separator begins, however long the separator is, and makes no
token of what is behind a separator at the end.

* `split_eq`: the tokens, by the places of the separators.
* `splits_right_iff`: they can be joined again if the separator does not occur, or is a single character that the string
  does not end with.
-/

namespace Libtarp.Strings

open Lib

variable {α : Type} [DecidableEq α]

/-- `find_split_points`. -/
def findSplitPoints (s sep : List α) : List ℕ := findNeedlePositions s sep

/-- The loop of `split` over the separators. -/
def splitLoop (s : List α) (dropEmptyTokens : Bool) :
    List ℕ → List (List α) → ℕ → Except Thrown (List (List α) × ℕ)
  | [], tokens, idx => .ok (tokens, idx)
  | splitPos :: positions, tokens, idx =>
    if idx ≥ s.length then .ok (tokens, idx)
    else
      let substringLen := sizeSub splitPos idx
      if dropEmptyTokens = false ∨ substringLen > 0 then
        match substr s idx substringLen with
        | .error e => .error e
        | .ok token => splitLoop s dropEmptyTokens positions (tokens ++ [token]) (splitPos + 1)
      else splitLoop s dropEmptyTokens positions tokens (splitPos + 1)

/-- The end of `split`: what follows the last split point. -/
def splitLast (s : List α) (tokens : List (List α)) (idx : ℕ) : Except Thrown (List (List α)) :=
  if idx < s.length then
    match substr s idx (sizeSub s.length idx) with
    | .error e => .error e
    | .ok token => .ok (tokens ++ [token])
  else .ok tokens

/-- `split`. -/
def split (s sep : List α) (dropEmptyTokens : Bool) : Except Thrown (List (List α)) :=
  match splitLoop s dropEmptyTokens (findSplitPoints s sep) [] 0 with
  | .error e => .error e
  | .ok (tokens, idx) => splitLast s tokens idx

/-- One round of `join`. -/
def joinStep (sep : List α) (len : ℕ) (result : List α) (entry : List α × ℕ) : List α :=
  let result := result ++ entry.1
  if entry.2 < sizeSub len 1 then result ++ sep else result

/-- `join`. -/
def join (tokens : List (List α)) (sep : List α) : List α :=
  tokens.zipIdx.foldl (joinStep sep tokens.length) []

/-- What `split` makes of a string with separators at some places. -/
def fields (s : List α) : ℕ → List ℕ → List (List α)
  | idx, [] => if idx < s.length then [s.drop idx] else []
  | idx, p :: ps => (s.take p).drop idx :: fields s (p + 1) ps

variable {s sep : List α} {idx : ℕ} {ps : List ℕ}

/-! ## The tokens -/

omit [DecidableEq α] in
theorem splitLoop_fields (hsorted : ps.Pairwise (· < ·)) (hidx : ∀ p ∈ ps, idx ≤ p) (hlt : ∀ p ∈ ps, p < s.length)
    (tokens : List (List α)) :
    ∃ tokens' idx', splitLoop s false ps tokens idx = .ok (tokens', idx') ∧
      splitLast s tokens' idx' = .ok (tokens ++ fields s idx ps) := by
  induction ps generalizing idx tokens with
  | nil =>
    refine ⟨tokens, idx, rfl, ?_⟩
    unfold splitLast fields
    split_ifs with hend
    · rw [sizeSub_of_le hend.le, substr_ok hend.le]
      dsimp only
      rw [List.take_of_length_le (List.length_drop ..).le]
    · rw [List.append_nil]
  | cons p ps ih =>
    obtain ⟨hp, hps⟩ := List.pairwise_cons.1 hsorted
    have hle := hidx p List.mem_cons_self
    have hin := hlt p List.mem_cons_self
    have hnext : ∀ q ∈ ps, p + 1 ≤ q := hp
    obtain ⟨tokens', idx', hloop, hlast⟩ := ih hps hnext (fun q hq => hlt q (List.mem_cons_of_mem _ hq))
      (tokens ++ [(s.take p).drop idx])
    refine ⟨tokens', idx', ?_, ?_⟩
    · rw [splitLoop, if_neg (by omega), if_pos (.inl rfl), sizeSub_of_le hle, substr_ok (by omega)]
      dsimp only
      rw [← List.drop_take, hloop]
    · rw [hlast, fields, List.append_assoc]
      rfl

/-- **The tokens of `split`.** -/
theorem split_eq (hsep : sep ≠ []) : split s sep false = .ok (fields s 0 (occurrences sep s)) := by
  obtain ⟨tokens, idx, hloop, hlast⟩ := splitLoop_fields (occurrences_sorted sep s) (fun _ _ => Nat.zero_le _)
    (fun p hp => (mem_occurrences.1 hp).1) []
  unfold split findSplitPoints
  rw [findNeedlePositions_eq hsep, hloop]
  exact hlast

omit [DecidableEq α] in
theorem fields_eq_nil_iff : fields s idx ps = [] ↔ ps = [] ∧ s.length ≤ idx := by
  cases ps with
  | nil =>
    unfold fields
    split_ifs with hend
    · simp [hend]
    · simpa using hend
  | cons p ps => simp [fields]

/-- **No token contains a separator**, if the string is cut at every one. -/
theorem fields_free (hsep : sep ≠ []) (hsorted : ps.Pairwise (· < ·)) (hidx : ∀ p ∈ ps, idx ≤ p)
    (hall : ∀ q ∈ occurrences sep s, idx ≤ q → q ∈ ps) : ∀ token ∈ fields s idx ps, ¬sep <:+: token := by
  induction ps generalizing idx with
  | nil =>
    intro token htoken hinfix
    unfold fields at htoken
    split_ifs at htoken
    · rw [List.mem_singleton.1 htoken] at hinfix
      have hwhole : s.drop idx = (s.take s.length).drop idx := by rw [List.take_length]
      obtain ⟨q, hq, hle, -⟩ := exists_mem_of_infix_part hsep (hwhole ▸ hinfix)
      exact List.not_mem_nil (hall q hq hle)
    · cases htoken
  | cons p ps ih =>
    obtain ⟨hp, hps⟩ := List.pairwise_cons.1 hsorted
    refine List.forall_mem_cons.2 ⟨fun hinfix => ?_, ih hps hp fun q hq hle => ?_⟩
    · -- `p` is the first place from `idx` on, so no separator begins in front of it
      obtain ⟨q, hq, hle, hlt⟩ := exists_mem_of_infix_part hsep hinfix
      rcases List.mem_cons.1 (hall q hq hle) with rfl | hlater
      · exact lt_irrefl _ hlt
      · exact lt_asymm hlt (hp q hlater)
    · have hpidx := hidx p List.mem_cons_self
      exact (List.mem_cons.1 (hall q hq (by omega))).resolve_left (by omega)

/-! ## Joining them -/

omit [DecidableEq α] in
theorem foldl_joinStep (sep : List α) (tokens : List (List α)) (result : List α) {k len : ℕ}
    (hlen : k + tokens.length = len) :
    (tokens.zipIdx k).foldl (joinStep sep len) result = result ++ sep.intercalate tokens := by
  induction tokens generalizing result k with
  | nil => exact (List.append_nil _).symm
  | cons token tokens ih =>
    rw [List.length_cons] at hlen
    rw [List.zipIdx_cons, List.foldl_cons, ih _ (by omega), joinStep, sizeSub_of_le (by omega)]
    dsimp only
    cases tokens with
    | nil =>
      have hlast : ¬k < len - 1 := by
        rw [List.length_nil] at hlen
        omega
      rw [if_neg hlast]
      simp [List.intercalate]
    | cons token' tokens =>
      have hmore : k < len - 1 := by
        rw [List.length_cons] at hlen
        omega
      rw [if_pos hmore]
      simp [List.intercalate]

omit [DecidableEq α] in
/-- `join` puts a separator between any two tokens. -/
theorem join_eq (tokens : List (List α)) (sep : List α) : join tokens sep = sep.intercalate tokens := by
  unfold join
  rw [foldl_joinStep sep tokens [] (Nat.zero_add _), List.nil_append]

omit [DecidableEq α] in
theorem intercalate_cons (sep token : List α) {tokens : List (List α)} (h : tokens ≠ []) :
    sep.intercalate (token :: tokens) = token ++ sep ++ sep.intercalate tokens := by
  obtain ⟨token', tokens', rfl⟩ := List.exists_cons_of_ne_nil h
  simp [List.intercalate]

omit [DecidableEq α] in
/-- How long the joined tokens are, if there is something behind the last separator. -/
theorem intercalate_fields_length (hidx : idx < s.length) (hsorted : ps.Pairwise (· < ·)) (hle : ∀ p ∈ ps, idx ≤ p)
    (hlt : ∀ p ∈ ps, p + 1 < s.length) :
    (sep.intercalate (fields s idx ps)).length + ps.length + idx = s.length + ps.length * sep.length := by
  induction ps generalizing idx with
  | nil =>
    unfold fields
    rw [if_pos hidx]
    simp [List.intercalate]
    omega
  | cons p ps ih =>
    obtain ⟨hp, hps⟩ := List.pairwise_cons.1 hsorted
    have hpidx := hle p List.mem_cons_self
    have hpin := hlt p List.mem_cons_self
    have hlen := ih hpin hps hp fun q hq => hlt q (List.mem_cons_of_mem _ hq)
    have hne : fields s (p + 1) ps ≠ [] := fun hnil => absurd (fields_eq_nil_iff.1 hnil).2 (by omega)
    rw [fields, intercalate_cons _ _ hne]
    simp only [List.length_append, List.length_drop, List.length_take, List.length_cons, Nat.succ_mul]
    omega

omit [DecidableEq α] in
/-- A string that ends with a separator of one character loses it. -/
theorem intercalate_fields_end (hsorted : ps.Pairwise (· < ·)) (hle : ∀ p ∈ ps, idx ≤ p)
    (hlt : ∀ p ∈ ps, p < s.length) (hone : sep.length = 1) (hend : ∃ p ∈ ps, p + 1 = s.length) :
    (sep.intercalate (fields s idx ps)).length + 1 + idx = s.length := by
  induction ps generalizing idx with
  | nil =>
    obtain ⟨p, hp, -⟩ := hend
    cases hp
  | cons p ps ih =>
    obtain ⟨hp, hps⟩ := List.pairwise_cons.1 hsorted
    have hpidx := hle p List.mem_cons_self
    have hpin := hlt p List.mem_cons_self
    have hlt' : ∀ q ∈ ps, q < s.length := fun q hq => hlt q (List.mem_cons_of_mem _ hq)
    obtain ⟨q, hq, hqend⟩ := hend
    rcases List.mem_cons.1 hq with rfl | hlater
    · -- nothing can come behind it
      have hnil : ps = [] := List.eq_nil_iff_forall_not_mem.2 fun r hr => by
        have hrlt := hp r hr
        have hrin := hlt' r hr
        omega
      have hlast : fields s (q + 1) ps = [] := fields_eq_nil_iff.2 ⟨hnil, by omega⟩
      rw [fields, hlast]
      simp [List.intercalate]
      omega
    · have hne : fields s (p + 1) ps ≠ [] := fun hnil => List.ne_nil_of_mem hlater (fields_eq_nil_iff.1 hnil).1
      have hnext : ∀ q ∈ ps, p + 1 ≤ q := hp
      have hlen := ih hps hnext hlt' ⟨q, hlater, hqend⟩
      rw [fields, intercalate_cons _ _ hne]
      simp only [List.length_append, List.length_drop, List.length_take]
      omega

omit [DecidableEq α] in
/-- What is cut at single characters is whole again when they are put back. -/
theorem intercalate_fields_single {c : α} (hidx : idx ≤ s.length) (hsorted : ps.Pairwise (· < ·))
    (hle : ∀ p ∈ ps, idx ≤ p) (hlt : ∀ p ∈ ps, p + 1 < s.length) (hc : ∀ p ∈ ps, s[p]? = some c) :
    [c].intercalate (fields s idx ps) = s.drop idx := by
  induction ps generalizing idx with
  | nil =>
    unfold fields
    split_ifs with hend
    · simp [List.intercalate]
    · exact (List.drop_of_length_le (Nat.not_lt.1 hend)).symm
  | cons p ps ih =>
    obtain ⟨hp, hps⟩ := List.pairwise_cons.1 hsorted
    obtain ⟨hcp, hcps⟩ := List.forall_mem_cons.1 hc
    have hpidx := hle p List.mem_cons_self
    have hpin := hlt p List.mem_cons_self
    have hne : fields s (p + 1) ps ≠ [] := fun hnil => absurd (fields_eq_nil_iff.1 hnil).2 (by omega)
    have hdrop : s.drop p = c :: s.drop (p + 1) := by
      obtain ⟨hin, hget⟩ := List.getElem?_eq_some_iff.1 hcp
      rw [List.drop_eq_getElem_cons hin, hget]
    have hcut : s.drop idx = (s.take p).drop idx ++ s.drop p := by
      have happend : s.drop idx = (s.take p ++ s.drop p).drop idx := by rw [List.take_append_drop]
      rw [happend, List.drop_append_of_le_length]
      rw [List.length_take]
      omega
    rw [fields, intercalate_cons _ _ hne, ih hpin.le hps hp (fun q hq => hlt q (List.mem_cons_of_mem _ hq)) hcps,
      hcut, hdrop, List.append_assoc]
    rfl

/-- `split` cuts the string at every separator, and `join` makes it whole again. -/
def SplitsRight (s sep : List α) : Prop :=
  ∃ tokens, split s sep false = .ok tokens ∧ join tokens sep = s ∧ ∀ token ∈ tokens, ¬sep <:+: token

theorem splitsRight_iff_intercalate (hsep : sep ≠ []) :
    SplitsRight s sep ↔ sep.intercalate (fields s 0 (occurrences sep s)) = s := by
  have hfree := fields_free hsep (occurrences_sorted sep s) (fun _ _ => Nat.zero_le _) fun _ hq _ => hq
  unfold SplitsRight
  rw [split_eq hsep]
  constructor
  · rintro ⟨tokens, htokens, hjoin, -⟩
    rw [← join_eq, Except.ok.inj htokens]
    exact hjoin
  · intro hjoin
    exact ⟨_, rfl, (join_eq ..).trans hjoin, hfree⟩

/-- **Splitting and joining** gives the string back exactly if the separator does not occur in it, or is a single
character that it does not end with. -/
theorem splits_right_iff (hsep : sep ≠ []) :
    SplitsRight s sep ↔ ¬sep <:+: s ∨ sep.length = 1 ∧ ¬sep <:+ s := by
  have hpos := List.length_pos_iff.2 hsep
  have hsorted := occurrences_sorted sep s
  have hin : ∀ p ∈ occurrences sep s, p < s.length := fun p hp => (mem_occurrences.1 hp).1
  rw [splitsRight_iff_intercalate hsep]
  constructor
  · intro hjoin
    by_contra hnot
    obtain ⟨hoccurs, hends⟩ := not_or.1 hnot
    have hne : occurrences sep s ≠ [] := mt (occurrences_eq_nil_iff hsep).1 hoccurs
    -- both failures show in the length of what is joined again
    have hlen := congrArg List.length hjoin
    by_cases hone : sep.length = 1
    · have hsuffix : sep <:+ s := not_not.1 fun hno => hends ⟨hone, hno⟩
      obtain ⟨p, hp, hpend⟩ := (suffix_iff_mem hsep).1 hsuffix
      have hlost := intercalate_fields_end hsorted (fun _ _ => Nat.zero_le _) hin hone ⟨p, hp, by omega⟩
      omega
    · have hs : 0 < s.length := by
        obtain ⟨p, hp⟩ := List.exists_mem_of_ne_nil _ hne
        exact (Nat.zero_le p).trans_lt (hin p hp)
      have hbehind : ∀ p ∈ occurrences sep s, p + 1 < s.length := by
        intro p hp
        have hroom := add_le_of_mem hp
        omega
      have hmore : (sep.intercalate (fields s 0 (occurrences sep s))).length + (occurrences sep s).length + 0 =
          s.length + (occurrences sep s).length * sep.length :=
        intercalate_fields_length hs hsorted (fun _ _ => Nat.zero_le _) hbehind
      have hcount := List.length_pos_iff.2 hne
      have htwo := Nat.mul_le_mul_left (occurrences sep s).length (show 2 ≤ sep.length by omega)
      omega
  · rintro (hno | ⟨hone, hends⟩)
    · rw [(occurrences_eq_nil_iff hsep).2 hno]
      unfold fields
      split_ifs with hs
      · simp [List.intercalate]
      · exact (List.length_eq_zero_iff.1 (Nat.eq_zero_of_not_pos hs)).symm
    · obtain ⟨c, rfl⟩ := List.length_eq_one_iff.1 hone
      rw [intercalate_fields_single (Nat.zero_le _) hsorted (fun _ _ => Nat.zero_le _), List.drop_zero]
      · intro p hp
        have hlast : p + 1 ≠ s.length := fun hend => hends ((suffix_iff_mem hsep).2 ⟨p, hp, hend⟩)
        have hroom := add_le_of_mem hp
        rw [List.length_singleton] at hroom
        omega
      · intro p hp
        obtain ⟨rest, hrest⟩ := (mem_occurrences.1 hp).2
        rw [← List.head?_drop, ← hrest]
        rfl

/-- A comma in the middle. -/
theorem splits_right_iff_comma : [','] ≠ [] ∧
    (SplitsRight ['a', ',', 'b'] [','] ↔
      ¬[','] <:+: ['a', ',', 'b'] ∨ [','].length = 1 ∧ ¬[','] <:+ ['a', ',', 'b']) :=
  ⟨by decide, splits_right_iff (by decide)⟩

/-- **The empty token behind the last comma is lost**, and half of a separator of two characters is kept in the
token. -/
theorem split_lost : ¬SplitsRight ['a', ','] [','] ∧ ¬SplitsRight ['a', '-', '-', 'b'] ['-', '-'] := by
  refine ⟨?_, ?_⟩
  · rintro ⟨tokens, htokens, hjoin, -⟩
    obtain rfl : [['a']] = tokens := Except.ok.inj htokens
    exact absurd hjoin (by decide)
  · rintro ⟨tokens, htokens, hjoin, -⟩
    obtain rfl : [['a'], ['-', 'b']] = tokens := Except.ok.inj htokens
    exact absurd hjoin (by decide)

end Libtarp.Strings
