import Libtarp.IniParse.Tokens
import Mathlib.Data.List.DropRight

/-!
# What the tokens of a line cover

A token is copied into a buffer that is one character too small for a line of the largest length.

* `piece`, `pieces`: what tokens are cut from. `getListToken_eq`: a token is the front of a piece.
* `pieces_cover`: the pieces are the line, but for blanks.
* `cut_covers_iff`: the tokens are, unless a piece is cut before its last character that is no blank.
* `not_asserted`: a comma is the last character of its token.
* `tokens_covered_iff`: what taking the tokens of a line comes to.
-/

namespace Libtarp.IniParse

variable {line s t token next : List Char}

/-- A line without its comment and the blanks around it. -/
def clean (line : List Char) : List Char := stripTws (stripComment (stripLws line))

/-- What the next token is cut from, and what comes after it. -/
def piece (s : List Char) : List Char × List Char :=
  match stripLws (s.dropWhile (isAllowed · false)) with
  | [] => (s, [])
  | c :: next =>
    if c = '=' ∨ c = '[' ∨ c = ',' then (s.take (s.length - next.length), next)
    else if isAllowed c false then (s.take (s.length - (c :: next).length), c :: next)
    else if c = ']' then
      if s.takeWhile (isAllowed · false) ≠ [] then (s.take (s.length - (c :: next).length), c :: next)
      else (s.take (s.length - next.length), next)
    else (s, [])

theorem cpToBuff_eq (s : List Char) (n : ℕ) : cpToBuff s n = (s.take n).take (maxLineLen - 1) := by
  unfold cpToBuff
  rw [List.take_take, Nat.min_comm]

/-- **A token is the front of a piece.** -/
theorem getListToken_eq (line : List Char) : getListToken line =
    if clean line = [] then none else some ((piece (clean line)).1.take (maxLineLen - 1), (piece (clean line)).2) := by
  unfold getListToken piece clean
  dsimp only
  generalize stripTws (stripComment (stripLws line)) = s
  by_cases hs : s = []
  · rw [if_pos hs, if_pos hs]
  · rw [if_neg hs, if_neg hs]
    cases hrest : stripLws (s.dropWhile (isAllowed · false)) with
    | nil =>
      dsimp only
      rw [cpToBuff_eq, List.take_length]
    | cons c next =>
      dsimp only
      split_ifs
      · rw [cpToBuff_eq]
      · rw [cpToBuff_eq]
      · rw [cpToBuff_eq]
      · rw [cpToBuff_eq]
      · rw [cpToBuff_eq, List.take_length]

/-- Nothing is left out between a piece and what comes after it. -/
theorem piece_append (s : List Char) : (piece s).1 ++ (piece s).2 = s := by
  have hsuffix : stripLws (s.dropWhile (isAllowed · false)) <:+ s :=
    (List.dropWhile_suffix _).trans (List.dropWhile_suffix _)
  unfold piece
  cases hrest : stripLws (s.dropWhile (isAllowed · false)) with
  | nil => exact List.append_nil s
  | cons c next =>
    rw [hrest] at hsuffix
    have hcons := List.suffix_iff_eq_append.1 hsuffix
    have hnext := List.suffix_iff_eq_append.1 ((List.suffix_cons c next).trans hsuffix)
    dsimp only
    split_ifs
    · exact hnext
    · exact hcons
    · exact hcons
    · exact hnext
    · exact List.append_nil s

theorem piece_lt (h : clean line ≠ []) : (piece (clean line)).2.length < line.length :=
  getListToken_lt ((getListToken_eq line).trans (if_neg h))

/-- What the tokens of a line are cut from. -/
def pieces (line : List Char) : List (List Char) :=
  if _h : clean line = [] then [] else (piece (clean line)).1 :: pieces (piece (clean line)).2
termination_by line.length
decreasing_by exact piece_lt _h

/-- Calls of `get_list_token` take the tokens from a line, until there is none, and each of them at least a character. -/
inductive Taken : List Char → List (List Char) → Prop
  | done {line : List Char} (h : getListToken line = none) : Taken line []
  | next {line token next : List Char} {tokens : List (List Char)} (h : getListToken line = some (token, next))
      (hlt : next.length < line.length) (htaken : Taken next tokens) : Taken line (token :: tokens)

/-- **The tokens that are taken** are the pieces, as far as they go into the buffer. -/
theorem taken_iff (line : List Char) (tokens : List (List Char)) :
    Taken line tokens ↔ tokens = (pieces line).map (·.take (maxLineLen - 1)) := by
  induction hn : line.length using Nat.strong_induction_on generalizing line tokens with
  | _ n ih =>
    have htoken := getListToken_eq line
    rw [pieces]
    by_cases hclean : clean line = []
    · rw [if_pos hclean] at htoken
      rw [dif_pos hclean, List.map_nil]
      constructor
      · rintro (_ | ⟨h, -, -⟩)
        · rfl
        · cases htoken.symm.trans h
      · rintro rfl
        exact .done htoken
    · rw [if_neg hclean] at htoken
      have hlt := getListToken_lt htoken
      rw [dif_neg hclean, List.map_cons]
      have hrest := fun tokens => ih _ (hn ▸ hlt) (piece (clean line)).2 tokens rfl
      constructor
      · rintro (h | ⟨h, -, htaken⟩)
        · cases htoken.symm.trans h
        · obtain ⟨rfl, rfl⟩ := Prod.mk.inj (Option.some.inj (htoken.symm.trans h))
          rw [(hrest _).1 htaken]
      · rintro rfl
        exact .next htoken hlt ((hrest _).2 rfl)

/-! ## What is covered -/

/-- The characters that are no blanks. -/
def visible (s : List Char) : List Char := s.filter (!isSpace ·)

theorem visible_append (s t : List Char) : visible (s ++ t) = visible s ++ visible t := List.filter_append s t

theorem visible_eq_nil_iff : visible s = [] ↔ ∀ c ∈ s, isSpace c = true := by
  unfold visible
  rw [List.filter_eq_nil_iff]
  exact forall₂_congr fun c _ => by cases isSpace c <;> decide

theorem visible_stripLws (s : List Char) : visible (stripLws s) = visible s := by
  have hsplit : s.takeWhile isSpace ++ stripLws s = s := List.takeWhile_append_dropWhile
  have hblank : visible (s.takeWhile isSpace) = [] := visible_eq_nil_iff.2 fun c hc => List.mem_takeWhile_imp hc
  have happend := visible_append (s.takeWhile isSpace) (stripLws s)
  rw [hsplit, hblank, List.nil_append] at happend
  exact happend.symm

/-- A text is what stripping leaves of it, and blanks. -/
theorem stripTws_split (s : List Char) : ∃ ws, s = stripTws s ++ ws ∧ ∀ c ∈ ws, isSpace c = true :=
  ⟨s.rtakeWhile isSpace, List.rdropWhile_append_rtakeWhile.symm, fun _ hc => List.mem_rtakeWhile_imp hc⟩

theorem visible_stripTws (s : List Char) : visible (stripTws s) = visible s := by
  obtain ⟨ws, hs, hws⟩ := stripTws_split s
  have happend := visible_append (stripTws s) ws
  rw [← hs, visible_eq_nil_iff.2 hws, List.append_nil] at happend
  exact happend.symm

/-- A line that no comment is in is covered when it is stripped. -/
theorem visible_clean (h : ∀ c ∈ s, isComment c = false) : visible (clean s) = visible s := by
  have hplain : stripComment (stripLws s) = stripLws s := by
    refine List.takeWhile_eq_self_iff.2 fun c hc => ?_
    rw [h c ((List.dropWhile_suffix _).subset hc)]
    rfl
  unfold clean
  rw [visible_stripTws, hplain, visible_stripLws]

theorem clean_plain (line : List Char) : ∀ c ∈ clean line, isComment c = false := by
  intro c hc
  obtain ⟨ws, hs, -⟩ := stripTws_split (stripComment (stripLws line))
  have hmem : c ∈ stripComment (stripLws line) := by
    rw [hs]
    exact List.mem_append_left ws hc
  have hnot := List.mem_takeWhile_imp hmem
  simpa using hnot

/-- **The pieces cover the line**, each character that is no blank once and in its place. -/
theorem pieces_cover (line : List Char) : visible (pieces line).flatten = visible (clean line) := by
  fun_induction pieces line with
  | case1 line h => rw [h]; rfl
  | case2 line h ih =>
    have happend := piece_append (clean line)
    have hplain : ∀ c ∈ (piece (clean line)).2, isComment c = false := by
      intro c hc
      refine clean_plain line c ?_
      rw [← happend]
      exact List.mem_append_right _ hc
    rw [List.flatten_cons, visible_append, ih, visible_clean hplain, ← visible_append, happend]

/-! ## What is cut off -/

theorem drop_blank_iff (s : List Char) (n : ℕ) : (∀ c ∈ s.drop n, isSpace c = true) ↔ (stripTws s).length ≤ n := by
  constructor
  · intro hblank
    have hstrip : stripTws s = stripTws (s.take n) := by
      unfold stripTws
      rw [← List.take_append_drop n s, List.reverse_append, List.dropWhile_append_of_pos, List.take_append_drop]
      exact fun c hc => hblank c (List.mem_reverse.1 hc)
    rw [hstrip]
    exact (length_stripTws_le _).trans (List.length_take_le n s)
  · intro hle
    obtain ⟨ws, hs, hws⟩ := stripTws_split s
    rw [hs, List.drop_append, List.drop_eq_nil_of_le hle, List.nil_append]
    exact fun c hc => hws c (List.mem_of_mem_drop hc)

/-- A piece that is cut loses nothing if only blanks are cut off. -/
theorem visible_take_iff (s : List Char) (n : ℕ) : visible (s.take n) = visible s ↔ (stripTws s).length ≤ n := by
  have happend := visible_append (s.take n) (s.drop n)
  rw [List.take_append_drop] at happend
  rw [← drop_blank_iff, ← visible_eq_nil_iff, happend]
  constructor
  · exact fun h => List.append_right_eq_self.1 h.symm
  · intro h
    rw [h, List.append_nil]

theorem visible_take_le (s : List Char) (n : ℕ) : (visible (s.take n)).length ≤ (visible s).length :=
  ((List.take_sublist n s).filter _).length_le

theorem cut_length_le (ps : List (List Char)) (n : ℕ) :
    (visible (ps.map (·.take n)).flatten).length ≤ (visible ps.flatten).length := by
  induction ps with
  | nil => exact Nat.le_refl _
  | cons p ps ih =>
    have hle := visible_take_le p n
    rw [List.map_cons, List.flatten_cons, List.flatten_cons, visible_append, visible_append, List.length_append,
      List.length_append]
    omega

/-- **Pieces that are cut** cover what they did if only blanks are cut off. -/
theorem cut_covers_iff (ps : List (List Char)) (n : ℕ) :
    visible (ps.map (·.take n)).flatten = visible ps.flatten ↔ ∀ p ∈ ps, (stripTws p).length ≤ n := by
  induction ps with
  | nil => exact iff_of_true rfl (List.forall_mem_nil _)
  | cons p ps ih =>
    rw [List.map_cons, List.flatten_cons, List.flatten_cons, visible_append, visible_append, List.forall_mem_cons, ← ih,
      ← visible_take_iff]
    constructor
    · -- no part is longer than it was, so none is shorter
      intro heq
      have hlength := congrArg List.length heq
      have hle := visible_take_le p n
      have hle' := cut_length_le ps n
      rw [List.length_append, List.length_append] at hlength
      exact List.append_inj heq (by omega)
    · rintro ⟨hp, hps⟩
      rw [hp, hps]

/-! ## The assertion -/

/-- What the assertion rules out: something after the comma. -/
theorem asserted_cases (h : isListEntry t = .asserted) : ∃ (w b : List Char) (c : Char) (tail : List Char),
    (∀ a ∈ w, isAllowed a false = true) ∧ (∀ a ∈ b, isSpace a = true) ∧ t = w ++ b ++ ',' :: c :: tail := by
  unfold isListEntry at h
  dsimp only at h
  split at h
  · cases h
  · cases h
  · cases h
  · next c tail hrest _ =>
    obtain ⟨b, hb, ht⟩ := scan_split t
    rw [hrest] at ht
    exact ⟨_, b, c, tail, fun a ha => List.mem_takeWhile_imp (p := (isAllowed · false)) ha, hb, ht⟩
  · cases h

/-- **A comma is the last character of its token.** -/
theorem not_asserted (s : List Char) (n : ℕ) : isListEntry ((piece s).1.take n) ≠ .asserted := by
  intro h
  obtain ⟨w, b, c, tail, hw, hb, ht⟩ := asserted_cases h
  have hle : ((piece s).1.take n).length ≤ (piece s).1.length := List.length_take_le' n _
  have hs : s = w ++ b ++ ',' :: (c :: tail ++ ((piece s).1.drop n ++ (piece s).2)) := by
    have happend := piece_append s
    rw [← List.take_append_drop n (piece s).1, ht] at happend
    refine happend.symm.trans ?_
    simp only [List.append_assoc, List.cons_append]
  have hrest := (scan hw hb (c := ',') (by decide) (c :: tail ++ ((piece s).1.drop n ++ (piece s).2))).2
  rw [← hs] at hrest
  -- the piece would have ended at the comma
  have hpiece : (piece s).2 = c :: tail ++ ((piece s).1.drop n ++ (piece s).2) := by
    conv_lhs => unfold piece
    rw [hrest]
    dsimp only
    rw [if_pos (.inr (.inr rfl))]
  have hlength := congrArg List.length hpiece
  rw [List.length_append, List.length_append, List.length_cons] at hlength
  omega

/-! ## The tokens of a line -/

/-- The tokens are taken, each call going on by a character at least; they cover the line, and none of them makes the
assertion fail. -/
structure TokensRight (line : List Char) : Prop where
  terminates : ∃ tokens, Taken line tokens
  covers : ∀ tokens, Taken line tokens → visible tokens.flatten = visible (clean line)
  noAssertion : ∀ tokens, Taken line tokens → ∀ token ∈ tokens, isListEntry token ≠ .asserted

theorem taken_noAssertion {tokens : List (List Char)} (htaken : Taken line tokens) :
    ∀ token ∈ tokens, isListEntry token ≠ .asserted := by
  induction htaken with
  | done _ => exact List.forall_mem_nil _
  | @next line token next tokens h _ _ ih =>
    refine List.forall_mem_cons.2 ⟨?_, ih⟩
    rw [getListToken_eq] at h
    split_ifs at h
    rw [← (Prod.mk.inj (Option.some.inj h)).1]
    exact not_asserted _ _

/-- **The tokens of a line cover it** if none is longer than the buffer for it, but for blanks at its end; they always
come to an end and keep to the assertion. -/
theorem tokens_covered_iff (line : List Char) :
    TokensRight line ↔ ∀ p ∈ pieces line, (stripTws p).length < maxLineLen := by
  have hcovers : visible ((pieces line).map (·.take (maxLineLen - 1))).flatten = visible (clean line) ↔
      ∀ p ∈ pieces line, (stripTws p).length ≤ maxLineLen - 1 := by
    rw [← pieces_cover]
    exact cut_covers_iff ..
  constructor
  · rintro ⟨⟨tokens, htaken⟩, hcover, -⟩ p hp
    have hcover := hcover tokens htaken
    rw [(taken_iff ..).1 htaken] at hcover
    exact Nat.lt_of_le_pred (by decide) (hcovers.1 hcover p hp)
  · intro hfits
    refine ⟨⟨_, (taken_iff ..).2 rfl⟩, fun tokens htaken => ?_, fun tokens htaken => taken_noAssertion htaken⟩
    rw [(taken_iff ..).1 htaken]
    exact hcovers.2 fun p hp => Nat.le_pred_of_lt (hfits p hp)

/-- An item of 1023 characters, and the comma behind it. -/
theorem comma_lost : getListToken (List.replicate 1023 'a' ++ [',']) = some (List.replicate 1023 'a', []) ∧
    ¬TokensRight (List.replicate 1023 'a' ++ [',']) := by
  have htoken : getListToken (List.replicate 1023 'a' ++ [',']) = some (List.replicate 1023 'a', []) := by decide +kernel
  refine ⟨htoken, fun hright => ?_⟩
  have hcover := hright.covers _ (.next htoken (by decide +kernel) (.done (by decide +kernel)))
  have hlength := congrArg List.length hcover
  exact absurd hlength (by decide +kernel)

end Libtarp.IniParse
