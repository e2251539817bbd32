import Libtarp.IniParse.Tokens
import Mathlib.Algebra.Group.Nat.Defs

/-!
# The lines of a list

* `isRecordLine_body`: a line of tokens is not a record.
* `isSectionLine_body`: it is a section title only where it is `[item]`.
* `processLine_solid`: the blanks and the comment around the text of a line do not matter.
* `processLines_layout`: the lines of a list mean its tokens, unless the last of them is `[item]`.
-/

namespace Libtarp.IniParse

/-! ## What a line of tokens looks like -/

/-- What comes after a key. -/
theorem stripLws_after {b : Blanks} (ts : List (Token × Blanks)) : stripLws (after b ts) = body ts := by
  cases ts with
  | nil => rfl
  | cons t ts => exact stripLws_append b.space (body_solid t.1 t.2 ts).head

/-- The text of a token that ends with `c`, and of what comes after it. -/
theorem text_append (w : Word) (blanks : Blanks) (c : Char) (s : List Char) :
    w.chars ++ blanks.chars ++ [c] ++ s = w.chars ++ blanks.chars ++ c :: s := List.append_cons .. |>.symm

/-- The last item is at the end of a line, or the closing bracket comes after it. -/
theorem after_last {value : Word} {b : Blanks} {ts : List (Token × Blanks)} (h : Line ((.last value, b) :: ts)) :
    ts = [] ∨ ∃ b' ts', ts = (.closing, b') :: ts' := by
  cases ts with
  | nil => exact .inl rfl
  | cons t' ts =>
    obtain ⟨t', b'⟩ := t'
    have hfollows : Follows (.last value) t' := (List.isChain_cons_cons.1 h.follows).1
    cases t' with
    | closing => exact .inr ⟨b', ts, rfl⟩
    | head | opening | item | last => exact hfollows.elim

/-- A line of tokens is not a record. -/
theorem isRecordLine_body {t : Token} {b : Blanks} {ts : List (Token × Blanks)} (h : Line ((t, b) :: ts)) :
    isRecordLine (body ((t, b) :: ts)) = none := by
  rw [body_cons]
  cases t with
  | head key blanks =>
    obtain ⟨c, u, hkey⟩ := List.exists_cons_of_ne_nil key.ne_nil
    obtain ⟨hword, hrest⟩ := scan key.allowed blanks.space (c := '=') (by decide) (after b ts)
    unfold isRecordLine Token.text
    rw [text_append, hword, hrest, hkey]
    dsimp only
    split
    · rfl
    · rename_i heq _
      obtain rfl := (List.cons.inj heq).2
      rw [stripLws_after]
      cases ts with
      | nil => rfl
      | cons t' ts =>
        -- the value would start with the opening bracket
        obtain ⟨t', b'⟩ := t'
        have hfollows : Follows (.head key blanks) t' := (List.isChain_cons_cons.1 h.follows).1
        cases t' with
        | opening =>
          rw [body_cons]
          rfl
        | head | item | last | closing => exact hfollows.elim
    · rfl
  | item value blanks =>
    obtain ⟨c, u, hvalue⟩ := List.exists_cons_of_ne_nil value.ne_nil
    obtain ⟨hword, hrest⟩ := scan value.allowed blanks.space (c := ',') (by decide) (after b ts)
    unfold isRecordLine Token.text
    rw [text_append, hword, hrest, hvalue]
    rfl
  | last value =>
    obtain ⟨c, u, hvalue⟩ := List.exists_cons_of_ne_nil value.ne_nil
    unfold isRecordLine Token.text
    rcases after_last h with rfl | ⟨b', ts', rfl⟩
    · obtain ⟨hword, hrest⟩ := scan_end value (List.forall_mem_nil _)
      rw [show after b [] = [] from rfl, hword, hrest, hvalue]
    · obtain ⟨hword, hrest⟩ := scan value.allowed b.space (c := ']') (by decide) (after b' ts')
      have hline : after b ((Token.closing, b') :: ts') = b.chars ++ ']' :: after b' ts' := congrArg (b.chars ++ ·) (body_cons ..)
      rw [hline, ← List.append_assoc, hword, hrest, hvalue]
      rfl
  | opening => rfl
  | closing => rfl

/-- After the opening bracket of a section title come its name and the closing bracket. -/
theorem isSectionLine_opening {s name rest : List Char} (hname : (stripLws s).takeWhile (isAllowed · false) = name)
    (hrest : stripLws ((stripLws s).dropWhile (isAllowed · false)) = rest) (hs : name = [] ∨ rest ≠ [']']) :
    isSectionLine ('[' :: s) = none := by
  unfold isSectionLine
  split
  · rename_i heq
    obtain rfl := (List.cons.inj heq).2
    dsimp only
    rw [hname]
    split
    · rfl
    · rfl
    · rename_i hne _
      split_ifs with h1 h2
      · rfl
      · rw [hrest] at h2
        exact absurd h2 (hs.resolve_left hne)
      · rfl
  · rfl

theorem isSectionLine_allowed {c : Char} (s : List Char) (hc : isAllowed c false = true) : isSectionLine (c :: s) = none := by
  unfold isSectionLine
  split
  · rename_i heq
    obtain rfl := (List.cons.inj heq).1
    exact absurd hc (by decide)
  · rfl

theorem isSectionLine_word (w : Word) (s : List Char) : isSectionLine (w.chars ++ s) = none := by
  obtain ⟨c, u, hw⟩ := List.exists_cons_of_ne_nil w.ne_nil
  rw [hw, List.cons_append]
  exact isSectionLine_allowed _ (w.allowed c (by rw [hw]; exact List.mem_cons_self ..))

/-- A line of tokens is a section title only where it is `[item]`. -/
theorem isSectionLine_body {t : Token} {b : Blanks} {ts : List (Token × Blanks)} (h : Line ((t, b) :: ts))
    (hs : ∀ value, ((t, b) :: ts).map Prod.fst ≠ [.opening, .last value, .closing]) :
    isSectionLine (body ((t, b) :: ts)) = none := by
  rw [body_cons]
  cases t with
  | head w blanks | item w blanks =>
    rw [Token.text, List.append_assoc, List.append_assoc]
    exact isSectionLine_word ..
  | last value => exact isSectionLine_word ..
  | closing => rfl
  | opening =>
    -- the text after the bracket is that of the other tokens
    have hline : Token.opening.text ++ after b ts = '[' :: after b ts := rfl
    rw [hline]
    have hstart := stripLws_after (b := b) ts
    cases ts with
    | nil => rfl
    | cons t' ts =>
      obtain ⟨t', b'⟩ := t'
      rw [body_cons] at hstart
      cases t' with
      | head w blanks =>
        rw [Token.text, text_append] at hstart
        obtain ⟨hword, hrest⟩ := scan w.allowed blanks.space (c := '=') (by decide) (after b' ts)
        rw [← hstart] at hword hrest
        exact isSectionLine_opening hword hrest (.inr fun heq => absurd (List.cons.inj heq).1 (by decide))
      | item w blanks =>
        rw [Token.text, text_append] at hstart
        obtain ⟨hword, hrest⟩ := scan w.allowed blanks.space (c := ',') (by decide) (after b' ts)
        rw [← hstart] at hword hrest
        exact isSectionLine_opening hword hrest (.inr fun heq => absurd (List.cons.inj heq).1 (by decide))
      | opening | closing => exact isSectionLine_opening (by rw [hstart]; rfl) rfl (.inl rfl)
      | last value =>
        rcases after_last h.tail with rfl | ⟨b'', ts', rfl⟩
        · obtain ⟨hword, hrest⟩ := scan_end value (List.forall_mem_nil _)
          rw [← show (Token.last value).text ++ after b' [] = value.chars ++ [] from rfl, ← hstart] at hword hrest
          exact isSectionLine_opening hword hrest (.inr (List.cons_ne_nil _ _).symm)
        · obtain ⟨hword, hrest⟩ := scan value.allowed b'.space (c := ']') (by decide) (after b'' ts')
          have hline : (Token.last value).text ++ after b' ((Token.closing, b'') :: ts') =
              value.chars ++ b'.chars ++ ']' :: after b'' ts' := by
            rw [List.append_assoc]
            exact congrArg (fun s => value.chars ++ (b'.chars ++ s)) (body_cons ..)
          rw [← hline, ← hstart] at hword hrest
          refine isSectionLine_opening hword hrest (.inr fun heq => ?_)
          -- something comes after the closing bracket
          cases ts' with
          | nil => exact hs value rfl
          | cons t ts =>
            have hne := (body_solid t.1 t.2 ts).ne_nil
            exact hne (List.append_eq_nil_iff.1 (List.cons.inj heq).2).2

/-- `[item]` is a section title. -/
theorem isSectionLine_title {value : Word} (b b' b'' : Blanks) (hfits : value.chars.length < maxLineLen) :
    isSectionLine (body [(.opening, b), (.last value, b'), (.closing, b'')]) = some value.chars := by
  have hstart : stripLws (after b [(.last value, b'), (.closing, b'')]) = value.chars ++ b'.chars ++ [']'] := by
    rw [stripLws_after]
    rfl
  obtain ⟨hword, hrest⟩ := scan value.allowed b'.space (c := ']') (by decide) []
  have hline : body [(.opening, b), (.last value, b'), (.closing, b'')] = '[' :: after b [(.last value, b'), (.closing, b'')] :=
    body_cons ..
  rw [hline]
  unfold isSectionLine
  split
  · rename_i heq
    obtain rfl := (List.cons.inj heq).2
    dsimp only
    rw [hstart, hword]
    split
    · rename_i heq
      exact absurd heq value.ne_nil
    · rename_i heq _
      rw [heq] at hrest
      cases hrest
    · rename_i c tail hdrop _
      -- the name ends before a blank or the bracket
      have hend : (!isSpace c && decide (c ≠ ']')) = false := by
        cases hc : isSpace c with
        | true => rfl
        | false =>
          rw [hdrop] at hrest
          unfold stripLws at hrest
          rw [List.dropWhile_cons, hc, if_neg Bool.false_ne_true] at hrest
          rw [(List.cons.inj hrest).1]
          decide
      rw [if_neg (by rw [hend]; exact Bool.false_ne_true), if_pos hrest, List.append_assoc, cpToBuff_word hfits]
  · rename_i hne
    exact (hne _ rfl).elim

/-! ## What is done about a line -/

variable {σ : Type*}

theorem newline_space (newline : Bool) : ∀ c ∈ (if newline then ['\n'] else []), isSpace c = true := by
  cases newline with
  | true => exact List.forall_mem_singleton.2 rfl
  | false => exact List.forall_mem_nil _

/-- What comes after a list, as blanks and a comment. -/
theorem Ending.text_eq (e : Ending) : ∃ ws comment, e.text = ws ++ comment ∧ (∀ c ∈ ws, isSpace c = true) ∧
    ∀ c ∈ comment.head?, isComment c = true := by
  unfold Ending.text
  by_cases hcomment : e.comment.chars = []
  · refine ⟨e.blanks.chars ++ if e.newline then ['\n'] else [], [], ?_, ?_, by simp⟩
    · rw [hcomment, List.append_nil, List.append_nil]
    · intro c hc
      rcases List.mem_append.1 hc with hc | hc
      · exact e.blanks.space c hc
      · exact newline_space _ c hc
  · refine ⟨e.blanks.chars, _, List.append_assoc .., e.blanks.space, ?_⟩
    obtain ⟨a, u, ha⟩ := List.exists_cons_of_ne_nil hcomment
    have hstarts := e.comment.starts
    rw [ha] at hstarts ⊢
    exact hstarts

theorem Ending.not_null (e : Ending) : ∀ c ∈ e.text, c ≠ '\x00' := by
  intro c hc
  rcases List.mem_append.1 hc with hc | hc
  · rcases List.mem_append.1 hc with hc | hc
    · exact (plain_of_space (e.blanks.space c hc)).2
    · exact (e.comment.within c hc).2
  · exact (plain_of_space (newline_space _ c hc)).2

/-- What is done about a line that is neither empty nor a comment. -/
theorem processLine_solid {s : List Char} (hs : Solid s) (ctx : Ctx) (cb : Call → σ → ℤ × σ) (st : State σ) (lead : Blanks)
    (e : Ending) (hlen : (lead.chars ++ (s ++ e.text)).length ≤ maxLineLen) :
    processLine ctx cb (lead.chars ++ (s ++ e.text)) st = processText ctx cb s st := by
  obtain ⟨ws, comment, htext, hws, hcomment⟩ := e.text_eq
  have hnull : (lead.chars ++ (s ++ e.text)).takeWhile (· ≠ '\x00') = lead.chars ++ (s ++ e.text) := by
    rw [List.takeWhile_eq_self_iff]
    intro c hc
    apply decide_eq_true
    rcases List.mem_append.1 hc with hc | hc
    · exact (plain_of_space (lead.space c hc)).2
    · rcases List.mem_append.1 hc with hc | hc
      · exact (hs.plain c hc).2
      · exact e.not_null c hc
  obtain ⟨c, u, hc⟩ := List.exists_cons_of_ne_nil hs.ne_nil
  have hhead : isSpace c = false ∧ isComment c = false :=
    ⟨hs.head c (by rw [hc]; rfl), (hs.plain c (by rw [hc]; exact List.mem_cons_self ..)).1⟩
  have hstrip : stripLws (lead.chars ++ (s ++ e.text)) = c :: (u ++ e.text) := by
    rw [hc, List.cons_append]
    exact stripLws_append lead.space (by simpa using hhead.1)
  have hclean : stripTws (stripComment (stripLws (lead.chars ++ (s ++ e.text)))) = s := by
    rw [htext, ← List.append_assoc s]
    exact clean_eq hs lead.space hws hcomment
  have hpos : 0 < (lead.chars ++ (s ++ e.text)).length := by
    rw [List.length_append, List.length_append, hc, List.length_cons]
    omega
  have hempty : isEmptyLine (lead.chars ++ (s ++ e.text)) = false := by
    unfold isEmptyLine
    rw [hstrip]
    rfl
  have hcommentLine : isCommentLine (lead.chars ++ (s ++ e.text)) = false := by
    unfold isCommentLine
    rw [hstrip]
    exact hhead.2
  unfold processLine
  dsimp only
  rw [hnull, hempty, hcommentLine, hclean]
  -- the length is taken modulo the width of its type, which changes nothing
  generalize (lead.chars ++ (s ++ e.text)).length = n at hlen hpos
  have hmod : n % 2 ^ 32 = n := Nat.mod_eq_of_lt (by unfold maxLineLen at hlen; omega)
  rw [hmod, if_neg (by omega), if_neg (by omega), Bool.or_false, if_neg Bool.false_ne_true]

/-- What is done about the tokens of a line. -/
theorem processText_tokens {t : Token × Blanks} {ts : List (Token × Blanks)} (ctx : Ctx) (cb : Call → σ → ℤ × σ) (st : State σ)
    (h : Line (t :: ts)) (hs : ∀ value, (t :: ts).map Prod.fst ≠ [.opening, .last value, .closing]) :
    processText ctx cb (body (t :: ts)) st = runTokens ctx cb ((t :: ts).map Prod.fst) st := by
  unfold processText
  rw [isSectionLine_body h hs, isRecordLine_body h]
  exact processTokens_body ctx cb st h (List.forall_mem_nil _)

/-- What is done about a section title. -/
def titleStep (ctx : Ctx) (value : Word) : Step σ := fun st =>
  let st := { st with section' := value.chars }
  if st.list ≠ .nolist then errorOut ctx .nested st else .ok st

theorem processText_title {value : Word} (ctx : Ctx) (cb : Call → σ → ℤ × σ) (st : State σ) (b b' b'' : Blanks)
    (hfits : value.chars.length < maxLineLen) :
    processText ctx cb (body [(.opening, b), (.last value, b'), (.closing, b'')]) st = titleStep ctx value st := by
  unfold processText
  rw [isSectionLine_title b b' b'' hfits]
  rfl

/-! ## The lines of a list -/

/-- The text of tokens and the blanks after them. -/
def spread (ts : List (Token × Blanks)) : List Char := ts.flatMap fun t => t.1.text ++ t.2.chars

theorem spread_cons (t : Token × Blanks) (ts : List (Token × Blanks)) : spread (t :: ts) = t.1.text ++ t.2.chars ++ spread ts :=
  List.flatMap_cons

theorem spread_concat (ts : List (Token × Blanks)) (t : Token) (b : Blanks) :
    spread (ts ++ [(t, b)]) = spread ts ++ t.text ++ b.chars := by
  unfold spread
  simp

theorem body_concat (ts : List (Token × Blanks)) (t : Token) (b : Blanks) : body (ts ++ [(t, b)]) = spread ts ++ t.text := by
  induction ts with
  | nil => rfl
  | cons t' ts ih =>
    have hafter : after t'.2 (ts ++ [(t, b)]) = t'.2.chars ++ body (ts ++ [(t, b)]) := by
      cases ts <;> rfl
    rw [List.cons_append, body_cons, hafter, ih, spread_cons]
    simp only [List.append_assoc]

/-- The tokens of a line that is within the limit. -/
theorem line_concat {ts : List (Token × Blanks)} {t : Token} {b : Blanks} {lead rest : List Char}
    (hfollows : (ts.map Prod.fst ++ [t]).IsChain Follows) (hlen : (lead ++ (spread ts ++ t.text ++ rest)).length ≤ maxLineLen)
    (hfits : (t.text ++ b.chars).length < maxLineLen) : Line (ts ++ [(t, b)]) := by
  constructor
  · rw [← List.isChain_map (Prod.fst : Token × Blanks → Token), List.map_append]
    exact hfollows
  · intro t' ht'
    rcases List.mem_append.1 ht' with ht' | ht'
    · have hle : (t'.1.text ++ t'.2.chars).length ≤ (spread ts).length :=
        (List.sublist_flatten_of_mem (List.mem_map_of_mem (f := fun t => t.1.text ++ t.2.chars) ht')).length_le
      have hpos := List.length_pos_iff.2 t.solid.ne_nil
      rw [List.length_append, List.length_append, List.length_append] at hlen
      omega
    · obtain rfl := List.mem_singleton.1 ht'
      exact hfits

theorem runTokens_append (ctx : Ctx) (cb : Call → σ → ℤ × σ) (ts us : List Token) (st : State σ) :
    runTokens ctx cb (ts ++ us) st = (do
      let st ← runTokens ctx cb ts st
      runTokens ctx cb us st) := by
  induction ts generalizing st with
  | nil => rfl
  | cons t ts ih =>
    rw [List.cons_append, runTokens, runTokens]
    cases t.step ctx cb st with
    | error e => rfl
    | ok st' => exact ih st'

theorem processLines_cons (ctx : Ctx) (cb : Call → σ → ℤ × σ) (ln : ℕ) (line : List Char) (lines : List (List Char)) (st : State σ) :
    processLines ctx (fun _ => cb) ln (line :: lines) st = (do
      let st ← processLine ctx cb line st
      processLines ctx (fun _ => cb) (ln + 1) lines st) := rfl

/-- No blanks. -/
def Blanks.nil : Blanks where
  chars := []
  blank := List.forall_mem_nil _

/-- A line that ends with the token `t`, and is no title, means its tokens. -/
theorem processLine_concat {acc : List (Token × Blanks)} {t : Token} {b : Blanks} (ctx : Ctx) (cb : Call → σ → ℤ × σ)
    (st : State σ) {lead : Blanks} {e : Ending} (h : Line (acc ++ [(t, b)]))
    (hlen : (lead.chars ++ (spread acc ++ t.text ++ e.text)).length ≤ maxLineLen)
    (hs : ∀ value, acc.map Prod.fst ++ [t] ≠ [.opening, .last value, .closing]) :
    processLine ctx cb (lead.chars ++ (spread acc ++ t.text ++ e.text)) st = runTokens ctx cb (acc.map Prod.fst ++ [t]) st := by
  have hmap : (acc ++ [(t, b)]).map Prod.fst = acc.map Prod.fst ++ [t] := List.map_append
  have hne : acc ++ [(t, b)] ≠ [] := List.append_ne_nil_of_right_ne_nil _ (List.cons_ne_nil _ _)
  obtain ⟨t', ts, hcons⟩ := List.exists_cons_of_ne_nil hne
  rw [← body_concat acc t b, hcons] at hlen ⊢
  rw [hcons] at h
  rw [← hmap, hcons] at hs ⊢
  rw [processLine_solid (body_solid t'.1 t'.2 ts) ctx cb st lead e hlen]
  exact processText_tokens ctx cb st h hs

/-- **The lines of a list mean its tokens**, unless the last one is `[item]`. -/
theorem processLines_layout {toks : List (Token × Gap)} (ctx : Ctx) (cb : Call → σ → ℤ × σ) (st : State σ) (ln : ℕ)
    {lead : Blanks} {acc : List (Token × Blanks)} {e : Ending}
    (hfollows : (acc.map Prod.fst ++ (toks.map Prod.fst ++ [Token.closing])).IsChain Follows)
    (hclosing : ∀ t ∈ toks, t.1 ≠ .closing)
    (hlen : ∀ line ∈ layout (lead.chars ++ spread acc) toks e.text, line.length ≤ maxLineLen)
    (hlast : ∀ value, lastLine (acc.map Prod.fst) toks ≠ [.opening, .last value]) :
    processLines ctx (fun _ => cb) ln (layout (lead.chars ++ spread acc) toks e.text) st =
      runTokens ctx cb (acc.map Prod.fst ++ (toks.map Prod.fst ++ [.closing])) st := by
  induction toks generalizing acc lead st ln with
  | nil =>
    have hline : lead.chars ++ spread acc ++ Token.closing.text ++ e.text =
        lead.chars ++ (spread acc ++ Token.closing.text ++ e.text) := by
      simp only [List.append_assoc]
    rw [layout, hline] at hlen ⊢
    have hlen := hlen _ (List.mem_singleton_self _)
    have hs : ∀ value, acc.map Prod.fst ++ [Token.closing] ≠ [.opening, .last value, .closing] := fun value heq =>
      hlast value (List.append_inj_left' heq rfl)
    rw [processLines_cons, processLine_concat ctx cb st (line_concat (b := Blanks.nil) hfollows hlen (by decide)) hlen hs,
      List.map_nil, List.nil_append]
    cases runTokens ctx cb (acc.map Prod.fst ++ [.closing]) st <;> rfl
  | cons t toks ih =>
    obtain ⟨t, g⟩ := t
    have hne : t ≠ .closing := hclosing _ (List.mem_cons_self ..)
    have hclosing : ∀ t ∈ toks, t.1 ≠ .closing := fun t ht => hclosing t (List.mem_cons_of_mem _ ht)
    have hsplit : acc.map Prod.fst ++ (t :: (toks.map Prod.fst ++ [Token.closing])) =
        (acc ++ [(t, g.blanks)]).map Prod.fst ++ (toks.map Prod.fst ++ [Token.closing]) := by
      simp
    rw [List.map_cons, List.cons_append, hsplit] at hfollows ⊢
    rw [lastLine] at hlast
    rw [layout] at hlen ⊢
    cases hg : g.lineBreak with
    | none =>
      -- the next token is on the same line
      have hline : lead.chars ++ spread acc ++ t.text ++ g.blanks.chars = lead.chars ++ spread (acc ++ [(t, g.blanks)]) := by
        rw [spread_concat]
        simp only [List.append_assoc]
      rw [hg] at hlen hlast
      dsimp only at hlen ⊢
      rw [hline] at hlen ⊢
      apply ih st ln hfollows hclosing hlen
      intro value
      rw [List.map_append]
      exact hlast value
    | some b =>
      -- the line ends after the token
      obtain ⟨comment, indent⟩ := b
      have hline : lead.chars ++ spread acc ++ t.text ++ g.blanks.chars ++ comment.chars ++ ['\n'] =
          lead.chars ++ (spread acc ++ t.text ++ Ending.text { blanks := g.blanks, comment := comment, newline := true }) := by
        simp only [Ending.text, List.append_assoc, if_true]
      have hindent : indent.chars = indent.chars ++ spread [] := (List.append_nil _).symm
      rw [hg] at hlen hlast
      dsimp only at hlen ⊢
      rw [hline] at hlen ⊢
      have hfirst := hlen _ (List.mem_cons_self ..)
      have hrest := fun line hline => hlen line (List.mem_cons_of_mem _ hline)
      have hfits : (t.text ++ g.blanks.chars).length < maxLineLen := by
        simp only [Ending.text, List.length_append, if_true, List.length_singleton] at hfirst
        rw [List.length_append]
        omega
      have hmap : (acc ++ [(t, g.blanks)]).map Prod.fst = acc.map Prod.fst ++ [t] := List.map_append
      have hs : ∀ value, acc.map Prod.fst ++ [t] ≠ [.opening, .last value, .closing] := by
        intro value heq
        have heq : acc.map Prod.fst ++ [t] = [.opening, .last value] ++ [.closing] := heq
        exact hne (List.cons.inj (List.append_inj_right' heq rfl)).1
      rw [hmap] at hfollows ⊢
      have hthis := processLine_concat ctx cb st (line_concat (b := g.blanks) hfollows.left_of_append hfirst hfits) hfirst hs
      rw [processLines_cons, hthis, runTokens_append ctx cb (acc.map Prod.fst ++ [t])]
      cases runTokens ctx cb (acc.map Prod.fst ++ [t]) st with
      | error e => rfl
      | ok st' =>
        dsimp only [bind, Except.bind]
        rw [hindent] at hrest ⊢
        exact ih st' (ln + 1) hfollows.right_of_append hclosing hrest hlast

end Libtarp.IniParse
