import Libtarp.IniParse.Lines
import Libtarp.IniParse.Steps

/-!
# Moving line breaks

* `processLines_list`: the lines of a list mean its tokens.
* `processLines_title`: so they do not where the last of them is `[item]`, taken for a section title.
* `processLines_grows`: a call of the callback is never taken back.
* `outcome_layout_iff`: a file and the one with every list on one line come to the same, unless the
  parser comes, with no list open, to one that ends like a section title.
-/

namespace Libtarp.IniParse

variable {σ : Type*}

/-! ## The tokens of a list -/

theorem itemTokens_follow (items : List (Word × Blanks × Gap)) (value : Word) (gap : Gap) (t : Token)
    (ht : ∀ u, u ≠ .closing → u ≠ .opening → Follows t u) :
    (t :: ((itemTokens (some (items, value, gap))).map Prod.fst ++ [Token.closing])).IsChain Follows := by
  induction items generalizing t with
  | nil => exact .cons_cons (ht _ (by simp) (by simp)) (.cons_cons trivial (.singleton _))
  | cons i items ih => exact .cons_cons (ht _ (by simp) (by simp)) (ih (.item i.1 i.2.1) fun _ _ _ => trivial)

/-- The tokens of a list can stand next to each other. -/
theorem IniList.follows (l : IniList) : (l.tokens.map Prod.fst ++ [Token.closing]).IsChain Follows := by
  unfold IniList.tokens
  cases l.items with
  | none => exact .cons_cons trivial (.cons_cons trivial (.singleton _))
  | some items => exact .cons_cons trivial (itemTokens_follow items.1 items.2.1 items.2.2 .opening fun _ _ _ => trivial)

/-- The tokens of the items are items. -/
theorem mem_itemTokens {items : Option (List (Word × Blanks × Gap) × Word × Gap)} {t : Token}
    (h : t ∈ (itemTokens items).map Prod.fst) : t ≠ .opening ∧ t ≠ .closing := by
  cases items with
  | none => cases h
  | some items =>
    unfold itemTokens at h
    simp only [List.map_append, List.map_map, List.map_cons, List.map_nil, List.mem_append, List.mem_map, List.mem_singleton,
      Function.comp_apply] at h
    rcases h with ⟨i, -, rfl⟩ | rfl <;> simp

theorem IniList.not_closing (l : IniList) : ∀ t ∈ l.tokens, t.1 ≠ .closing := by
  intro t ht
  unfold IniList.tokens at ht
  rcases List.mem_cons.1 ht with rfl | ht
  · simp
  · rcases List.mem_cons.1 ht with rfl | ht
    · simp
    · exact (mem_itemTokens (List.mem_map_of_mem ht)).2

/-- The lines of a list are its tokens, unless the last of them looks like a section title. -/
theorem processLines_list {l : IniList} (ctx : Ctx) (cb : Call → σ → ℤ × σ) (st : State σ) (hs : ¬l.LooksLikeSection)
    (hlen : ∀ line ∈ l.lines, line.length ≤ maxLineLen) :
    processLines ctx (fun _ => cb) 0 l.lines st = runTokens ctx cb (l.tokens.map Prod.fst ++ [.closing]) st := by
  have hindent : l.indent.chars = l.indent.chars ++ spread [] := (List.append_nil _).symm
  unfold IniList.lines at hlen ⊢
  rw [hindent] at hlen ⊢
  exact processLines_layout ctx cb st 0 l.follows l.not_closing hlen fun value h => hs ⟨value, h⟩

/-! ## A list that looks like a section title -/

/-- The tokens of the last line are those that have been there before, or none of them are. -/
theorem lastLine_cases (line : List Token) (toks : List (Token × Gap)) :
    lastLine line toks = line ++ toks.map Prod.fst ∨ ∀ t ∈ lastLine line toks, t ∈ toks.map Prod.fst := by
  induction toks generalizing line with
  | nil => exact .inl (List.append_nil _).symm
  | cons t toks ih =>
    obtain ⟨t, g⟩ := t
    rw [lastLine]
    split_ifs
    · refine .inr fun u hu => List.mem_cons_of_mem _ ?_
      rcases ih [] with h | h
      · rwa [h] at hu
      · exact h u hu
    · rcases ih (line ++ [t]) with h | h
      · rw [h]
        exact .inl (List.append_assoc ..)
      · exact .inr fun u hu => List.mem_cons_of_mem _ (h u hu)

theorem lastLine_itemTokens {items : Option (List (Word × Blanks × Gap) × Word × Gap)} {line : List Token}
    (h : .opening ∈ lastLine line (itemTokens items)) : lastLine line (itemTokens items) = line ++ (itemTokens items).map Prod.fst := by
  rcases lastLine_cases line (itemTokens items) with heq | hmem
  · exact heq
  · exact absurd rfl (mem_itemTokens (hmem _ h)).1

/-- Such a list has one item, and a line break after the `=` only. -/
theorem IniList.LooksLikeSection.tokens_eq {l : IniList} (h : l.LooksLikeSection) :
    ∃ value b g, l.afterHead.lineBreak = some b ∧ l.afterOpening.lineBreak = none ∧ g.lineBreak = none ∧
      l.tokens = [(.head l.key l.keyBlanks, l.afterHead), (.opening, l.afterOpening), (.last value, g)] := by
  obtain ⟨value, h⟩ := h
  have hopening : Token.opening ∈ lastLine [] l.tokens := by
    rw [h]
    exact List.mem_cons_self ..
  unfold IniList.tokens at *
  rw [lastLine] at h hopening
  cases hhead : l.afterHead.lineBreak with
  | none =>
    -- the last line, with the bracket on it, starts with the key
    rw [hhead] at h hopening
    exfalso
    simp only [Option.isSome_none, Bool.false_eq_true, if_false, lastLine] at h hopening
    split_ifs at h hopening
    · rw [lastLine_itemTokens hopening] at hopening
      exact (mem_itemTokens hopening).1 rfl
    · rw [lastLine_itemTokens hopening] at h
      cases h
  | some b =>
    rw [hhead] at h hopening
    simp only [Option.isSome_some, if_true, lastLine] at h hopening
    split_ifs at h hopening with hbreak
    · rw [lastLine_itemTokens hopening] at hopening
      exact absurd rfl (mem_itemTokens hopening).1
    · have hline := lastLine_itemTokens hopening
      rw [h] at hline
      cases hitems : l.items with
      | none =>
        rw [hitems] at hline
        cases hline
      | some items =>
        obtain ⟨items, value', g⟩ := items
        rw [hitems] at hline h
        cases items with
        | cons i items => cases hline
        | nil =>
          refine ⟨value', b, g, rfl, Option.not_isSome_iff_eq_none.1 hbreak, ?_, rfl⟩
          cases hg : g.lineBreak with
          | none => rfl
          | some b' =>
            simp [itemTokens, lastLine, hg] at h

/-- The list on one line does not look like a section title. -/
theorem oneLine_not_title (l : IniList) : ¬l.oneLine.LooksLikeSection := by
  intro h
  obtain ⟨value, b, g, hbreak, -⟩ := h.tokens_eq
  cases hbreak

/-- **The last line of such a list is taken for a section title.** -/
theorem processLines_title {l : IniList} (ctx : Ctx) (cb : Call → σ → ℤ × σ) (st : State σ) (hs : l.LooksLikeSection)
    (hlen : ∀ line ∈ l.lines, line.length ≤ maxLineLen) :
    ∃ value, l.tokens.map Prod.fst = [.head l.key l.keyBlanks, .opening, .last value] ∧
      processLines ctx (fun _ => cb) 0 l.lines st = (do
        let st ← (Token.head l.key l.keyBlanks).step ctx cb st
        titleStep ctx value st) := by
  obtain ⟨value, b, g, hhead, hopening, hlast, htokens⟩ := hs.tokens_eq
  obtain ⟨comment, indent⟩ := b
  refine ⟨value, by rw [htokens]; rfl, ?_⟩
  have hlines : l.lines =
      [l.indent.chars ++ (spread [] ++ (Token.head l.key l.keyBlanks).text ++
          Ending.text { blanks := l.afterHead.blanks, comment := comment, newline := true }),
        indent.chars ++ (body [(.opening, l.afterOpening.blanks), (.last value, g.blanks), (.closing, Blanks.nil)] ++
          l.ending.text)] := by
    unfold IniList.lines
    rw [htokens]
    simp only [layout, hhead, hopening, hlast]
    simp [Ending.text, spread, body]
  rw [hlines] at hlen ⊢
  have hfirst := hlen _ (List.mem_cons_self ..)
  have hsecond := hlen _ (List.mem_cons_of_mem _ (List.mem_singleton_self _))
  have hfits : ((Token.head l.key l.keyBlanks).text ++ l.afterHead.blanks.chars).length < maxLineLen := by
    simp only [Ending.text, List.length_append, if_true, List.length_singleton] at hfirst
    rw [List.length_append]
    omega
  have hvalue : value.chars.length < maxLineLen := by
    simp only [body, Token.text, List.length_append, List.length_singleton] at hsecond
    omega
  have hline := processLine_concat ctx cb st (line_concat (b := l.afterHead.blanks) (.singleton _) hfirst hfits) hfirst
    fun _ h => by cases h
  rw [processLines_cons, hline]
  simp only [List.map_nil, List.nil_append, runTokens]
  cases (Token.head l.key l.keyBlanks).step ctx cb st with
  | error e => rfl
  | ok st' =>
    dsimp only [bind, Except.bind]
    rw [processLines_cons, processLine_solid (body_solid ..) ctx cb st' indent l.ending hsecond, processText_title ctx cb st' _ _ _ hvalue]
    cases titleStep ctx value st' <;> rfl

/-! ## Calls -/

/-- A step that takes no call of the callback back. -/
def Grows (f : Step σ) : Prop := ∀ st, st.calls <+: (outcome (f st)).calls

theorem Grows.calls_bind {g : Step σ} (hg : Grows g) (r : Except (Stop × State σ) (State σ)) :
    (outcome r).calls <+: (outcome (r >>= g)).calls := by
  cases r with
  | error e => exact List.prefix_rfl
  | ok st => exact hg st

theorem Grows.bind {f g : Step σ} (hf : Grows f) (hg : Grows g) : Grows fun st => f st >>= g := fun st =>
  (hf st).trans (hg.calls_bind (f st))

theorem grows_ok : Grows (σ := σ) .ok := fun _ => List.prefix_rfl

theorem grows_errorOut (ctx : Ctx) (e : IniError) : Grows (σ := σ) (errorOut ctx e) := fun _ => List.prefix_rfl

theorem grows_setList (ctx : Ctx) (next : ListState) : Grows (σ := σ) (setList ctx next) := by
  intro st
  unfold setList
  cases getListError ctx st.list next with
  | none => exact List.prefix_rfl
  | some e => exact grows_errorOut ctx e st

theorem grows_processLine (ctx : Ctx) (cb : Call → σ → ℤ × σ) (line : List Char) : Grows (processLine ctx cb line) := by
  intro st
  by_cases hlen : line.length % 2 ^ 32 = 0
  · rw [processLine_end ctx cb hlen]
    exact List.prefix_rfl
  · exact ((simulation_calls cb st.calls).processLine ctx hlen ⟨rfl, List.prefix_rfl⟩).calls_grow

/-- **A call of the callback is never taken back.** -/
theorem processLines_grows (ctx : Ctx) (cb : ℕ → Call → σ → ℤ × σ) (ln : ℕ) (lines : List (List Char)) :
    Grows (processLines ctx cb ln lines) := by
  induction lines generalizing ln with
  | nil => exact grows_ok
  | cons line lines ih => exact (grows_processLine ctx (cb (ln + 1)) line).bind (ih (ln + 1))

/-! ## A list in a file -/

/-- The number of the line before does not matter to a callback that does not ask for it. -/
theorem processLines_ln (ctx : Ctx) (cb : Call → σ → ℤ × σ) (ln : ℕ) (lines : List (List Char)) (st : State σ) :
    processLines ctx (fun _ => cb) ln lines st = processLines ctx (fun _ => cb) 0 lines st := by
  induction lines generalizing ln st with
  | nil => rfl
  | cons line lines ih =>
    rw [processLines_cons, processLines_cons]
    cases processLine ctx cb line st with
    | error e => rfl
    | ok st' => exact (ih (ln + 1) st').trans (ih (0 + 1) st').symm

theorem processLines_append (ctx : Ctx) (cb : Call → σ → ℤ × σ) (a b : List (List Char)) (st : State σ) :
    processLines ctx (fun _ => cb) 0 (a ++ b) st = (do
      let st ← processLines ctx (fun _ => cb) 0 a st
      processLines ctx (fun _ => cb) 0 b st) := by
  induction a generalizing st with
  | nil => rfl
  | cons line a ih =>
    rw [List.cons_append, processLines_cons, processLines_cons]
    cases processLine ctx cb line st with
    | error e => rfl
    | ok st' =>
      dsimp only [bind, Except.bind]
      rw [processLines_ln, processLines_ln ctx cb (0 + 1) a]
      exact ih st'

/-- Within a list, no other starts. -/
theorem head_error (ctx : Ctx) {st : State σ} (h : st.list ≠ .nolist) : ∃ e, getListError ctx st.list .listHead = some e := by
  cases hl : st.list with
  | nolist => exact absurd hl h
  | listHead | listOpen | listOngoing | listLast => exact ⟨_, rfl⟩

/-- Where another list is still open, it does not matter where the line breaks of a list are. -/
theorem processLines_within {l : IniList} (ctx : Ctx) (cb : Call → σ → ℤ × σ) {st : State σ} (hs : l.LooksLikeSection)
    (hlen : ∀ line ∈ l.lines, line.length ≤ maxLineLen) (h : st.list ≠ .nolist) :
    processLines ctx (fun _ => cb) 0 l.lines st = runTokens ctx cb (l.tokens.map Prod.fst ++ [.closing]) st := by
  obtain ⟨value, htokens, hlines⟩ := processLines_title ctx cb st hs hlen
  obtain ⟨e, he⟩ := head_error ctx h
  have hhead : (Token.head l.key l.keyBlanks).step ctx cb st = errorOut ctx e { st with key := l.key.chars } := by
    unfold Token.step setList
    dsimp only
    rw [he]
  rw [hlines, htokens, List.cons_append, runTokens, hhead]
  rfl

/-- The lines of a list mean its tokens, but where it looks like a section title. -/
theorem processLines_element {l : IniList} (ctx : Ctx) (cb : Call → σ → ℤ × σ) {st : State σ}
    (hlen : ∀ line ∈ l.lines, line.length ≤ maxLineLen) (h : l.LooksLikeSection → st.list ≠ .nolist) :
    processLines ctx (fun _ => cb) 0 l.lines st = runTokens ctx cb (l.tokens.map Prod.fst ++ [.closing]) st := by
  by_cases hs : l.LooksLikeSection
  · exact processLines_within ctx cb hs hlen (h hs)
  · exact processLines_list ctx cb st hs hlen

/-- Where a list of one item is on one line, the callback is called for the item. -/
theorem calls_oneLine (key value : Word) (blanks : Blanks) (ctx : Ctx) (cb : Call → σ → ℤ × σ) {st : State σ}
    (h : st.list = .nolist) :
    ∃ call, st.calls ++ [call] <+: (outcome (runTokens ctx cb [.head key blanks, .opening, .last value, .closing] st)).calls := by
  refine ⟨{ list := .listLast, section' := st.section', k := key.chars, v := value.chars }, ?_⟩
  obtain ⟨list, section', k, v, priv, calls⟩ := st
  obtain rfl : list = .nolist := h
  have hrun : runTokens ctx cb [.head key blanks, .opening, .last value, .closing] ⟨.nolist, section', k, v, priv, calls⟩ =
      (callback cb ⟨.listLast, section', key.chars, value.chars, priv, calls⟩ >>= fun st => setList ctx .nolist st >>= .ok) := rfl
  have hcall : calls ++ [{ list := .listLast, section' := section', k := key.chars, v := value.chars }] <+:
      (outcome (callback cb ⟨.listLast, section', key.chars, value.chars, priv, calls⟩)).calls := by
    unfold callback
    dsimp only
    split_ifs <;> exact List.prefix_rfl
  rw [hrun]
  exact hcall.trans (((grows_setList ctx .nolist).bind grows_ok).calls_bind _)

/-- The title ends the parse, as the list is open. -/
theorem title_error (key value : Word) (blanks : Blanks) (ctx : Ctx) (cb : Call → σ → ℤ × σ) {st : State σ}
    (h : st.list = .nolist) :
    ∃ st', ((Token.head key blanks).step ctx cb st >>= titleStep ctx value) = errorOut ctx .nested st' ∧ st'.calls = st.calls := by
  obtain ⟨list, section', k, v, priv, calls⟩ := st
  obtain rfl : list = .nolist := h
  exact ⟨_, rfl, rfl⟩

variable {ctx : Ctx} {cb : Call → σ → ℤ × σ}

/-- **A list that looks like a section title comes to other calls on one line**, where no list is open. -/
theorem outcome_title_ne {l : IniList} {st : State σ} (hs : l.LooksLikeSection) (hlen : ∀ line ∈ l.lines, line.length ≤ maxLineLen)
    (hone : ∀ line ∈ l.oneLine.lines, line.length ≤ maxLineLen) (h : st.list = .nolist) (lines lines' : List (List Char)) :
    outcome (processLines ctx (fun _ => cb) 0 (l.lines ++ lines) st) ≠
      outcome (processLines ctx (fun _ => cb) 0 (l.oneLine.lines ++ lines') st) := by
  intro heq
  obtain ⟨value, htokens, hlines⟩ := processLines_title ctx cb st hs hlen
  have honeLine := processLines_list ctx cb st (oneLine_not_title l) hone
  rw [oneLine_tokens, htokens] at honeLine
  obtain ⟨call, hcall⟩ := calls_oneLine l.key value l.keyBlanks ctx cb h
  have hgrows : st.calls ++ [call] <+: (outcome (processLines ctx (fun _ => cb) 0 (l.oneLine.lines ++ lines') st)).calls := by
    rw [processLines_append, honeLine]
    exact hcall.trans ((processLines_grows ctx (fun _ => cb) 0 lines').calls_bind _)
  have hcalls : (outcome (processLines ctx (fun _ => cb) 0 (l.lines ++ lines) st)).calls = st.calls := by
    obtain ⟨st', herror, hst'⟩ := title_error l.key value l.keyBlanks ctx cb h
    rw [processLines_append, hlines, herror]
    exact hst'
  rw [← heq, hcalls] at hgrows
  have hlen := hgrows.length_le
  rw [List.length_append, List.length_singleton] at hlen
  omega

/-! ## Files -/

/-- The parser comes to the list `l` in the state `st`. -/
def ComesTo (ctx : Ctx) (cb : Call → σ → ℤ × σ) (start : State σ) (doc : List Element) (l : IniList) (st : State σ) : Prop :=
  ∃ before after, doc = before ++ .list l :: after ∧
    processLines ctx (fun _ => cb) 0 (before.flatMap Element.lines) start = .ok st

theorem comesTo_cons {start : State σ} {el : Element} {doc : List Element} {l : IniList} {st : State σ} :
    ComesTo ctx cb start (el :: doc) l st ↔ (el = .list l ∧ st = start) ∨
      ∃ st', processLines ctx (fun _ => cb) 0 el.lines start = .ok st' ∧ ComesTo ctx cb st' doc l st := by
  constructor
  · rintro ⟨before, after, hdoc, hrun⟩
    cases before with
    | nil =>
      obtain ⟨rfl, -⟩ := List.cons.inj hdoc
      exact .inl ⟨rfl, (Except.ok.inj hrun).symm⟩
    | cons b before =>
      obtain ⟨rfl, rfl⟩ := List.cons.inj hdoc
      rw [List.flatMap_cons, processLines_append] at hrun
      cases h : processLines ctx (fun _ => cb) 0 el.lines start with
      | error e =>
        rw [h] at hrun
        cases hrun
      | ok st' =>
        rw [h] at hrun
        exact .inr ⟨st', rfl, before, after, rfl, hrun⟩
  · rintro (⟨rfl, rfl⟩ | ⟨st', h, before, after, rfl, hrun⟩)
    · exact ⟨[], doc, rfl, rfl⟩
    · refine ⟨el :: before, after, rfl, ?_⟩
      rw [List.flatMap_cons, processLines_append, h]
      exact hrun

/-- The lines of a part of a file mean the same in both layouts, unless a list looks like a section title. -/
theorem processLines_oneLine {el : Element} {start : State σ} (hlen : ∀ line ∈ el.lines, line.length ≤ maxLineLen)
    (hone : ∀ line ∈ el.oneLine, line.length ≤ maxLineLen)
    (h : ∀ l, el = .list l → l.LooksLikeSection → start.list ≠ .nolist) :
    processLines ctx (fun _ => cb) 0 el.lines start = processLines ctx (fun _ => cb) 0 el.oneLine start := by
  cases el with
  | line line => rfl
  | list l =>
    have hmulti := processLines_element ctx cb hlen (h l rfl)
    have honeLine := processLines_list ctx cb start (oneLine_not_title l) hone
    rw [oneLine_tokens] at honeLine
    exact hmulti.trans honeLine.symm

theorem outcome_layout_iff (start : State σ) (doc : List Element)
    (hlen : ∀ line ∈ doc.flatMap Element.lines, line.length ≤ maxLineLen)
    (hone : ∀ line ∈ doc.flatMap Element.oneLine, line.length ≤ maxLineLen) :
    outcome (processLines ctx (fun _ => cb) 0 (doc.flatMap Element.lines) start) =
        outcome (processLines ctx (fun _ => cb) 0 (doc.flatMap Element.oneLine) start) ↔
      ∀ l st, ComesTo ctx cb start doc l st → l.LooksLikeSection → st.list ≠ .nolist := by
  induction doc generalizing start with
  | nil =>
    refine iff_of_true rfl ?_
    rintro l st ⟨before, after, hdoc, -⟩
    exact absurd hdoc.symm (List.append_ne_nil_of_right_ne_nil _ (List.cons_ne_nil _ _))
  | cons el doc ih =>
    rw [List.flatMap_cons] at hlen hone
    rw [List.flatMap_cons, List.flatMap_cons]
    have hlenEl := fun line h => hlen line (List.mem_append_left _ h)
    have honeEl := fun line h => hone line (List.mem_append_left _ h)
    by_cases hbad : ∃ l, el = .list l ∧ l.LooksLikeSection ∧ start.list = .nolist
    · obtain ⟨l, rfl, hs, hnolist⟩ := hbad
      refine iff_of_false (outcome_title_ne hs hlenEl honeEl hnolist _ _) ?_
      intro h
      exact h l start (comesTo_cons.2 (.inl ⟨rfl, rfl⟩)) hs hnolist
    · have hgood : ∀ l, el = .list l → l.LooksLikeSection → start.list ≠ .nolist := fun l hel hs hnolist =>
        hbad ⟨l, hel, hs, hnolist⟩
      rw [processLines_append, processLines_append, ← processLines_oneLine hlenEl honeEl hgood]
      cases hrun : processLines ctx (fun _ => cb) 0 el.lines start with
      | error e =>
        -- the parse ends with this part
        refine iff_of_true rfl fun l st hcomes => ?_
        rcases comesTo_cons.1 hcomes with ⟨hel, rfl⟩ | ⟨st', hok, -⟩
        · exact hgood l hel
        · rw [hrun] at hok
          cases hok
      | ok start' =>
        refine (ih start' (fun line h => hlen line (List.mem_append_right _ h))
          (fun line h => hone line (List.mem_append_right _ h))).trans ⟨fun h l st hcomes => ?_, fun h l st hcomes => ?_⟩
        · rcases comesTo_cons.1 hcomes with ⟨hel, rfl⟩ | ⟨st', hok, hcomes'⟩
          · exact hgood l hel
          · rw [hrun] at hok
            obtain rfl := Except.ok.inj hok
            exact h l st hcomes'
        · exact h l st (comesTo_cons.2 (.inr ⟨start', hrun, hcomes⟩))

/-- **A line break may be moved within a list**, unless the parser comes, with no list open, to a list that then looks
like a section title. -/
theorem layout_iff (ctx : Ctx) (cb : Call → σ → ℤ × σ) (priv : σ) (doc : List Element)
    (hlen : ∀ line ∈ doc.flatMap Element.lines, line.length ≤ maxLineLen)
    (hone : ∀ line ∈ doc.flatMap Element.oneLine, line.length ≤ maxLineLen) :
    parse ctx (fun _ => cb) priv (doc.flatMap Element.lines) = parse ctx (fun _ => cb) priv (doc.flatMap Element.oneLine) ↔
      ∀ l st, ComesTo ctx cb (State.new priv) doc l st → l.LooksLikeSection → st.list ≠ .nolist :=
  outcome_layout_iff (State.new priv) doc hlen hone

/-- The list `k = [a]`, with a line break after the `=`. -/
def brokenAfterHead : IniList where
  indent := Blanks.nil
  key := { chars := ['k'], ne_nil := List.cons_ne_nil _ _, allowed := List.forall_mem_singleton.2 rfl }
  keyBlanks := { chars := [' '], blank := List.forall_mem_singleton.2 ⟨rfl, by decide⟩ }
  afterHead := { blanks := Blanks.nil, lineBreak := some ({ chars := [], starts := nofun, within := nofun }, Blanks.nil) }
  afterOpening := { blanks := Blanks.nil, lineBreak := none }
  items := some ([], { chars := ['a'], ne_nil := List.cons_ne_nil _ _, allowed := List.forall_mem_singleton.2 rfl }, { blanks := Blanks.nil, lineBreak := none })
  ending := { blanks := Blanks.nil, comment := { chars := [], starts := nofun, within := nofun }, newline := true }

/-- The same for a list on one line, before a section title. -/
theorem layout_iff_other :
    let cb : Call → Unit → ℤ × Unit := fun _ priv => (0, priv)
    let ctx : Ctx := { fatalErrors := false, allowGlobalRecords := true, allowEmptyLists := false }
    let doc := [Element.list brokenAfterHead.oneLine, .line "[a]\n".toList]
    parse ctx (fun _ => cb) () (doc.flatMap Element.lines) = parse ctx (fun _ => cb) () (doc.flatMap Element.oneLine) ↔
      ∀ l st, ComesTo ctx cb (State.new ()) doc l st → l.LooksLikeSection → st.list ≠ .nolist :=
  layout_iff _ _ _ _ (by decide) (by decide)

/-- Where the line breaks after the `=`, `[a]` is taken for a section title, and the parse fails. -/
theorem breaks_after_head :
    let ctx : Ctx := { fatalErrors := false, allowGlobalRecords := true, allowEmptyLists := false }
    let parse := parse ctx (fun _ _ priv => (0, priv)) ()
    brokenAfterHead.lines = ["k =\n".toList, "[a]\n".toList] ∧ brokenAfterHead.oneLine.lines = ["k =[a]\n".toList] ∧
      (parse brokenAfterHead.lines).success = false ∧ (parse brokenAfterHead.lines).calls = [] ∧
      (parse brokenAfterHead.oneLine.lines).success = true ∧
      (parse brokenAfterHead.oneLine.lines).calls = [{ list := .listLast, section' := [], k := ['k'], v := ['a'] }] := by
  decide +kernel

end Libtarp.IniParse
