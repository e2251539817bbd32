import Libtarp.IniParse.Constructs
import Libtarp.IniParse.Grammar
import Libtarp.IniParse.LayoutRuns

/-!
# Files with empty lists

A list that is open goes on with an item or the last one; when empty lists are allowed, closing it is another error,
and no less one.

* `erase_processLines`: what a callback that always returns 0 keeps does not matter, nor for which line it is called.
* `processLines_spaced`: nor do blank lines and comments.
* `processLines_part`: what is done about a part of a file.
* `emptyLists_iff`: a file with empty lists is rejected at the first of them, also where they are allowed.
-/

namespace Libtarp.IniParse

variable {σ : Type*}

/-! ## Callbacks that return 0 -/

/-- The state without what the callback keeps. -/
def State.erase (st : State σ) : State Unit :=
  { list := st.list, section' := st.section', key := st.key, val := st.val, priv := (), calls := st.calls }

def eraseResult : Except (Stop × State σ) (State σ) → Except (Stop × State Unit) (State Unit)
  | .ok st => .ok st.erase
  | .error (stop, st) => .error (stop, st.erase)

/-- A callback that returns 0. -/
def quiet : Call → Unit → ℤ × Unit := fun _ _ => (0, ())

variable {ctx : Ctx} {cb : Call → σ → ℤ × σ}

/-- Callbacks that return 0 are alike, whatever they keep. -/
theorem simulation_erase (hcb : ∀ call priv, (cb call priv).1 = 0) : Simulation cb quiet fun s t => s.erase = t where
  list h := congrArg State.list h
  sectionName h := congrArg State.section' h
  withList _ h := h ▸ rfl
  withSection _ h := h ▸ rfl
  withKey _ h := h ▸ rfl
  withVal _ h := h ▸ rfl
  callback := by
    rintro s t rfl
    have hquiet : ∀ call priv, (quiet call priv).1 = 0 := fun _ _ => rfl
    unfold callback
    dsimp only
    rw [if_neg (not_not_intro (hcb ..)), if_neg (not_not_intro (hquiet ..))]
    exact .ok rfl

theorem erase_processLine (hcb : ∀ call priv, (cb call priv).1 = 0) (line : List Char) (st : State σ) :
    eraseResult (processLine ctx cb line st) = processLine ctx quiet line st.erase := by
  by_cases hlen : line.length % 2 ^ 32 = 0
  · rw [processLine_end ctx cb hlen, processLine_end ctx quiet hlen]
    rfl
  · have halike := (simulation_erase hcb).processLine ctx hlen (s := st) rfl
    generalize processLine ctx cb line st = r, processLine ctx quiet line st.erase = r' at halike
    cases halike with
    | ok h =>
      rw [← h]
      rfl
    | error stop _ h =>
      rw [← h]
      rfl

/-- **The lines mean the same** for every callback that returns 0. -/
theorem erase_processLines (ctx : Ctx) {cb : ℕ → Call → σ → ℤ × σ} (hcb : ∀ ln call priv, (cb ln call priv).1 = 0) (ln : ℕ)
    (lines : List (List Char)) (st : State σ) :
    eraseResult (processLines ctx cb ln lines st) = processLines ctx (fun _ => quiet) 0 lines st.erase := by
  induction lines generalizing ln st with
  | nil => rfl
  | cons line lines ih =>
    rw [processLines, processLines_cons, ← erase_processLine (hcb (ln + 1))]
    cases processLine ctx (cb (ln + 1)) line st with
    | error e => rfl
    | ok st' => exact (ih (ln + 1) st').trans (processLines_ln ctx quiet (0 + 1) lines st'.erase).symm

/-! ## Blank lines and comments -/

/-- The lines with blank lines and comments put between them. -/
inductive Spaced : List (List Char) → List (List Char) → Prop
  | nil : Spaced [] []
  | line (line : List Char) {lines lines' : List (List Char)} (h : Spaced lines lines') : Spaced (line :: lines) (line :: lines')
  | filler (e : Ending) (hne : e.text ≠ []) {lines lines' : List (List Char)} (h : Spaced lines lines') :
    Spaced lines (e.text :: lines')

theorem stripLws_spaces {s : List Char} (h : Spaces s) : stripLws s = [] := List.dropWhile_eq_nil_iff.2 h

theorem isSpace_of_comment {c : Char} (h : isComment c = true) : isSpace c = false := by
  unfold isComment at h
  rcases Bool.or_eq_true_iff.1 h with h | h
  · rw [of_decide_eq_true h]
    rfl
  · rw [of_decide_eq_true h]
    rfl

/-- A blank line or a comment. -/
theorem skips_filler (e : Ending) : isEmptyLine e.text = true ∨ isCommentLine e.text = true := by
  obtain ⟨ws, comment, htext, hws, hcomment⟩ := e.text_eq
  unfold isEmptyLine isCommentLine
  rw [htext]
  cases comment with
  | nil =>
    rw [List.append_nil, stripLws_spaces hws]
    exact .inl rfl
  | cons c comment =>
    have hc := hcomment c rfl
    have hhead : ∀ a ∈ (c :: comment).head?, isSpace a = false := fun a ha => isSpace_of_comment (hcomment a ha)
    rw [stripLws_append hws hhead]
    exact .inr hc

/-- Nothing is done about a blank line or a comment. -/
theorem processLine_filler (e : Ending) (hne : e.text ≠ []) (hlen : e.text.length ≤ maxLineLen) (st : State σ) :
    processLine ctx cb e.text st = .ok st := by
  have hnull : e.text.takeWhile (· ≠ '\x00') = e.text :=
    List.takeWhile_eq_self_iff.2 fun c hc => decide_eq_true (e.not_null c hc)
  have hpos := List.length_pos_iff.2 hne
  have hmod : e.text.length % 2 ^ 32 = e.text.length := Nat.mod_eq_of_lt (by unfold maxLineLen at hlen; omega)
  have hskips : (isEmptyLine e.text || isCommentLine e.text) = true := Bool.or_eq_true_iff.2 (skips_filler e)
  unfold processLine
  dsimp only
  rw [hnull, hmod, if_neg (by omega), if_neg (by omega), if_pos hskips]

/-- **Blank lines and comments do not matter**, wherever they are. -/
theorem processLines_spaced {lines lines' : List (List Char)} (h : Spaced lines lines')
    (hlen : ∀ line ∈ lines', line.length ≤ maxLineLen) (st : State σ) :
    processLines ctx (fun _ => cb) 0 lines' st = processLines ctx (fun _ => cb) 0 lines st := by
  induction h generalizing st with
  | nil => rfl
  | line line _ ih =>
    have ih := ih fun line hline => hlen line (List.mem_cons_of_mem _ hline)
    rw [processLines_cons, processLines_cons]
    cases processLine ctx cb line st with
    | error e => rfl
    | ok st' =>
      dsimp only [bind, Except.bind]
      rw [processLines_ln, ih, processLines_ln ctx cb (0 + 1)]
  | filler e hne _ ih =>
    obtain ⟨hfirst, hrest⟩ := List.forall_mem_cons.1 hlen
    rw [processLines_cons, processLine_filler e hne hfirst]
    dsimp only [bind, Except.bind]
    rw [processLines_ln]
    exact ih hrest st

theorem Spaced.split {a b lines' : List (List Char)} (h : Spaced (a ++ b) lines') :
    ∃ a' b', lines' = a' ++ b' ∧ Spaced a a' ∧ Spaced b b' := by
  generalize hab : a ++ b = lines at h
  induction h generalizing a with
  | nil =>
    obtain ⟨rfl, rfl⟩ := List.append_eq_nil_iff.1 hab
    exact ⟨[], [], rfl, .nil, .nil⟩
  | line line h ih =>
    cases a with
    | nil =>
      obtain rfl : b = _ := hab
      exact ⟨[], _, rfl, .nil, .line line h⟩
    | cons line' a =>
      obtain ⟨rfl, hrest⟩ := List.cons.inj hab
      obtain ⟨a', b', rfl, ha, hb⟩ := ih hrest
      exact ⟨line' :: a', b', rfl, .line line' ha, hb⟩
  | filler e hne _ ih =>
    obtain ⟨a', b', rfl, ha, hb⟩ := ih hab
    exact ⟨e.text :: a', b', rfl, .filler e hne ha, hb⟩

/-- Blank lines and comments are not taken away. -/
theorem Spaced.subset {lines lines' : List (List Char)} (h : Spaced lines lines') : lines ⊆ lines' := by
  induction h with
  | nil => exact fun _ h => h
  | line line _ ih => exact List.cons_subset_cons line ih
  | filler _ _ _ ih => exact List.subset_cons_of_subset _ ih

/-! ## Parts of a file -/

/-- The value of a record. -/
structure Value where
  chars : List Char
  ne_nil : chars ≠ []
  allowed : ∀ c ∈ chars, isAllowed c true = true ∧ c ≠ '\n'
  head : ∀ c ∈ chars.head?, isAllowed c false = true
  last : ∀ c ∈ chars.getLast?, isSpace c = false

/-- A part of a file, with its layout. The list may be empty. -/
inductive Part
  | title (indent before : Blanks) (name : Word) (after : Blanks) (ending : Ending)
  | record (indent : Blanks) (key : Word) (before after : Blanks) (value : Value) (ending : Ending)
  | list (list : IniList)

def titleText (before : Blanks) (name : Word) (after : Blanks) : List Char :=
  '[' :: (before.chars ++ (name.chars ++ after.chars ++ [']']))

def recordText (key : Word) (before after : Blanks) (value : Value) : List Char :=
  key.chars ++ before.chars ++ '=' :: (after.chars ++ value.chars)

def Part.lines : Part → List (List Char)
  | title indent before name after ending => [indent.chars ++ (titleText before name after ++ ending.text)]
  | record indent key before after value ending => [indent.chars ++ (recordText key before after value ++ ending.text)]
  | list l => l.lines

def Part.isEmptyList : Part → Bool
  | title .. | record .. => false
  | list l => l.items.isNone

/-- The list is broken such that its last line is `[item]`. -/
def Part.LooksLikeSection : Part → Prop
  | title .. | record .. => False
  | list l => l.LooksLikeSection

/-- The construct that the part is, unless it is an empty list. -/
def Part.construct : Part → Option Construct
  | title _ _ name _ _ => some (.title name.chars)
  | record _ key _ _ value _ => some (.record key.chars value.chars)
  | list l => l.items.map fun (items, value, _) => .list l.key.chars (items.map (·.1.chars)) value.chars

/-- The section that comes after the part. -/
def Part.sectionAfter (section' : List Char) : Part → List Char
  | .title _ _ name _ _ => name.chars
  | .record .. | .list _ => section'

/-- A record is in a section, unless it need not be. -/
def Part.Placed (ctx : Ctx) (section' : List Char) : Part → Prop
  | title .. | list _ => True
  | record .. => section' ≠ [] ∨ ctx.allowGlobalRecords = true

/-- The records are in sections, unless they need not be. -/
def Placed (ctx : Ctx) : List Char → List Part → Prop
  | _, [] => True
  | section', p :: parts => p.Placed ctx section' ∧ Placed ctx (p.sectionAfter section') parts

/-! ## What is done about a part -/

/-- A part of a file is over, and there were the calls `new`. -/
structure Past (st st' : State Unit) (section' : List Char) (new : List Call) : Prop where
  list : st'.list = .nolist
  sectionAfter : st'.section' = section'
  calls : st'.calls = st.calls ++ new

theorem Value.solid (v : Value) : Solid v.chars where
  ne_nil := v.ne_nil
  head := fun c hc => isSpace_of_allowed (v.head c hc)
  last := v.last
  plain := fun c hc => by
    have hallowed := (v.allowed c hc).1
    unfold isAllowed at hallowed
    rw [Bool.and_true, Bool.or_eq_true_iff] at hallowed
    rcases hallowed with h | h
    · refine plain_of_allowed ?_
      unfold isAllowed
      rw [h, Bool.true_or]
    · exact plain_of_space h

theorem titleText_solid (before : Blanks) (name : Word) (after : Blanks) : Solid (titleText before name after) := by
  have hopening : Solid ['['] := solid_singleton rfl ⟨rfl, by decide⟩
  have hclosing : Solid [']'] := solid_singleton rfl ⟨rfl, by decide⟩
  have hsolid := hopening.append before (name.solid.append after hclosing)
  rwa [List.append_assoc] at hsolid

theorem recordText_solid (key : Word) (before after : Blanks) (value : Value) : Solid (recordText key before after value) := by
  have hequals : Solid ['='] := solid_singleton rfl ⟨rfl, by decide⟩
  have hsolid := (key.solid.append before hequals).append after value.solid
  rwa [List.append_assoc, ← List.append_cons] at hsolid

/-- The text of a line is within the limit where the line is. -/
theorem length_text_le {lead s rest : List Char} (h : (lead ++ (s ++ rest)).length ≤ maxLineLen) : s.length ≤ maxLineLen := by
  rw [List.length_append, List.length_append] at h
  omega

theorem processText_titleText (before : Blanks) (name : Word) (after : Blanks)
    (hlen : (titleText before name after).length ≤ maxLineLen) {st : State Unit} (hlist : st.list = .nolist) :
    processText ctx quiet (titleText before name after) st = .ok { st with section' := name.chars } := by
  have htitle : SectionTitle (titleText before name after) name.chars :=
    ⟨name, before.chars, after.chars, before.space, after.space, rfl, rfl⟩
  unfold processText
  rw [(isSectionLine_iff hlen).2 htitle]
  exact if_neg (not_not_intro hlist)

theorem processText_recordText (key : Word) (before after : Blanks) (value : Value)
    (hlen : (recordText key before after value).length ≤ maxLineLen) {st : State Unit} (hlist : st.list = .nolist)
    (hsection : st.section' ≠ [] ∨ ctx.allowGlobalRecords = true) :
    ∃ st', processText ctx quiet (recordText key before after value) st = .ok st' ∧
      Past st st' st.section' ((Construct.record key.chars value.chars).calls st.section') := by
  have hrecord : Record (recordText key before after value) key.chars value.chars :=
    ⟨key, before.chars, after.chars, before.space, after.space, rfl, value.ne_nil, value.head,
      fun c hc => (value.allowed c hc).1, rfl⟩
  have hnone : isSectionLine (recordText key before after value) = none := by
    unfold recordText
    rw [List.append_assoc]
    exact isSectionLine_word key _
  -- a record outside all sections would have to be allowed
  have hplaced : ¬(st.section' = [] ∧ (!ctx.allowGlobalRecords) = true) := by
    rintro ⟨hnil, hglobal⟩
    rcases hsection with h | h
    · exact h hnil
    · rw [h] at hglobal
      cases hglobal
  unfold processText
  rw [hnone, (isRecordLine_iff hlen).2 hrecord]
  dsimp only
  rw [if_neg hplaced, if_neg (not_not_intro hlist)]
  refine ⟨_, rfl, hlist, rfl, ?_⟩
  dsimp only
  rw [hlist]
  rfl

theorem processLines_single (line : List Char) (st : State σ) :
    processLines ctx (fun _ => cb) 0 [line] st = processLine ctx cb line st := by
  rw [processLines_cons]
  cases processLine ctx cb line st with
  | error e => rfl
  | ok st' => rfl

/-- The items of a list that is open, and the closing bracket. -/
theorem runTokens_items (ctx : Ctx) (items : List (Word × Blanks × Gap)) (value : Word) (gap : Gap) (st : State Unit)
    (h : st.list = .listOpen ∨ st.list = .listOngoing) :
    ∃ st', runTokens ctx quiet ((itemTokens (some (items, value, gap))).map Prod.fst ++ [.closing]) st = .ok st' ∧
      Past st st' st.section' ((items.map (·.1.chars)).map (itemCall st.section' st.key) ++
        [lastCall st.section' st.key value.chars]) := by
  induction items generalizing st with
  | nil =>
    obtain ⟨list, section', key, val, priv, calls⟩ := st
    dsimp only at h
    rcases h with rfl | rfl
    · exact ⟨_, rfl, rfl, rfl, rfl⟩
    · exact ⟨_, rfl, rfl, rfl, rfl⟩
  | cons i items ih =>
    let st₁ : State Unit :=
      { st with list := .listOngoing, val := i.1.chars, calls := st.calls ++ [itemCall st.section' st.key i.1.chars] }
    have hstep : (Token.item i.1 i.2.1).step ctx quiet st = .ok st₁ := by
      obtain ⟨list, section', key, val, priv, calls⟩ := st
      dsimp only at h
      rcases h with rfl | rfl
      · rfl
      · rfl
    obtain ⟨st', hrun, hpast⟩ := ih st₁ (.inr rfl)
    refine ⟨st', ?_, hpast.list, hpast.sectionAfter, ?_⟩
    · change (Token.item i.1 i.2.1).step ctx quiet st >>= runTokens ctx quiet _ = .ok st'
      rw [hstep]
      exact hrun
    · rw [hpast.calls]
      simp [st₁]

/-- An empty list is no section title. -/
theorem not_title_of_empty {l : IniList} (h : l.items = none) : ¬l.LooksLikeSection := by
  intro hs
  obtain ⟨value, b, g, -, -, -, htokens⟩ := hs.tokens_eq
  unfold IniList.tokens at htokens
  rw [h] at htokens
  exact absurd (congrArg List.length htokens) (by simp [itemTokens])

/-- What the state of the parser is after the opening bracket of a list. -/
theorem runTokens_opening (l : IniList) {st : State Unit} (hlist : st.list = .nolist) :
    runTokens ctx quiet (l.tokens.map Prod.fst ++ [.closing]) st =
      runTokens ctx quiet ((itemTokens l.items).map Prod.fst ++ [.closing]) { st with list := .listOpen, key := l.key.chars } := by
  obtain ⟨list, section', key, val, priv, calls⟩ := st
  obtain rfl : list = .nolist := hlist
  rfl

variable {p : Part} {st : State Unit}

/-- A part that is neither an empty list nor taken for a title. -/
theorem processLines_part {c : Construct} (hc : p.construct = some c) (hs : ¬p.LooksLikeSection)
    (hplaced : p.Placed ctx st.section') (hlist : st.list = .nolist) (hlen : ∀ line ∈ p.lines, line.length ≤ maxLineLen) :
    ∃ st', processLines ctx (fun _ => quiet) 0 p.lines st = .ok st' ∧
      Past st st' (p.sectionAfter st.section') (c.calls st.section') := by
  cases p with
  | title indent before name after ending =>
    obtain rfl := Option.some.inj hc
    have hlen := hlen _ (List.mem_singleton_self _)
    refine ⟨{ st with section' := name.chars }, ?_, hlist, rfl, (List.append_nil _).symm⟩
    rw [Part.lines, processLines_single, processLine_solid (titleText_solid ..) ctx quiet st indent ending hlen]
    exact processText_titleText before name after (length_text_le hlen) hlist
  | record indent key before after value ending =>
    obtain rfl := Option.some.inj hc
    have hlen := hlen _ (List.mem_singleton_self _)
    rw [Part.lines, processLines_single, processLine_solid (recordText_solid ..) ctx quiet st indent ending hlen]
    exact processText_recordText key before after value (length_text_le hlen) hlist hplaced
  | list l =>
    obtain ⟨⟨items, value, gap⟩, hitems, rfl⟩ := Option.map_eq_some_iff.1 hc
    obtain ⟨st', hrun, hpast⟩ := runTokens_items ctx items value gap { st with list := .listOpen, key := l.key.chars } (.inl rfl)
    refine ⟨st', ?_, hpast.list, hpast.sectionAfter, hpast.calls⟩
    rw [Part.lines, processLines_list ctx quiet st hs hlen, runTokens_opening l hlist, hitems]
    exact hrun

/-- A part that is taken for a title. -/
theorem processLines_taken (hs : p.LooksLikeSection) (hlist : st.list = .nolist)
    (hlen : ∀ line ∈ p.lines, line.length ≤ maxLineLen) :
    ∃ st', processLines ctx (fun _ => quiet) 0 p.lines st = errorOut ctx .nested st' ∧ st'.calls = st.calls := by
  cases p with
  | title | record => exact hs.elim
  | list l =>
    obtain ⟨value, -, hlines⟩ := processLines_title ctx quiet st hs hlen
    rw [Part.lines, hlines]
    exact title_error l.key value l.keyBlanks ctx quiet hlist

/-- The error that an empty list is. -/
def emptyError (ctx : Ctx) : IniError := if ctx.allowEmptyLists then .malformedList else .emptyList

/-- **An empty list is an error**, allowed or not. -/
theorem processLines_empty (hempty : p.isEmptyList = true) (hlist : st.list = .nolist)
    (hlen : ∀ line ∈ p.lines, line.length ≤ maxLineLen) :
    ∃ st', processLines ctx (fun _ => quiet) 0 p.lines st = errorOut ctx (emptyError ctx) st' ∧ st'.calls = st.calls := by
  cases p with
  | title | record => cases hempty
  | list l =>
    have hitems : l.items = none := Option.isNone_iff_eq_none.1 hempty
    refine ⟨{ st with list := .listOpen, key := l.key.chars }, ?_, rfl⟩
    rw [Part.lines, processLines_list ctx quiet st (not_title_of_empty hitems) hlen, runTokens_opening l hlist, hitems]
    obtain ⟨fatalErrors, allowGlobalRecords, allowEmptyLists⟩ := ctx
    cases allowEmptyLists with
    | true => rfl
    | false => rfl

/-! ## Files -/

/-- A part that the parser is right about: neither an empty list nor taken for a title. -/
def Part.Good (p : Part) : Prop := p.isEmptyList = false ∧ ¬p.LooksLikeSection

theorem construct_of_good (h : p.Good) (section' : List Char) :
    ∃ c, p.construct = some c ∧ c.sectionAfter section' = p.sectionAfter section' := by
  cases p with
  | title | record => exact ⟨_, rfl, rfl⟩
  | list l =>
    obtain ⟨items, hitems⟩ := Option.isSome_iff_exists.1 (Option.isNone_eq_false_iff.1 h.1)
    unfold Part.construct
    dsimp only
    rw [hitems]
    exact ⟨_, rfl, rfl⟩

/-- Parts that the parser is right about. -/
theorem processLines_parts {parts : List Part} (st : State Unit) (hgood : ∀ p ∈ parts, p.Good) (hplaced : Placed ctx st.section' parts)
    (hlist : st.list = .nolist) (hlen : ∀ line ∈ parts.flatMap Part.lines, line.length ≤ maxLineLen) :
    ∃ st', processLines ctx (fun _ => quiet) 0 (parts.flatMap Part.lines) st = .ok st' ∧ st'.list = .nolist ∧
      st'.calls = st.calls ++ callsOf st.section' (parts.filterMap Part.construct) := by
  induction parts generalizing st with
  | nil => exact ⟨st, rfl, hlist, (List.append_nil _).symm⟩
  | cons p parts ih =>
    obtain ⟨hp, hparts⟩ := List.forall_mem_cons.1 hgood
    obtain ⟨c, hc, hafter⟩ := construct_of_good hp st.section'
    rw [List.flatMap_cons] at hlen ⊢
    obtain ⟨st₁, hrun₁, hpast⟩ :=
      processLines_part hc hp.2 hplaced.1 hlist fun line h => hlen line (List.mem_append_left _ h)
    have hplaced' := hplaced.2
    rw [← hpast.sectionAfter] at hplaced'
    obtain ⟨st', hrun, hlist', hcalls⟩ := ih st₁ hparts hplaced' hpast.list fun line h => hlen line (List.mem_append_right _ h)
    refine ⟨st', ?_, hlist', ?_⟩
    · rw [processLines_append, hrun₁]
      exact hrun
    · rw [hcalls, hpast.calls, List.filterMap_cons_some hc, callsOf, hpast.sectionAfter, hafter, List.append_assoc]

theorem Placed.left {section' : List Char} {before after : List Part} (h : Placed ctx section' (before ++ after)) :
    Placed ctx section' before := by
  induction before generalizing section' with
  | nil => exact trivial
  | cons p before ih => exact ⟨h.1, ih h.2⟩

/-- The parse ends with the part `p`, after `before`, in the error `e`. -/
def EndsAt (ctx : Ctx) (cb : ℕ → Call → σ → ℤ × σ) (priv : σ) (lines : List (List Char)) (before : List Part) (p : Part)
    (e : IniError) : Prop :=
  ∃ upto rest st, lines = upto ++ rest ∧ Spaced ((before ++ [p]).flatMap Part.lines) upto ∧
    (∀ rest', processLines ctx cb 0 (upto ++ rest') (State.new priv) = errorOut ctx e st) ∧
    st.calls = callsOf [] (before.filterMap Part.construct)

/-- A file is accepted, unless there are empty lists and they are not allowed: then it is rejected at the first of them. -/
structure EmptyListsRight (ctx : Ctx) (cb : ℕ → Call → σ → ℤ × σ) (priv : σ) (lines : List (List Char)) (parts : List Part) :
    Prop where
  accepted : (ctx.allowEmptyLists = true ∨ ∀ p ∈ parts, p.isEmptyList = false) →
    parse ctx cb priv lines = { success := true, calls := callsOf [] (parts.filterMap Part.construct) }
  rejected : ctx.allowEmptyLists = false → ∀ before p after, parts = before ++ p :: after → p.isEmptyList = true →
    (∀ q ∈ before, q.isEmptyList = false) → EndsAt ctx cb priv lines before p .emptyList

section

variable {cb : ℕ → Call → σ → ℤ × σ} {priv : σ} {lines : List (List Char)} {parts before after : List Part}

theorem outcome_erase (r : Except (Stop × State σ) (State σ)) : outcome (eraseResult r) = outcome r := by
  cases r with
  | ok st => rfl
  | error e => rfl

/-- A file that the parser is right about is accepted. -/
theorem parse_good (hcb : ∀ ln call priv, (cb ln call priv).1 = 0) (hspaced : Spaced (parts.flatMap Part.lines) lines)
    (hlen : ∀ line ∈ lines, line.length ≤ maxLineLen) (hplaced : Placed ctx [] parts) (hgood : ∀ p ∈ parts, p.Good) :
    parse ctx cb priv lines = { success := true, calls := callsOf [] (parts.filterMap Part.construct) } := by
  obtain ⟨st', hrun, -, hcalls⟩ := processLines_parts (State.new ()) hgood hplaced rfl
    fun line h => hlen line (hspaced.subset h)
  have herase := erase_processLines ctx hcb 0 lines (State.new priv)
  have hnew : (State.new priv).erase = State.new () := rfl
  unfold parse
  rw [← outcome_erase, herase, hnew, processLines_spaced hspaced hlen, hrun]
  exact congrArg (Outcome.mk true) hcalls

theorem processLines_error_append {ln : ℕ} {a : List (List Char)} {st : State σ} {e : Stop × State σ}
    (h : processLines ctx cb ln a st = .error e) (b : List (List Char)) : processLines ctx cb ln (a ++ b) st = .error e := by
  induction a generalizing ln st with
  | nil => cases h
  | cons line a ih =>
    rw [List.cons_append]
    unfold processLines at h ⊢
    cases hline : processLine ctx (cb (ln + 1)) line st with
    | error e' =>
      rw [hline] at h
      exact h
    | ok st' =>
      rw [hline] at h
      exact ih h

/-- **The parse ends with the first part that is an error.** -/
theorem endsAt_of_error {p : Part} {e : IniError} (priv : σ) (hcb : ∀ ln call priv, (cb ln call priv).1 = 0)
    (hspaced : Spaced ((before ++ p :: after).flatMap Part.lines) lines) (hlen : ∀ line ∈ lines, line.length ≤ maxLineLen)
    (hplaced : Placed ctx [] (before ++ p :: after)) (hgood : ∀ q ∈ before, q.Good)
    (hp : ∀ st : State Unit, st.list = .nolist → (∀ line ∈ p.lines, line.length ≤ maxLineLen) →
      ∃ st', processLines ctx (fun _ => quiet) 0 p.lines st = errorOut ctx e st' ∧ st'.calls = st.calls) :
    EndsAt ctx cb priv lines before p e := by
  rw [List.append_cons, List.flatMap_append] at hspaced
  obtain ⟨upto, rest, rfl, hupto, -⟩ := hspaced.split
  have hshort : ∀ line ∈ (before ++ [p]).flatMap Part.lines, line.length ≤ maxLineLen := fun line h =>
    hlen line (List.mem_append_left _ (hupto.subset h))
  rw [List.flatMap_append, List.flatMap_singleton] at hshort
  obtain ⟨st₁, hrun₁, hlist₁, hcalls₁⟩ := processLines_parts (State.new ()) hgood hplaced.left rfl
    fun line h => hshort line (List.mem_append_left _ h)
  obtain ⟨st₂, hrun₂, hcalls₂⟩ := hp st₁ hlist₁ fun line h => hshort line (List.mem_append_right _ h)
  have hquiet : processLines ctx (fun _ => quiet) 0 upto (State.new ()) = errorOut ctx e st₂ := by
    rw [processLines_spaced hupto fun line h => hlen line (List.mem_append_left _ h), List.flatMap_append,
      List.flatMap_singleton, processLines_append, hrun₁]
    exact hrun₂
  have herase := erase_processLines ctx hcb 0 upto (State.new priv)
  rw [show (State.new priv).erase = State.new () from rfl, hquiet] at herase
  -- what the callback keeps comes back
  cases hrun : processLines ctx cb 0 upto (State.new priv) with
  | ok st =>
    rw [hrun] at herase
    cases herase
  | error stop =>
    obtain ⟨stop, st⟩ := stop
    rw [hrun] at herase
    obtain ⟨hstop, hst⟩ := Prod.mk.inj (Except.error.inj herase)
    refine ⟨upto, rest, st, rfl, hupto, fun rest' => ?_, ?_⟩
    · rw [processLines_error_append hrun, hstop]
      rfl
    · have hcalls : st.calls = st₂.calls := congrArg State.calls hst
      rw [hcalls, hcalls₂, hcalls₁]
      rfl

theorem EndsAt.run {p : Part} {e : IniError} (h : EndsAt ctx cb priv lines before p e) :
    ∃ st, processLines ctx cb 0 lines (State.new priv) = errorOut ctx e st := by
  obtain ⟨upto, rest, st, rfl, -, hrun, -⟩ := h
  exact ⟨st, hrun rest⟩

theorem EndsAt.fails {p : Part} {e : IniError} (h : EndsAt ctx cb priv lines before p e) :
    (parse ctx cb priv lines).success = false := by
  obtain ⟨st, hrun⟩ := h.run
  unfold parse
  rw [hrun]
  unfold errorOut outcome
  cases ctx.fatalErrors with
  | true => rfl
  | false => rfl

/-- The first element that `P` does not hold of. -/
theorem exists_first {α : Type*} {P : α → Prop} {l : List α} (h : ∃ a ∈ l, ¬P a) :
    ∃ before a after, l = before ++ a :: after ∧ ¬P a ∧ ∀ b ∈ before, P b := by
  classical
  have hfind : (l.find? fun a => decide ¬P a).isSome := List.find?_isSome.2 (by simpa using h)
  obtain ⟨a, ha⟩ := Option.isSome_iff_exists.1 hfind
  obtain ⟨hbad, before, after, hl, hbefore⟩ := List.find?_eq_some_iff_append.1 ha
  exact ⟨before, a, after, hl, of_decide_eq_true hbad, fun b hb => by simpa using hbefore b hb⟩

theorem cases_of_bad {p : Part} (h : ¬p.Good) : p.LooksLikeSection ∨ p.isEmptyList = true := by
  by_cases htitle : p.LooksLikeSection
  · exact .inl htitle
  · refine .inr ?_
    by_contra hempty
    exact h ⟨Bool.not_eq_true _ |>.mp hempty, htitle⟩

theorem not_empty_of_title {p : Part} (h : p.LooksLikeSection) : p.isEmptyList = false := by
  cases p with
  | title | record => rfl
  | list l =>
    rw [← Bool.not_eq_true]
    exact fun hempty => not_title_of_empty (Option.isNone_iff_eq_none.1 hempty) h

/-- A file is not accepted where the parser is not right about all of it. -/
theorem fails_of_bad (priv : σ) (hcb : ∀ ln call priv, (cb ln call priv).1 = 0) (hspaced : Spaced (parts.flatMap Part.lines) lines)
    (hlen : ∀ line ∈ lines, line.length ≤ maxLineLen) (hplaced : Placed ctx [] parts) (hbad : ∃ p ∈ parts, ¬p.Good) :
    (parse ctx cb priv lines).success = false := by
  obtain ⟨before, p, after, rfl, hp, hbefore⟩ := exists_first hbad
  rcases cases_of_bad hp with htitle | hempty
  · exact (endsAt_of_error priv hcb hspaced hlen hplaced hbefore fun _ => processLines_taken htitle).fails
  · exact (endsAt_of_error priv hcb hspaced hlen hplaced hbefore fun _ => processLines_empty hempty).fails

/-- The same error at one time. -/
theorem EndsAt.error_eq {before' : List Part} {p p' : Part} {e e' : IniError} (h : EndsAt ctx cb priv lines before p e)
    (h' : EndsAt ctx cb priv lines before' p' e') : e = e' := by
  obtain ⟨st, hrun⟩ := h.run
  obtain ⟨st', hrun'⟩ := h'.run
  rw [hrun] at hrun'
  unfold errorOut at hrun'
  obtain ⟨hstop, -⟩ := Prod.mk.inj (Except.error.inj hrun')
  cases hfatal : ctx.fatalErrors with
  | true =>
    rw [hfatal] at hstop
    exact Stop.exit.inj hstop
  | false =>
    rw [hfatal] at hstop
    exact Stop.error.inj hstop

/-- A list that is taken for a title ends the parse, if no empty list or another such one does. -/
theorem ends_nested {p : Part} (hcb : ∀ ln call priv, (cb ln call priv).1 = 0)
    (hspaced : Spaced ((before ++ p :: after).flatMap Part.lines) lines) (hlen : ∀ line ∈ lines, line.length ≤ maxLineLen)
    (hplaced : Placed ctx [] (before ++ p :: after)) (htitle : p.LooksLikeSection)
    (hbefore : ∀ q ∈ before, q.isEmptyList = false) : ∃ before' r, EndsAt ctx cb priv lines before' r .nested := by
  have hbad : ∃ q ∈ before ++ [p], ¬q.Good := ⟨p, List.mem_append_right _ (List.mem_singleton_self p), fun h => h.2 htitle⟩
  -- the first such list is `r`, maybe another one than `p`
  obtain ⟨before', r, after', hsplit, hr, hbefore'⟩ := exists_first hbad
  have hmem : r ∈ before ++ [p] := by
    rw [hsplit]
    exact List.mem_append_right _ (List.mem_cons_self ..)
  have hrempty : r.isEmptyList = false := by
    rcases List.mem_append.1 hmem with hmem | hmem
    · exact hbefore r hmem
    · rw [List.mem_singleton.1 hmem]
      exact not_empty_of_title htitle
  have hrtitle : r.LooksLikeSection := (cases_of_bad hr).resolve_right (ne_true_of_eq_false hrempty)
  rw [List.append_cons, hsplit, List.append_assoc, List.cons_append] at hspaced hplaced
  exact ⟨before', r, endsAt_of_error priv hcb hspaced hlen hplaced hbefore' fun _ => processLines_taken hrtitle⟩

/-- **Empty lists are rejected, allowed or not.** The parser is right about a file exactly where no list is empty that may
be, and no list before the first empty one is taken for a section title. -/
theorem emptyLists_iff (ctx : Ctx) (cb : ℕ → Call → σ → ℤ × σ) (priv : σ) (parts : List Part) (lines : List (List Char))
    (hcb : ∀ ln call priv, (cb ln call priv).1 = 0) (hspaced : Spaced (parts.flatMap Part.lines) lines)
    (hlen : ∀ line ∈ lines, line.length ≤ maxLineLen) (hplaced : Placed ctx [] parts) :
    EmptyListsRight ctx cb priv lines parts ↔ (ctx.allowEmptyLists = true → ∀ p ∈ parts, p.isEmptyList = false) ∧
      ∀ before p after, parts = before ++ p :: after → p.LooksLikeSection → ∃ q ∈ before, q.isEmptyList = true := by
  constructor
  · intro hright
    -- a file that is accepted has nothing the parser is not right about
    have hgood : (ctx.allowEmptyLists = true ∨ ∀ p ∈ parts, p.isEmptyList = false) → ∀ p ∈ parts, p.Good := by
      intro haccepts p hp
      by_contra hbad
      have hfails := fails_of_bad priv hcb hspaced hlen hplaced ⟨p, hp, hbad⟩
      rw [hright.accepted haccepts] at hfails
      cases hfails
    refine ⟨fun hallowed p hp => (hgood (.inl hallowed) p hp).1, ?_⟩
    rintro before p after rfl htitle
    by_contra hbefore
    push Not at hbefore
    have haccepts : ¬(ctx.allowEmptyLists = true ∨ ∀ q ∈ before ++ p :: after, q.isEmptyList = false) := fun haccepts =>
      (hgood haccepts p (List.mem_append_right _ (List.mem_cons_self ..))).2 htitle
    push Not at haccepts
    obtain ⟨hnot, hempty⟩ := haccepts
    -- the parse would end with the first empty list
    obtain ⟨before', q, after', hsplit, hq, hbefore'⟩ := exists_first hempty
    have hrejected := hright.rejected (eq_false_of_ne_true hnot) before' q after' hsplit (eq_true_of_ne_false hq) hbefore'
    obtain ⟨before', r, hends⟩ := ends_nested hcb hspaced hlen hplaced htitle fun q hq => eq_false_of_ne_true (hbefore q hq)
    exact absurd (hrejected.error_eq hends) nofun
  · rintro ⟨hallowed, htitle⟩
    constructor
    · intro haccepts
      have hempty : ∀ p ∈ parts, p.isEmptyList = false := haccepts.elim hallowed id
      refine parse_good hcb hspaced hlen hplaced fun p hp => ⟨hempty p hp, fun hs => ?_⟩
      obtain ⟨before, after, rfl⟩ := List.append_of_mem hp
      obtain ⟨q, hq, hqempty⟩ := htitle before p after rfl hs
      rw [hempty q (List.mem_append_left _ hq)] at hqempty
      cases hqempty
    · rintro hnot before p after rfl hp hbefore
      have hgood : ∀ q ∈ before, q.Good := by
        refine fun q hq => ⟨hbefore q hq, fun hs => ?_⟩
        obtain ⟨before', after', rfl⟩ := List.append_of_mem hq
        obtain ⟨r, hr, hrempty⟩ := htitle before' q (after' ++ p :: after) (by simp) hs
        rw [hbefore r (List.mem_append_left _ hr)] at hrempty
        cases hrempty
      have hends := endsAt_of_error priv hcb hspaced hlen hplaced hgood fun _ => processLines_empty hp
      unfold emptyError at hends
      rwa [hnot, if_neg Bool.false_ne_true] at hends

end

/-- The list `k =[]`. -/
def emptyList : IniList := { brokenAfterHead.oneLine with items := none }

/-- A comment. -/
def commentLine : Ending where
  blanks := Blanks.nil
  comment := { chars := ['#'], starts := by simp [isComment], within := by simp }
  newline := true

/-- A list of one item, a comment and an empty list. -/
theorem emptyLists_iff_two :
    let ctx : Ctx := { fatalErrors := false, allowGlobalRecords := true, allowEmptyLists := false }
    let cb : ℕ → Call → Unit → ℤ × Unit := fun _ _ priv => (0, priv)
    let parts := [Part.list brokenAfterHead.oneLine, .list emptyList]
    let lines := ["k =[a]\n".toList, "#\n".toList, "k =[]\n".toList]
    EmptyListsRight ctx cb () lines parts ↔ (ctx.allowEmptyLists = true → ∀ p ∈ parts, p.isEmptyList = false) ∧
      ∀ before p after, parts = before ++ p :: after → p.LooksLikeSection → ∃ q ∈ before, q.isEmptyList = true := by
  intro ctx cb parts lines
  have hparts : parts.flatMap Part.lines = ["k =[a]\n".toList, "k =[]\n".toList] := rfl
  have hspaced : Spaced (parts.flatMap Part.lines) lines := by
    rw [hparts]
    exact .line _ (.filler commentLine (List.cons_ne_nil _ _) (.line _ .nil))
  exact emptyLists_iff ctx cb () parts lines (fun _ _ _ => rfl) hspaced (by decide) ⟨trivial, trivial, trivial⟩

/-- **An empty list is rejected where it is allowed.** -/
theorem empty_rejected :
    let ctx : Ctx := { fatalErrors := false, allowGlobalRecords := true, allowEmptyLists := true }
    let cb : ℕ → Call → Unit → ℤ × Unit := fun _ _ priv => (0, priv)
    let parts := [Part.list emptyList]
    let lines := ["k =[]\n".toList]
    Spaced (parts.flatMap Part.lines) lines ∧ Placed ctx [] parts ∧ (parse ctx cb () lines).success = false ∧
      ¬EmptyListsRight ctx cb () lines parts := by
  intro ctx cb parts lines
  have hfails : (parse ctx cb () lines).success = false := by decide +kernel
  refine ⟨.line _ .nil, ⟨trivial, trivial⟩, hfails, fun hright => ?_⟩
  rw [hright.accepted (.inl rfl)] at hfails
  cases hfails

end Libtarp.IniParse
