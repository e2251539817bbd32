import Libtarp.IniParse.Layout
import Mathlib.Data.List.Chain
import Mathlib.Data.List.TakeWhile

/-!
# The tokens of a line

* `Line`: the tokens that can stand on a line next to each other, with the blanks between them.
* `getListToken_body`: the next token of such a line is the first.
* `processToken_text`: what is done about a token is what it means.
* `processTokens_body`: the loop over the tokens of a line.
-/

namespace Libtarp.IniParse

/-! ## Characters -/

theorem takeWhile_stop {p : Char → Bool} {a b : List Char} (ha : ∀ c ∈ a, p c = true)
    (hb : ∀ c ∈ b.head?, p c = false) : (a ++ b).takeWhile p = a := by
  rw [List.takeWhile_append_of_pos ha]
  cases b with
  | nil => rw [List.takeWhile_nil, List.append_nil]
  | cons c b => rw [List.takeWhile_cons, hb c rfl, if_neg Bool.false_ne_true, List.append_nil]

theorem dropWhile_stop {p : Char → Bool} {a b : List Char} (ha : ∀ c ∈ a, p c = true)
    (hb : ∀ c ∈ b.head?, p c = false) : (a ++ b).dropWhile p = b := by
  rw [List.dropWhile_append_of_pos ha]
  cases b with
  | nil => rfl
  | cons c b => rw [List.dropWhile_cons, hb c rfl, if_neg Bool.false_ne_true]

theorem isAllowed_of_space {c : Char} (h : isSpace c = true) : isAllowed c false = false := by
  unfold isSpace at h
  have hc : c ∈ [' ', '\t', '\n', '\x0b', '\x0c', '\r'] := of_decide_eq_true h
  simp only [List.mem_cons, List.not_mem_nil, or_false] at hc
  rcases hc with rfl | rfl | rfl | rfl | rfl | rfl <;> decide

theorem isAllowed_of_comment {c : Char} (h : isComment c = true) : isAllowed c false = false := by
  unfold isComment at h
  simp only [Bool.or_eq_true, decide_eq_true_eq] at h
  rcases h with rfl | rfl <;> decide

theorem isSpace_of_allowed {c : Char} (h : isAllowed c false = true) : isSpace c = false := by
  cases hs : isSpace c with
  | false => rfl
  | true => rw [isAllowed_of_space hs] at h; cases h

theorem stripLws_append {a : List Char} (ha : ∀ c ∈ a, isSpace c = true) {b : List Char}
    (hb : ∀ c ∈ b.head?, isSpace c = false) : stripLws (a ++ b) = b := dropWhile_stop ha hb

/-- Text that no stripping changes. -/
structure Solid (s : List Char) : Prop where
  ne_nil : s ≠ []
  head : ∀ c ∈ s.head?, isSpace c = false
  last : ∀ c ∈ s.getLast?, isSpace c = false
  plain : ∀ c ∈ s, isComment c = false ∧ c ≠ '\x00'

theorem stripTws_append {s a : List Char} (hs : ∀ c ∈ s.getLast?, isSpace c = false) (ha : ∀ c ∈ a, isSpace c = true) :
    stripTws (s ++ a) = s := by
  unfold stripTws
  rw [List.reverse_append, dropWhile_stop, List.reverse_reverse]
  · intro c hc
    exact ha c (List.mem_reverse.1 hc)
  · rw [List.head?_reverse]
    exact hs

/-- What stripping leaves of a line. -/
theorem clean_eq {lead s : List Char} (hs : Solid s) (hlead : ∀ c ∈ lead, isSpace c = true) {ws : List Char}
    (hws : ∀ c ∈ ws, isSpace c = true) {comment : List Char} (hcomment : ∀ c ∈ comment.head?, isComment c = true) :
    stripTws (stripComment (stripLws (lead ++ (s ++ ws ++ comment)))) = s := by
  have hhead : ∀ c ∈ (s ++ ws ++ comment).head?, isSpace c = false := by
    intro c hc
    obtain ⟨a, t, rfl⟩ := List.exists_cons_of_ne_nil hs.ne_nil
    exact hs.head c hc
  have hplain : ∀ c ∈ s ++ ws, (!isComment c) = true := by
    intro c hc
    rcases List.mem_append.1 hc with hc | hc
    · rw [(hs.plain c hc).1]
      rfl
    · cases h : isComment c with
      | false => rfl
      | true =>
        have hspace := hws c hc
        unfold isComment at h
        simp only [Bool.or_eq_true, decide_eq_true_eq] at h
        rcases h with rfl | rfl <;> cases hspace
  rw [stripLws_append hlead hhead]
  unfold stripComment
  rw [takeWhile_stop hplain (fun c hc => by rw [hcomment c hc]; rfl)]
  exact stripTws_append hs.last hws

/-! ## Words and tokens -/

theorem Word.head_allowed (w : Word) : ∀ c ∈ w.chars.head?, isAllowed c false = true := fun c hc =>
  w.allowed c (List.mem_of_mem_head? hc)

theorem Blanks.space (b : Blanks) : ∀ c ∈ b.chars, isSpace c = true := fun c hc => (b.blank c hc).1

/-- A word, blanks, and a character that is part of neither. -/
theorem scan {w b : List Char} {c : Char} (hw : ∀ a ∈ w, isAllowed a false = true) (hb : ∀ a ∈ b, isSpace a = true)
    (hc : isAllowed c false = false ∧ isSpace c = false) (next : List Char) :
    (w ++ b ++ c :: next).takeWhile (isAllowed · false) = w ∧
      stripLws ((w ++ b ++ c :: next).dropWhile (isAllowed · false)) = c :: next := by
  have hhead : ∀ a ∈ (b ++ c :: next).head?, isAllowed a false = false := by
    intro a ha
    cases b with
    | nil =>
      obtain rfl : c = a := Option.some.inj ha
      exact hc.1
    | cons a' t =>
      obtain rfl : a' = a := Option.some.inj ha
      exact isAllowed_of_space (hb a' (List.mem_cons_self ..))
  rw [List.append_assoc]
  constructor
  · exact takeWhile_stop hw hhead
  · rw [dropWhile_stop hw hhead]
    apply stripLws_append hb
    intro a ha
    obtain rfl : c = a := Option.some.inj ha
    exact hc.2

/-- Blanks, also the end of a line. -/
def Spaces (s : List Char) : Prop := ∀ c ∈ s, isSpace c = true

/-- A scan splits what it goes over. -/
theorem scan_split (s : List Char) : ∃ before, Spaces before ∧
    s = s.takeWhile (isAllowed · false) ++ before ++ stripLws (s.dropWhile (isAllowed · false)) := by
  refine ⟨(s.dropWhile (isAllowed · false)).takeWhile isSpace, fun c hc => List.mem_takeWhile_imp hc, ?_⟩
  unfold stripLws
  rw [List.append_assoc, List.takeWhile_append_dropWhile, List.takeWhile_append_dropWhile]

theorem stripLws_split (s : List Char) : ∃ before, Spaces before ∧ s = before ++ stripLws s :=
  ⟨s.takeWhile isSpace, fun _ hc => List.mem_takeWhile_imp hc, List.takeWhile_append_dropWhile.symm⟩

/-- The word at the front. -/
theorem takeWhile_word {s : List Char} (h : s.takeWhile (isAllowed · false) ≠ []) :
    ∃ w : Word, w.chars = s.takeWhile (isAllowed · false) :=
  ⟨⟨_, h, fun _ hc => List.mem_takeWhile_imp (p := (isAllowed · false)) hc⟩, rfl⟩

theorem plain_of_space {c : Char} (h : isSpace c = true) : isComment c = false ∧ c ≠ '\x00' := by
  have hc : c ∈ [' ', '\t', '\n', '\x0b', '\x0c', '\r'] := of_decide_eq_true h
  simp only [List.mem_cons, List.not_mem_nil, or_false] at hc
  rcases hc with rfl | rfl | rfl | rfl | rfl | rfl <;> decide

theorem plain_of_allowed {c : Char} (h : isAllowed c false = true) : isComment c = false ∧ c ≠ '\x00' := by
  constructor
  · cases hc : isComment c with
    | false => rfl
    | true => rw [isAllowed_of_comment hc] at h; cases h
  · rintro rfl
    exact absurd h (by decide)

theorem Word.solid (w : Word) : Solid w.chars where
  ne_nil := w.ne_nil
  head := fun c hc => isSpace_of_allowed (w.head_allowed c hc)
  last := fun c hc => isSpace_of_allowed (w.allowed c (List.mem_of_mem_getLast? hc))
  plain := fun c hc => plain_of_allowed (w.allowed c hc)

theorem solid_singleton {c : Char} (hspace : isSpace c = false) (hplain : isComment c = false ∧ c ≠ '\x00') : Solid [c] where
  ne_nil := List.cons_ne_nil _ _
  head := by simpa using hspace
  last := by simpa using hspace
  plain := by simpa using hplain

theorem Solid.append {a b : List Char} (ha : Solid a) (ws : Blanks) (hb : Solid b) : Solid (a ++ ws.chars ++ b) where
  ne_nil := by simp [ha.ne_nil]
  head := by
    obtain ⟨c, t, h⟩ := List.exists_cons_of_ne_nil ha.ne_nil
    have hhead := ha.head
    rw [h] at hhead ⊢
    exact hhead
  last := by
    rw [List.getLast?_append_of_ne_nil _ hb.ne_nil]
    exact hb.last
  plain := by
    intro c hc
    simp only [List.mem_append] at hc
    rcases hc with (hc | hc) | hc
    · exact ha.plain c hc
    · exact plain_of_space (ws.space c hc)
    · exact hb.plain c hc

theorem Token.solid (t : Token) : Solid t.text := by
  cases t with
  | head key blanks => exact key.solid.append blanks (solid_singleton (by decide) (by decide))
  | opening => exact solid_singleton (by decide) (by decide)
  | item value blanks => exact value.solid.append blanks (solid_singleton (by decide) (by decide))
  | last value => exact value.solid
  | closing => exact solid_singleton (by decide) (by decide)

/-! ## The text of tokens -/

/-- The text of tokens and the blanks between them. -/
def body : List (Token × Blanks) → List Char
  | [] => []
  | [(t, _)] => t.text
  | (t, b) :: ts => t.text ++ b.chars ++ body ts

/-- What comes after a token. -/
def after (b : Blanks) : List (Token × Blanks) → List Char
  | [] => []
  | ts => b.chars ++ body ts

theorem body_cons (t : Token) (b : Blanks) (ts : List (Token × Blanks)) : body ((t, b) :: ts) = t.text ++ after b ts := by
  cases ts with
  | nil => exact (List.append_nil _).symm
  | cons t' ts => exact List.append_assoc ..

theorem body_solid (t : Token) (b : Blanks) (ts : List (Token × Blanks)) : Solid (body ((t, b) :: ts)) := by
  induction ts generalizing t b with
  | nil => exact t.solid
  | cons t' ts ih => exact t.solid.append b (ih t'.1 t'.2)

/-- A key is followed by the opening bracket, and the last item by the closing one. -/
def Follows : Token → Token → Prop
  | .head .., .opening => True
  | .head .., _ => False
  | .last _, .closing => True
  | .last _, _ => False
  | _, _ => True

/-- Tokens that can stand on a line, and fit in the buffer for a token. -/
structure Line (ts : List (Token × Blanks)) : Prop where
  follows : List.IsChain (fun t t' => Follows t.1 t'.1) ts
  fits : ∀ t ∈ ts, (t.1.text ++ t.2.chars).length < maxLineLen

theorem Line.tail {t : Token × Blanks} {ts : List (Token × Blanks)} (h : Line (t :: ts)) : Line ts :=
  ⟨h.follows.tail, fun t' ht' => h.fits t' (List.mem_cons_of_mem _ ht')⟩

theorem cpToBuff_prefix {a b : List Char} (h : a.length < maxLineLen) : cpToBuff (a ++ b) ((a ++ b).length - b.length) = a := by
  unfold maxLineLen at h
  unfold cpToBuff maxLineLen
  rw [List.length_append, Nat.add_sub_cancel, Nat.min_eq_left (by omega), List.take_left]

theorem cpToBuff_word {a b : List Char} (h : a.length < maxLineLen) : cpToBuff (a ++ b) a.length = a := by
  have hcp := cpToBuff_prefix (b := b) h
  rwa [List.length_append, Nat.add_sub_cancel] at hcp

theorem cpToBuff_self {a : List Char} (h : a.length < maxLineLen) : cpToBuff a a.length = a := by
  have hcp := cpToBuff_word (b := []) h
  rwa [List.append_nil] at hcp

/-- What a token looks like in the buffer: the blanks after the last item are copied with it. -/
def Copied (t : Token) (b : Blanks) (token : List Char) : Prop :=
  token = t.text ∨ ∃ v, t = .last v ∧ token = v.chars ++ b.chars

/-- A token, but for the closing bracket after an item, ends with a character that is part of no word. -/
theorem getListToken_stop {s w b next : List Char} {c : Char} (hs : stripTws (stripComment (stripLws s)) = w ++ b ++ c :: next)
    (hw : ∀ a ∈ w, isAllowed a false = true) (hb : ∀ a ∈ b, isSpace a = true)
    (hc : isAllowed c false = false ∧ isSpace c = false) (hstop : c = '=' ∨ c = '[' ∨ c = ',' ∨ (c = ']' ∧ w = []))
    (hfits : (w ++ b ++ [c]).length < maxLineLen) : getListToken s = some (w ++ b ++ [c], next) := by
  have hne : w ++ b ++ c :: next ≠ [] := List.append_ne_nil_of_right_ne_nil _ (List.cons_ne_nil _ _)
  have hcp := cpToBuff_prefix (b := next) hfits
  rw [List.append_assoc (w ++ b) [c] next, List.singleton_append] at hcp
  obtain ⟨hword, hrest⟩ := scan hw hb hc next
  unfold getListToken
  rw [hs]
  dsimp only
  rw [if_neg hne, hrest, hword]
  dsimp only
  rw [hcp]
  by_cases hbreak : c = '=' ∨ c = '[' ∨ c = ','
  · rw [if_pos hbreak]
  · obtain ⟨hclosing, hnil⟩ : c = ']' ∧ w = [] := by tauto
    rw [if_neg hbreak, if_neg (by rw [hc.1]; exact Bool.false_ne_true), if_pos hclosing, if_neg (not_not.2 hnil)]

/-- **The next token of a line.** -/
theorem getListToken_body {t : Token} {b : Blanks} {ts : List (Token × Blanks)} (h : Line ((t, b) :: ts))
    {lead : List Char} (hlead : ∀ c ∈ lead, isSpace c = true) :
    ∃ token lead', getListToken (lead ++ body ((t, b) :: ts)) = some (token, lead' ++ body ts) ∧
      (∀ c ∈ lead', isSpace c = true) ∧ Copied t b token := by
  have hclean : stripTws (stripComment (stripLws (lead ++ body ((t, b) :: ts)))) = t.text ++ after b ts := by
    have h := clean_eq (body_solid t b ts) hlead (List.forall_mem_nil _) (show ∀ c ∈ [].head?, isComment c = true by simp)
    rw [List.append_nil, List.append_nil] at h
    rw [h, body_cons]
  have hfits : t.text.length + b.chars.length < maxLineLen := by
    have h := h.fits _ (List.mem_cons_self ..)
    rwa [List.length_append] at h
  have htext : t.text.length < maxLineLen := Nat.lt_of_le_of_lt (Nat.le_add_right _ _) hfits
  have hafter : ∃ lead', after b ts = lead' ++ body ts ∧ ∀ c ∈ lead', isSpace c = true := by
    cases ts with
    | nil => exact ⟨[], rfl, List.forall_mem_nil _⟩
    | cons t' ts => exact ⟨b.chars, rfl, b.space⟩
  obtain ⟨lead', hlead', hspace⟩ := hafter
  cases t with
  | head key blanks =>
    refine ⟨_, lead', ?_, hspace, Or.inl rfl⟩
    rw [← hlead']
    apply getListToken_stop _ key.allowed blanks.space (by decide) (.inl rfl) htext
    rw [hclean, Token.text, List.append_assoc _ ['=']]
    rfl
  | opening =>
    refine ⟨_, lead', ?_, hspace, Or.inl rfl⟩
    rw [← hlead']
    exact getListToken_stop (w := []) (b := []) hclean (List.forall_mem_nil _) (List.forall_mem_nil _) (by decide) (by decide)
      (by decide)
  | item value blanks =>
    refine ⟨_, lead', ?_, hspace, Or.inl rfl⟩
    rw [← hlead']
    apply getListToken_stop _ value.allowed blanks.space (by decide) (.inr (.inr (.inl rfl))) htext
    rw [hclean, Token.text, List.append_assoc _ [',']]
    rfl
  | closing =>
    refine ⟨_, lead', ?_, hspace, Or.inl rfl⟩
    rw [← hlead']
    exact getListToken_stop (w := []) (b := []) hclean (List.forall_mem_nil _) (List.forall_mem_nil _) (by decide) (by decide)
      (by decide)
  | last value =>
    cases ts with
    | nil =>
      -- nothing comes after the token
      refine ⟨value.chars, [], ?_, List.forall_mem_nil _, Or.inl rfl⟩
      have hline : (Token.last value).text ++ after b [] = value.chars := List.append_nil _
      unfold getListToken
      rw [hclean, hline]
      dsimp only
      have hdrop : value.chars.dropWhile (isAllowed · false) = [] := List.dropWhile_eq_nil_iff.2 value.allowed
      rw [if_neg value.ne_nil, hdrop]
      rw [show stripLws [] = [] from rfl]
      dsimp only
      exact congrArg (fun a => some (a, [])) (cpToBuff_self htext)
    | cons t' ts =>
      -- the closing bracket comes after it
      obtain ⟨t', b'⟩ := t'
      have hfollows : Follows (.last value) t' := (List.isChain_cons_cons.1 h.follows).1
      cases t' with
      | closing =>
        refine ⟨value.chars ++ b.chars, [], ?_, List.forall_mem_nil _, Or.inr ⟨value, rfl, rfl⟩⟩
        have hbody : body ((Token.closing, b') :: ts) = ']' :: after b' ts := body_cons ..
        have hline : (Token.last value).text ++ after b ((Token.closing, b') :: ts) = value.chars ++ b.chars ++ ']' :: after b' ts := by
          rw [← hbody]
          exact (List.append_assoc ..).symm
        obtain ⟨hword, hrest⟩ := scan value.allowed b.space (c := ']') (by decide) (after b' ts)
        have hne : value.chars ++ b.chars ++ ']' :: after b' ts ≠ [] := List.append_ne_nil_of_right_ne_nil _ (List.cons_ne_nil _ _)
        unfold getListToken
        rw [hclean, hline]
        dsimp only
        rw [if_neg hne, hrest, hword]
        dsimp only
        rw [if_neg (by decide), if_neg (by decide), if_pos rfl, if_pos value.ne_nil, cpToBuff_prefix, hbody]
        · rfl
        · rw [List.length_append]
          exact hfits
      | head | opening | item | last => exact hfollows.elim

/-! ## What is done about tokens -/

variable {σ : Type*}

/-- A word and blanks. -/
theorem scan_end (w : Word) {b : List Char} (hb : ∀ a ∈ b, isSpace a = true) :
    (w.chars ++ b).takeWhile (isAllowed · false) = w.chars ∧ stripLws ((w.chars ++ b).dropWhile (isAllowed · false)) = [] := by
  have hhead : ∀ a ∈ b.head?, isAllowed a false = false := fun a ha => isAllowed_of_space (hb a (List.mem_of_mem_head? ha))
  constructor
  · exact takeWhile_stop w.allowed hhead
  · rw [dropWhile_stop w.allowed hhead]
    exact List.dropWhile_eq_nil_iff.2 hb

/-- A word is not a bracket. -/
theorem isListStart_word (w : Word) (s : List Char) : isListStart (w.chars ++ s) = false := by
  obtain ⟨c, t, hw⟩ := List.exists_cons_of_ne_nil w.ne_nil
  have hc : isAllowed c false = true := w.allowed c (by rw [hw]; exact List.mem_cons_self ..)
  apply decide_eq_false
  intro h
  rw [hw, List.cons_append] at h
  rw [(List.cons.inj h).1] at hc
  exact absurd hc (by decide)

/-- The word of a token, in the buffer for it. -/
theorem cpToBuff_token (w : Word) {s : List Char} (hfits : (w.chars ++ s).length < maxLineLen) :
    cpToBuff (w.chars ++ s) w.chars.length = w.chars := by
  rw [List.length_append] at hfits
  exact cpToBuff_word (by omega)

theorem isListHead_head (key : Word) (blanks : Blanks) (hfits : (key.chars ++ blanks.chars ++ ['=']).length < maxLineLen) :
    isListHead (key.chars ++ blanks.chars ++ ['=']) = some key.chars := by
  obtain ⟨hword, hrest⟩ := scan key.allowed blanks.space (c := '=') (by decide) []
  have hcp : cpToBuff (key.chars ++ blanks.chars ++ ['=']) key.chars.length = key.chars := by
    rw [List.append_assoc] at hfits ⊢
    exact cpToBuff_token key hfits
  unfold isListHead
  rw [hword, hrest]
  dsimp only
  rw [hcp]
  obtain ⟨c, t, hkey⟩ := List.exists_cons_of_ne_nil key.ne_nil
  rw [hkey]
  rfl

theorem isListHead_item (value : Word) (blanks : Blanks) : isListHead (value.chars ++ blanks.chars ++ [',']) = none := by
  obtain ⟨hword, hrest⟩ := scan value.allowed blanks.space (c := ',') (by decide) []
  obtain ⟨c, t, hvalue⟩ := List.exists_cons_of_ne_nil value.ne_nil
  unfold isListHead
  rw [hword, hrest, hvalue]
  rfl

theorem isListHead_last (value : Word) {b : List Char} (hb : ∀ a ∈ b, isSpace a = true) : isListHead (value.chars ++ b) = none := by
  obtain ⟨hword, hrest⟩ := scan_end value hb
  obtain ⟨c, t, hvalue⟩ := List.exists_cons_of_ne_nil value.ne_nil
  unfold isListHead
  rw [hword, hrest, hvalue]

theorem isListEntry_item (value : Word) (blanks : Blanks) (hfits : (value.chars ++ blanks.chars ++ [',']).length < maxLineLen) :
    isListEntry (value.chars ++ blanks.chars ++ [',']) = .yes value.chars false := by
  obtain ⟨hword, hrest⟩ := scan value.allowed blanks.space (c := ',') (by decide) []
  have hcp : cpToBuff (value.chars ++ blanks.chars ++ [',']) value.chars.length = value.chars := by
    rw [List.append_assoc] at hfits ⊢
    exact cpToBuff_token value hfits
  unfold isListEntry
  rw [hword, hrest]
  dsimp only
  rw [hcp]
  obtain ⟨c, t, hvalue⟩ := List.exists_cons_of_ne_nil value.ne_nil
  rw [hvalue]
  rfl

theorem isListEntry_last (value : Word) {b : List Char} (hb : ∀ a ∈ b, isSpace a = true)
    (hfits : value.chars.length < maxLineLen) : isListEntry (value.chars ++ b) = .yes value.chars true := by
  obtain ⟨hword, hrest⟩ := scan_end value hb
  unfold isListEntry
  rw [hword, hrest]
  dsimp only
  rw [cpToBuff_word hfits]
  obtain ⟨c, t, hvalue⟩ := List.exists_cons_of_ne_nil value.ne_nil
  rw [hvalue]

/-- What is done about a token is what it means. -/
theorem processToken_text {t : Token} {b : Blanks} {token : List Char} (ctx : Ctx) (cb : Call → σ → ℤ × σ) (st : State σ)
    (h : Copied t b token) (hfits : t.text.length < maxLineLen) : processToken ctx cb token st = t.step ctx cb st := by
  cases t with
  | head key blanks =>
    obtain rfl : token = key.chars ++ blanks.chars ++ ['='] := h.resolve_right (by simp)
    unfold processToken
    rw [isListHead_head key blanks hfits]
    rfl
  | opening =>
    obtain rfl : token = ['['] := h.resolve_right (by simp)
    rfl
  | item value blanks =>
    obtain rfl : token = value.chars ++ blanks.chars ++ [','] := h.resolve_right (by simp)
    unfold processToken
    rw [isListHead_item, List.append_assoc, isListStart_word, ← List.append_assoc, isListEntry_item value blanks hfits]
    rfl
  | last value =>
    obtain ⟨b', hb', rfl⟩ : ∃ b', (∀ a ∈ b', isSpace a = true) ∧ token = value.chars ++ b' := by
      rcases h with rfl | ⟨v, hv, rfl⟩
      · exact ⟨[], List.forall_mem_nil _, (List.append_nil _).symm⟩
      · obtain rfl := Token.last.inj hv
        exact ⟨b.chars, b.space, rfl⟩
    unfold processToken
    rw [isListHead_last value hb', isListStart_word, isListEntry_last value hb' hfits]
    rfl
  | closing =>
    obtain rfl : token = [']'] := h.resolve_right (by simp)
    rfl

/-- The loop over the tokens of a line. -/
theorem processTokens_body {ts : List (Token × Blanks)} (ctx : Ctx) (cb : Call → σ → ℤ × σ) (st : State σ) (h : Line ts)
    {lead : List Char} (hlead : ∀ c ∈ lead, isSpace c = true) :
    processTokens ctx cb (lead ++ body ts) st = runTokens ctx cb (ts.map Prod.fst) st := by
  induction ts generalizing lead st with
  | nil =>
    have hnone : getListToken (lead ++ body []) = none := by
      have hstrip : stripLws (lead ++ body []) = [] := List.dropWhile_eq_nil_iff.2 (by simpa [body] using hlead)
      unfold getListToken
      rw [hstrip]
      rfl
    exact processTokens_none hnone st
  | cons t ts ih =>
    obtain ⟨t, b⟩ := t
    obtain ⟨token, lead', htoken, hlead', hcopied⟩ := getListToken_body h hlead
    have hfits : t.text.length < maxLineLen := by
      have h := h.fits _ (List.mem_cons_self ..)
      rw [List.length_append] at h
      exact Nat.lt_of_le_of_lt (Nat.le_add_right _ _) h
    rw [processTokens_some htoken, processToken_text ctx cb st hcopied hfits, List.map_cons, runTokens]
    cases t.step ctx cb st with
    | error e => rfl
    | ok st' => exact ih st' h.tail hlead'

end Libtarp.IniParse
