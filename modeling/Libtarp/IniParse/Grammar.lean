import Libtarp.IniParse.Lines

/-!
# The grammars of lines

* `SectionTitle`, `Record`, `Head`: what a section title, a record and the head of a list are.
* `isSectionLine_iff`, `isRecordLine_iff`, `isListHead_iff`: a line within the limit is taken for one exactly where it
  is one, and nothing of a name, a key or a value is cut off.
* `lines_right`: so each line is at most one of them.
-/

namespace Libtarp.IniParse

variable {s name key val : List Char}

/-- `[name]`, with blanks around the name. -/
def SectionTitle (s name : List Char) : Prop :=
  ∃ (w : Word) (before after : List Char), Spaces before ∧ Spaces after ∧ name = w.chars ∧
    s = '[' :: (before ++ (w.chars ++ after ++ [']']))

/-- `key = value`: the value begins with a character that is no blank, and goes on to the end. -/
def Record (s key val : List Char) : Prop :=
  ∃ (w : Word) (before after : List Char), Spaces before ∧ Spaces after ∧ key = w.chars ∧ val ≠ [] ∧
    (∀ c ∈ val.head?, isAllowed c false = true) ∧ (∀ c ∈ val, isAllowed c true = true) ∧
    s = w.chars ++ before ++ '=' :: (after ++ val)

/-- `key =`. -/
def Head (s key : List Char) : Prop :=
  ∃ (w : Word) (before : List Char), Spaces before ∧ key = w.chars ∧ s = w.chars ++ before ++ ['=']

/-! ## Section titles -/

/-- What comes after the opening bracket. -/
theorem isSectionLine_cons (line : List Char) : isSectionLine ('[' :: line) =
    match (stripLws line).takeWhile (isAllowed · false), (stripLws line).dropWhile (isAllowed · false) with
    | [], _ => none
    | _, [] => none
    | _, c :: _ =>
      if !isSpace c && c ≠ ']' then none
      else if stripLws ((stripLws line).dropWhile (isAllowed · false)) = [']'] then
        some (cpToBuff (stripLws line) ((stripLws line).takeWhile (isAllowed · false)).length)
      else none := rfl

theorem sectionTitle_of_isSectionLine (hlen : s.length ≤ maxLineLen) (h : isSectionLine s = some name) :
    SectionTitle s name := by
  unfold isSectionLine at h
  split at h
  · next line =>
    obtain ⟨before, hbefore, hline⟩ := stripLws_split line
    obtain ⟨after, hafter, hstart⟩ := scan_split (stripLws line)
    dsimp only at h
    split at h
    · cases h
    · cases h
    · next hname =>
      split_ifs at h with hend hrest
      obtain ⟨w, hw⟩ := takeWhile_word hname
      rw [hrest, ← hw] at hstart
      have hfits : w.chars.length < maxLineLen := by
        rw [hline, hstart] at hlen
        simp only [List.length_cons, List.length_append, List.length_nil] at hlen
        omega
      rw [← hw, hstart, List.append_assoc, cpToBuff_word hfits] at h
      refine ⟨w, before, after, hbefore, hafter, (Option.some.inj h).symm, ?_⟩
      rw [← hstart, ← hline]
  · cases h

theorem isSectionLine_of_sectionTitle (hlen : s.length ≤ maxLineLen) (h : SectionTitle s name) :
    isSectionLine s = some name := by
  obtain ⟨w, before, after, hbefore, hafter, rfl, rfl⟩ := h
  obtain ⟨hword, hrest⟩ := scan w.allowed hafter (c := ']') (by decide) []
  have hhead : ∀ c ∈ (w.chars ++ after ++ [']']).head?, isSpace c = false := by
    obtain ⟨c, t, hw⟩ := List.exists_cons_of_ne_nil w.ne_nil
    intro a ha
    rw [hw] at ha
    obtain rfl := Option.some.inj ha
    exact isSpace_of_allowed (w.allowed c (by rw [hw]; exact List.mem_cons_self))
  have hstart := stripLws_append hbefore hhead
  have hfits : w.chars.length < maxLineLen := by
    simp only [List.length_cons, List.length_append, List.length_nil] at hlen
    omega
  rw [isSectionLine_cons, hstart, hword]
  split
  · next heq => exact absurd heq w.ne_nil
  · next heq _ =>
    rw [heq] at hrest
    cases hrest
  · next c tail hdrop _ =>
    -- the character after the name is a blank or the bracket
    have hend : ¬(!isSpace c && decide (c ≠ ']')) = true := by
      intro hend
      rw [hdrop] at hrest
      unfold stripLws at hrest
      obtain ⟨hspace, hbracket⟩ := Bool.and_eq_true_iff.1 hend
      rw [List.dropWhile_cons_of_neg (by simpa using hspace)] at hrest
      exact of_decide_eq_true hbracket (List.cons.inj hrest).1
    rw [if_neg hend, if_pos hrest, List.append_assoc, cpToBuff_word hfits]

theorem isSectionLine_iff (hlen : s.length ≤ maxLineLen) : isSectionLine s = some name ↔ SectionTitle s name :=
  ⟨sectionTitle_of_isSectionLine hlen, isSectionLine_of_sectionTitle hlen⟩

/-! ## Records -/

/-- What comes after the key. -/
theorem isRecordLine_key {rest : List Char} (hkey : s.takeWhile (isAllowed · false) ≠ [])
    (hrest : stripLws (s.dropWhile (isAllowed · false)) = '=' :: rest) : isRecordLine s =
      match stripLws rest with
      | [] => none
      | c :: _ =>
        if !isAllowed c false then none
        else if (stripLws rest).dropWhile (isAllowed · true) ≠ [] then none
        else some (cpToBuff s (s.takeWhile (isAllowed · false)).length,
          cpToBuff (stripLws rest) ((stripLws rest).takeWhile (isAllowed · true)).length) := by
  obtain ⟨c, t, hcons⟩ := List.exists_cons_of_ne_nil hkey
  unfold isRecordLine
  rw [hrest, hcons]
  rfl

/-- A record has a key and an equals sign. -/
theorem isRecordLine_cases (h : isRecordLine s = some (key, val)) : s.takeWhile (isAllowed · false) ≠ [] ∧
    ∃ rest, stripLws (s.dropWhile (isAllowed · false)) = '=' :: rest := by
  unfold isRecordLine at h
  dsimp only at h
  split at h
  · cases h
  · next rest hrest hne => exact ⟨hne, rest, hrest⟩
  · cases h

theorem record_of_isRecordLine (hlen : s.length ≤ maxLineLen) (h : isRecordLine s = some (key, val)) : Record s key val := by
  obtain ⟨hkey, rest, hrest⟩ := isRecordLine_cases h
  rw [isRecordLine_key hkey hrest] at h
  obtain ⟨before, hbefore, hs⟩ := scan_split s
  obtain ⟨after, hafter, hvalue⟩ := stripLws_split rest
  obtain ⟨w, hw⟩ := takeWhile_word hkey
  split at h
  · cases h
  · next c tail hstart =>
    split_ifs at h with hfirst hall
    have hwhole : (stripLws rest).takeWhile (isAllowed · true) = stripLws rest := by
      have hsplit := List.takeWhile_append_dropWhile (p := (isAllowed · true)) (l := stripLws rest)
      rwa [not_not.1 hall, List.append_nil] at hsplit
    rw [hrest, ← hw, hvalue] at hs
    have hlengths := hlen
    rw [hs] at hlengths
    simp only [List.length_append, List.length_cons] at hlengths
    have hkeyFits : cpToBuff s (s.takeWhile (isAllowed · false)).length = w.chars := by
      rw [← hw, hs, List.append_assoc]
      exact cpToBuff_word (by omega)
    rw [hkeyFits, hwhole, cpToBuff_self (by omega)] at h
    obtain ⟨rfl, rfl⟩ := Prod.mk.inj (Option.some.inj h)
    refine ⟨w, before, after, hbefore, hafter, rfl, by rw [hstart]; exact List.cons_ne_nil c tail, ?_, ?_, hs⟩
    · intro a ha
      rw [hstart] at ha
      obtain rfl := Option.some.inj ha
      simpa using hfirst
    · exact List.takeWhile_eq_self_iff.1 hwhole

theorem isRecordLine_of_record (hlen : s.length ≤ maxLineLen) (h : Record s key val) : isRecordLine s = some (key, val) := by
  obtain ⟨w, before, after, hbefore, hafter, rfl, hne, hfirst, hall, rfl⟩ := h
  obtain ⟨hword, hrest⟩ := scan w.allowed hbefore (c := '=') (by decide) (after ++ val)
  have hstart : stripLws (after ++ val) = val := stripLws_append hafter fun c hc => isSpace_of_allowed (hfirst c hc)
  have hwhole : val.takeWhile (isAllowed · true) = val := List.takeWhile_eq_self_iff.2 hall
  have hnothing : val.dropWhile (isAllowed · true) = [] := List.dropWhile_eq_nil_iff.2 hall
  simp only [List.length_append, List.length_cons] at hlen
  have hkey : cpToBuff (w.chars ++ before ++ '=' :: (after ++ val)) w.chars.length = w.chars := by
    rw [List.append_assoc]
    exact cpToBuff_word (by omega)
  rw [isRecordLine_key (by rw [hword]; exact w.ne_nil) hrest, hstart, hword, hwhole, hnothing, hkey, cpToBuff_self (by omega)]
  obtain ⟨c, t, rfl⟩ := List.exists_cons_of_ne_nil hne
  dsimp only
  rw [hfirst c rfl]
  rfl

theorem isRecordLine_iff (hlen : s.length ≤ maxLineLen) : isRecordLine s = some (key, val) ↔ Record s key val :=
  ⟨record_of_isRecordLine hlen, isRecordLine_of_record hlen⟩

/-! ## Heads of lists -/

theorem head_of_isListHead (hlen : s.length ≤ maxLineLen) (h : isListHead s = some key) : Head s key := by
  obtain ⟨before, hbefore, hs⟩ := scan_split s
  unfold isListHead at h
  dsimp only at h
  split at h
  · cases h
  · next hrest hkey =>
    obtain ⟨w, hw⟩ := takeWhile_word hkey
    rw [hrest, ← hw] at hs
    have hfits : w.chars.length < maxLineLen := by
      rw [hs] at hlen
      simp only [List.length_append, List.length_singleton] at hlen
      omega
    have hcopied : cpToBuff s w.chars.length = w.chars := by
      rw [hs, List.append_assoc]
      exact cpToBuff_word hfits
    rw [← hw, hcopied] at h
    exact ⟨w, before, hbefore, (Option.some.inj h).symm, hs⟩
  · cases h

theorem isListHead_of_head (hlen : s.length ≤ maxLineLen) (h : Head s key) : isListHead s = some key := by
  obtain ⟨w, before, hbefore, rfl, rfl⟩ := h
  obtain ⟨hword, hrest⟩ := scan w.allowed hbefore (c := '=') (by decide) []
  have hcopied : cpToBuff (w.chars ++ before ++ ['=']) w.chars.length = w.chars := by
    simp only [List.length_append, List.length_singleton] at hlen
    rw [List.append_assoc]
    exact cpToBuff_word (by omega)
  obtain ⟨c, t, hw⟩ := List.exists_cons_of_ne_nil w.ne_nil
  unfold isListHead
  rw [hword, hrest]
  dsimp only
  rw [hcopied, hw]
  rfl

theorem isListHead_iff (hlen : s.length ≤ maxLineLen) : isListHead s = some key ↔ Head s key :=
  ⟨head_of_isListHead hlen, isListHead_of_head hlen⟩

/-! ## Lines -/

/-- A line is taken for what it is, and for one thing only. -/
structure LineRight (s : List Char) : Prop where
  title : ∀ name, isSectionLine s = some name ↔ SectionTitle s name
  record : ∀ key val, isRecordLine s = some (key, val) ↔ Record s key val
  head : ∀ key, isListHead s = some key ↔ Head s key
  titleOrRecord : isSectionLine s = none ∨ isRecordLine s = none
  titleOrHead : isSectionLine s = none ∨ isListHead s = none
  recordOrHead : isRecordLine s = none ∨ isListHead s = none

/-- A section title begins with a bracket. -/
theorem not_section_of_word (w : Word) (t : List Char) : ¬SectionTitle (w.chars ++ t) name := by
  rintro ⟨w', before, after, -, -, -, hs⟩
  obtain ⟨c, u, hw⟩ := List.exists_cons_of_ne_nil w.ne_nil
  have hc := w.allowed c (by rw [hw]; exact List.mem_cons_self)
  rw [hw, List.cons_append] at hs
  rw [(List.cons.inj hs).1] at hc
  exact absurd hc (by decide)

/-- A value comes after the equals sign, or the line is the head of a list. -/
theorem not_record_of_head {key' : List Char} (hhead : Head s key) : ¬Record s key' val := by
  obtain ⟨w, before, hbefore, -, rfl⟩ := hhead
  rintro ⟨w', before', after, hbefore', -, -, hne, -, -, hs⟩
  have hrest := (scan w.allowed hbefore (c := '=') (by decide) []).2
  rw [hs, (scan w'.allowed hbefore' (c := '=') (by decide) (after ++ val)).2] at hrest
  exact hne (List.append_eq_nil_iff.1 (List.cons.inj hrest).2).2

theorem eq_none_or {α β : Type*} {a : Option α} {b : Option β} (h : ∀ x y, a = some x → b = some y → False) :
    a = none ∨ b = none := by
  cases ha : a with
  | none => exact .inl rfl
  | some x =>
    cases hb : b with
    | none => exact .inr rfl
    | some y => exact (h x y ha hb).elim

/-- **A line within the limit** is a section title, a record or the head of a list exactly where it is taken for one,
and it is one of them at most. -/
theorem lines_right (s : List Char) (hlen : s.length ≤ maxLineLen) : LineRight s where
  title _ := isSectionLine_iff hlen
  record _ _ := isRecordLine_iff hlen
  head _ := isListHead_iff hlen
  titleOrRecord := eq_none_or fun name r hsection hrecord => by
    obtain ⟨w, before, after, -, -, -, -, -, -, hs⟩ := record_of_isRecordLine hlen hrecord
    have htitle := sectionTitle_of_isSectionLine hlen hsection
    rw [hs, List.append_assoc] at htitle
    exact not_section_of_word w _ htitle
  titleOrHead := eq_none_or fun name key hsection hhead => by
    obtain ⟨w, before, -, -, hs⟩ := head_of_isListHead hlen hhead
    have htitle := sectionTitle_of_isSectionLine hlen hsection
    rw [hs, List.append_assoc] at htitle
    exact not_section_of_word w _ htitle
  recordOrHead := eq_none_or fun r key hrecord hhead =>
    not_record_of_head (head_of_isListHead hlen hhead) (record_of_isRecordLine hlen hrecord)

/-- A record of 1024 characters, with a key that is as long as it can be. -/
theorem lines_right_long : LineRight (List.replicate 1022 'k' ++ "=v".toList) :=
  lines_right _ (by rw [List.length_append, List.length_replicate]; decide)

end Libtarp.IniParse
