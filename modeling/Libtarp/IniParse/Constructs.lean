import Libtarp.IniParse.Steps
import Mathlib.Data.List.Induction

/-!
# Files of complete constructs

A file is a sequence of section titles, records and lists. `Lexeme` is what the parser takes a line or a
token of a list for; what the lexemes of a file are does not depend on the state of the parser.

* `processLines_lexemes`: the parser makes of a file what `Lexeme.goes` makes of its lexemes.
* `goesAll_split`: they are those of constructs, and of a list that may be open still.
* `complete_iff`: a file that is parsed without an error is complete if it does not end within a list.
-/

namespace Libtarp.IniParse

/-! ## Lexemes -/

/-- What a line or a token of a list is. -/
inductive Lexeme
  | title (name : List Char)
  | record (key val : List Char)
  | head (key : List Char)
  | opening
  /-- An item that a comma follows. -/
  | item (val : List Char)
  | last (val : List Char)
  | closing
  deriving DecidableEq

def lexToken (token : List Char) : Option Lexeme :=
  match isListHead token with
  | some key => some (.head key)
  | none =>
    if isListStart token then some .opening
    else match isListEntry token with
      | .asserted => none
      | .yes val islast => some (if islast then .last val else .item val)
      | .no => if isListEnd token then some .closing else none

def lexTokens (line : List Char) : Option (List Lexeme) :=
  match _h : getListToken line with
  | none => some []
  | some (token, next) => do
    let x ← lexToken token
    let xs ← lexTokens next
    return x :: xs
termination_by line.length
decreasing_by exact getListToken_lt _h

theorem lexTokens_none {line : List Char} (h : getListToken line = none) : lexTokens line = some [] := by
  rw [lexTokens]
  split
  · rfl
  · next heq => exact absurd (h.symm.trans heq) nofun

theorem lexTokens_some {line token next : List Char} (h : getListToken line = some (token, next)) :
    lexTokens line = (do
      let x ← lexToken token
      let xs ← lexTokens next
      return x :: xs) := by
  rw [lexTokens]
  split
  · next heq => exact absurd (h.symm.trans heq) nofun
  · next heq =>
    obtain ⟨rfl, rfl⟩ := Prod.mk.inj (Option.some.inj (h.symm.trans heq))
    rfl

def lexText (buff : List Char) : Option (List Lexeme) :=
  match isSectionLine buff with
  | some name => some [.title name]
  | none =>
    match isRecordLine buff with
    | some (key, val) => some [.record key val]
    | none => lexTokens buff

def lexLine (line : List Char) : Option (List Lexeme) :=
  let buff := line.takeWhile (· ≠ '\x00')
  if isEmptyLine buff || isCommentLine buff then some []
  else lexText (stripTws (stripComment (stripLws buff)))

/-- The lexemes of a file, unless a token is none. -/
def lexemes : List (List Char) → Option (List Lexeme)
  | [] => some []
  | line :: lines => do
    let xs ← lexLine line
    let ys ← lexemes lines
    return xs ++ ys

/-! ## Constructs -/

inductive Construct
  | title (name : List Char)
  | record (key val : List Char)
  | list (key : List Char) (items : List (List Char)) (last : List Char)

def Construct.lexemes : Construct → List Lexeme
  | title name => [.title name]
  | record key val => [.record key val]
  | list key items last => .head key :: .opening :: items.map .item ++ [.last last, .closing]

/-- The section that a construct is followed by. -/
def Construct.sectionAfter (name : List Char) : Construct → List Char
  | title name => name
  | record .. | list .. => name

def itemCall (name key val : List Char) : Call := { list := .listOngoing, section' := name, k := key, v := val }

def lastCall (name key val : List Char) : Call := { list := .listLast, section' := name, k := key, v := val }

/-- One call for a record and for each item of a list. -/
def Construct.calls (name : List Char) : Construct → List Call
  | title _ => []
  | record key val => [{ list := .nolist, section' := name, k := key, v := val }]
  | list key items last => items.map (itemCall name key) ++ [lastCall name key last]

/-- The calls for constructs that come after a section title. -/
def callsOf : List Char → List Construct → List Call
  | _, [] => []
  | name, c :: cs => c.calls name ++ callsOf (c.sectionAfter name) cs

/-- The file is a sequence of constructs, and the calls are those for them. -/
def Complete (lines : List (List Char)) (calls : List Call) : Prop :=
  ∃ cs : List Construct, lexemes lines = some (cs.flatMap Construct.lexemes) ∧ calls = callsOf [] cs

/-! ## Files that end within a list -/

/-- `read_line` returns 0, which is taken for the end of the file. -/
def looksLikeEof (line : List Char) : Bool := line.length % 2 ^ 32 = 0

/-- The lines that are read. -/
def linesRead (lines : List (List Char)) : List (List Char) := lines.takeWhile (!looksLikeEof ·)

def linesUnread (lines : List (List Char)) : List (List Char) := lines.dropWhile (!looksLikeEof ·)

/-- After the lexeme `last` comes nothing but the end of a list and section titles. -/
def NothingLeft (last : Option Lexeme) (xs : List Lexeme) : Prop :=
  match last with
  | none | some (.title _) | some (.record ..) | some .closing => ∀ x ∈ xs, ∃ name, x = .title name
  | some (.last _) => ∃ ys, xs = .closing :: ys ∧ ∀ x ∈ ys, ∃ name, x = .title name
  | some (.head _) | some .opening | some (.item _) => False

/-- What is read does not end within a list, and has all records and items. Without lines of a length that is a
multiple of 2^32 this is so if the last lexeme is none of a list, or closes it. -/
def Closes (lines : List (List Char)) : Prop :=
  ∃ xs ys, lexemes (linesRead lines) = some xs ∧ lexemes (linesUnread lines) = some ys ∧ NothingLeft xs.getLast? ys

/-! ## What lexemes do -/

/-- The state of the parser that lexemes depend on. -/
structure Place where
  list : ListState
  (section' : List Char)
  key : List Char

/-- Where a lexeme leads, and the calls for it. -/
def Lexeme.goes : Lexeme → Place → Option (Place × List Call)
  | title name, p => if p.list = .nolist then some ({ p with section' := name }, []) else none
  | record key val, p =>
    if p.list = .nolist then
      some ({ p with key := key }, [{ list := .nolist, section' := p.section', k := key, v := val }])
    else none
  | head key, p => if p.list = .nolist then some ({ p with list := .listHead, key := key }, []) else none
  | opening, p => if p.list = .listHead then some ({ p with list := .listOpen }, []) else none
  | item val, p =>
    if p.list = .listOpen ∨ p.list = .listOngoing then
      some ({ p with list := .listOngoing }, [itemCall p.section' p.key val])
    else none
  | last val, p =>
    if p.list = .listOpen ∨ p.list = .listOngoing then
      some ({ p with list := .listLast }, [lastCall p.section' p.key val])
    else none
  | closing, p => if p.list = .listLast then some ({ p with list := .nolist }, []) else none

def goesAll : List Lexeme → Place → Option (Place × List Call)
  | [], p => some (p, [])
  | x :: xs, p => do
    let (p, calls) ← x.goes p
    let (p, calls') ← goesAll xs p
    return (p, calls ++ calls')

theorem of_ite_some {β : Type*} {c : Prop} [Decidable c] {a b : β} (h : (if c then some a else none) = some b) :
    c ∧ b = a := by
  split_ifs at h with hc
  exact ⟨hc, (Option.some.inj h).symm⟩

theorem goesAll_cons {x : Lexeme} {xs : List Lexeme} {p p' : Place} {calls : List Call} :
    goesAll (x :: xs) p = some (p', calls) ↔
      ∃ p₁ new new', x.goes p = some (p₁, new) ∧ goesAll xs p₁ = some (p', new') ∧ calls = new ++ new' := by
  constructor
  · intro h
    obtain ⟨⟨p₁, new⟩, hx, h⟩ := Option.bind_eq_some_iff.1 h
    obtain ⟨⟨p₂, new'⟩, hxs, h⟩ := Option.bind_eq_some_iff.1 h
    obtain ⟨rfl, rfl⟩ := Prod.mk.inj (Option.some.inj h)
    exact ⟨p₁, new, new', hx, hxs, rfl⟩
  · rintro ⟨p₁, new, new', hx, hxs, rfl⟩
    refine Option.bind_eq_some_iff.2 ⟨_, hx, ?_⟩
    exact Option.bind_eq_some_iff.2 ⟨_, hxs, rfl⟩

theorem goesAll_append {xs ys : List Lexeme} {p p' : Place} {calls : List Call} :
    goesAll (xs ++ ys) p = some (p', calls) ↔
      ∃ p₁ new new', goesAll xs p = some (p₁, new) ∧ goesAll ys p₁ = some (p', new') ∧ calls = new ++ new' := by
  induction xs generalizing p calls with
  | nil =>
    constructor
    · intro h
      exact ⟨p, [], calls, rfl, h, rfl⟩
    · rintro ⟨p₁, new, new', h, hys, rfl⟩
      obtain ⟨rfl, rfl⟩ := Prod.mk.inj (Option.some.inj h)
      exact hys
  | cons x xs ih =>
    rw [List.cons_append, goesAll_cons]
    constructor
    · rintro ⟨p₁, new, new', hx, h, rfl⟩
      obtain ⟨p₂, new₂, new₃, hxs, hys, rfl⟩ := ih.1 h
      exact ⟨p₂, new ++ new₂, new₃, goesAll_cons.2 ⟨p₁, new, new₂, hx, hxs, rfl⟩, hys, (List.append_assoc ..).symm⟩
    · rintro ⟨p₂, calls', new₃, h, hys, rfl⟩
      obtain ⟨p₁, new, new₂, hx, hxs, rfl⟩ := goesAll_cons.1 h
      exact ⟨p₁, new, new₂ ++ new₃, hx, ih.2 ⟨p₂, new₂, new₃, hxs, hys, rfl⟩, List.append_assoc ..⟩

theorem goesAll_concat {xs : List Lexeme} {x : Lexeme} {p p' : Place} {calls : List Call}
    (h : goesAll (xs ++ [x]) p = some (p', calls)) :
    ∃ p₁ old new, goesAll xs p = some (p₁, old) ∧ x.goes p₁ = some (p', new) ∧ calls = old ++ new := by
  obtain ⟨p₁, old, new', hxs, hlast, rfl⟩ := goesAll_append.1 h
  obtain ⟨p₂, new, none, hx, hnil, rfl⟩ := goesAll_cons.1 hlast
  obtain ⟨rfl, rfl⟩ := Prod.mk.inj (Option.some.inj hnil)
  exact ⟨p₁, old, new, hxs, hx, by rw [List.append_nil]⟩

/-! ## The parser -/

variable {σ : Type*}

def State.place (st : State σ) : Place := { list := st.list, section' := st.section', key := st.key }

/-- The parser goes from `st` to `st'` as lexemes lead it. -/
def Reports (xs : List Lexeme) (st st' : State σ) : Prop :=
  ∃ new, goesAll xs st.place = some (st'.place, new) ∧ st'.calls = st.calls ++ new

theorem reports_nil (st : State σ) : Reports [] st st := ⟨[], rfl, (List.append_nil _).symm⟩

theorem Reports.append {xs ys : List Lexeme} {st st₁ st' : State σ} (h : Reports xs st st₁) (h' : Reports ys st₁ st') :
    Reports (xs ++ ys) st st' := by
  obtain ⟨new, hxs, hc⟩ := h
  obtain ⟨new', hys, hc'⟩ := h'
  exact ⟨new ++ new', goesAll_append.2 ⟨_, _, _, hxs, hys, rfl⟩, by rw [hc', hc, List.append_assoc]⟩

theorem reports_one {x : Lexeme} {st st' : State σ} {new : List Call} (h : x.goes st.place = some (st'.place, new))
    (hc : st'.calls = st.calls ++ new) : Reports [x] st st' :=
  ⟨new, goesAll_cons.2 ⟨_, _, _, h, rfl, (List.append_nil _).symm⟩, hc⟩

theorem setList_ok {ctx : Ctx} {next : ListState} {st st' : State σ} (h : setList ctx next st = .ok st') :
    getListError ctx st.list next = none ∧ st' = { st with list := next } := by
  unfold setList at h
  split at h
  · cases h
  · next he => exact ⟨he, (Except.ok.inj h).symm⟩

theorem callback_ok {cb : Call → σ → ℤ × σ} {st st' : State σ} (h : callback cb st = .ok st') :
    st'.place = st.place ∧
      st'.calls = st.calls ++ [{ list := st.list, section' := st.section', k := st.key, v := st.val }] := by
  unfold callback at h
  dsimp only at h
  split_ifs at h
  obtain rfl := Except.ok.inj h
  exact ⟨rfl, rfl⟩

theorem getListError_eq_none {ctx : Ctx} {prev next : ListState} (h : getListError ctx prev next = none) :
    match next with
    | .listHead => prev = .nolist
    | .listOpen => prev = .listHead
    | .listOngoing | .listLast => prev = .listOpen ∨ prev = .listOngoing
    | .nolist => prev = .listLast := by
  cases prev <;> cases next <;> simp [getListError] at h ⊢
  split_ifs at h

theorem processToken_lexeme {ctx : Ctx} {cb : Call → σ → ℤ × σ} {token : List Char} {st st' : State σ}
    (h : processToken ctx cb token st = .ok st') : ∃ x, lexToken token = some x ∧ Reports [x] st st' := by
  unfold processToken at h
  unfold lexToken
  cases hhead : isListHead token with
  | some key =>
    rw [hhead] at h
    obtain ⟨he, rfl⟩ := setList_ok h
    exact ⟨_, rfl, reports_one (if_pos (getListError_eq_none he)) (List.append_nil _).symm⟩
  | none =>
    simp only [hhead] at h
    by_cases hstart : isListStart token = true
    · rw [if_pos hstart] at h
      obtain ⟨he, rfl⟩ := setList_ok h
      exact ⟨_, if_pos hstart, reports_one (if_pos (getListError_eq_none he)) (List.append_nil _).symm⟩
    rw [if_neg hstart] at h
    simp only [if_neg hstart]
    cases hentry : isListEntry token with
    | asserted =>
      rw [hentry] at h
      cases h
    -- the callback is made after the state has changed
    | yes val islast =>
      simp only [hentry] at h
      cases hset : setList ctx (if islast then .listLast else .listOngoing) { st with val := val } with
      | error e =>
        rw [hset] at h
        cases h
      | ok st₁ =>
        rw [hset] at h
        obtain ⟨hplace, hcalls⟩ := callback_ok h
        obtain ⟨he, rfl⟩ := setList_ok hset
        refine ⟨_, rfl, ?_⟩
        cases islast with
        | true => exact reports_one (hplace ▸ if_pos (getListError_eq_none he)) hcalls
        | false => exact reports_one (hplace ▸ if_pos (getListError_eq_none he)) hcalls
    | no =>
      simp only [hentry] at h
      by_cases hend : isListEnd token = true
      · rw [if_pos hend] at h
        obtain ⟨he, rfl⟩ := setList_ok h
        exact ⟨_, if_pos hend, reports_one (if_pos (getListError_eq_none he)) (List.append_nil _).symm⟩
      · rw [if_neg hend] at h
        cases h

theorem processTokens_lexemes {ctx : Ctx} {cb : Call → σ → ℤ × σ} {line : List Char} {st st' : State σ}
    (h : processTokens ctx cb line st = .ok st') : ∃ xs, lexTokens line = some xs ∧ Reports xs st st' := by
  induction line using lexTokens.induct generalizing st with
  | case1 line htoken =>
    rw [processTokens_none htoken] at h
    obtain rfl := Except.ok.inj h
    exact ⟨[], lexTokens_none htoken, reports_nil _⟩
  | case2 line token next htoken ih =>
    rw [processTokens_some htoken] at h
    cases hp : processToken ctx cb token st with
    | error e =>
      rw [hp] at h
      cases h
    | ok st₁ =>
      rw [hp] at h
      obtain ⟨x, hx, hfollows⟩ := processToken_lexeme hp
      obtain ⟨xs, hxs, hfollows'⟩ := ih h
      refine ⟨x :: xs, ?_, hfollows.append hfollows'⟩
      rw [lexTokens_some htoken, hx, hxs]
      rfl

theorem processText_lexemes {ctx : Ctx} {cb : Call → σ → ℤ × σ} {buff : List Char} {st st' : State σ}
    (h : processText ctx cb buff st = .ok st') : ∃ xs, lexText buff = some xs ∧ Reports xs st st' := by
  unfold processText at h
  unfold lexText
  cases htitle : isSectionLine buff with
  | some name =>
    simp only [htitle] at h
    split_ifs at h with hlist
    · cases h
    · obtain rfl := Except.ok.inj h
      exact ⟨_, rfl, reports_one (if_pos (not_not.1 hlist)) (List.append_nil _).symm⟩
  | none =>
    simp only [htitle] at h
    cases hrecord : isRecordLine buff with
    | some kv =>
      simp only [hrecord] at h
      split_ifs at h with _ hlist
      · cases h
      · cases h
      · obtain ⟨hplace, hcalls⟩ := callback_ok h
        have hnone : st.list = .nolist := not_not.1 hlist
        refine ⟨_, rfl, reports_one (by rw [hplace]; exact if_pos hnone) ?_⟩
        rw [hcalls, hnone]
        rfl
    | none =>
      simp only [hrecord] at h
      exact processTokens_lexemes h

theorem processLine_lexemes {ctx : Ctx} {cb : Call → σ → ℤ × σ} {line : List Char} {st st' : State σ}
    (h : processLine ctx cb line st = .ok st') :
    looksLikeEof line = false ∧ ∃ xs, lexLine line = some xs ∧ Reports xs st st' := by
  unfold processLine at h
  unfold lexLine looksLikeEof
  dsimp only at h ⊢
  split_ifs at h with hzero _ hempty
  · cases h
  · obtain rfl := Except.ok.inj h
    exact ⟨decide_eq_false hzero, [], if_pos hempty, reports_nil _⟩
  · obtain ⟨xs, hxs, hfollows⟩ := processText_lexemes h
    exact ⟨decide_eq_false hzero, xs, by rw [if_neg hempty, hxs], hfollows⟩

/-- Only the end of the file is taken for it. -/
def NoEof (f : Step σ) : Prop := ∀ st st', f st ≠ .error (.eof, st')

theorem noEof_processLine (ctx : Ctx) (cb : Call → σ → ℤ × σ) {line : List Char} (hlen : line.length % 2 ^ 32 ≠ 0) :
    NoEof (processLine ctx cb line) := fun st =>
  ((simulation_calls cb []).processLine ctx hlen ⟨rfl, st.calls.nil_prefix⟩).ne_eof

theorem processLine_eof {ctx : Ctx} {cb : Call → σ → ℤ × σ} {line : List Char} {st st' : State σ}
    (h : processLine ctx cb line st = .error (.eof, st')) : looksLikeEof line = true ∧ st' = st := by
  by_cases hlen : line.length % 2 ^ 32 = 0
  · rw [processLine_end ctx cb hlen] at h
    exact ⟨decide_eq_true hlen, (congrArg Prod.snd (Except.error.inj h)).symm⟩
  · exact absurd h (noEof_processLine ctx cb hlen st st')

/-- **The parser follows the lexemes** of the lines that it reads. -/
theorem processLines_lexemes {ctx : Ctx} {cb : ℕ → Call → σ → ℤ × σ} {ln : ℕ} {lines : List (List Char)} {st : State σ}
    (h : (outcome (processLines ctx cb ln lines st)).success = true) :
    ∃ xs st', lexemes (linesRead lines) = some xs ∧ Reports xs st st' ∧
      (outcome (processLines ctx cb ln lines st)).calls = st'.calls := by
  induction lines generalizing ln st with
  | nil => exact ⟨[], st, rfl, reports_nil _, rfl⟩
  | cons line lines ih =>
    unfold linesRead
    rw [processLines] at h ⊢
    cases hline : processLine ctx (cb (ln + 1)) line st with
    | error e =>
      obtain ⟨stop, st'⟩ := e
      rw [hline] at h
      obtain rfl : stop = .eof := of_decide_eq_true h
      obtain ⟨heof, rfl⟩ := processLine_eof hline
      rw [List.takeWhile_cons_of_neg (by simp [heof])]
      exact ⟨[], st', rfl, reports_nil _, rfl⟩
    | ok st₁ =>
      rw [hline] at h
      obtain ⟨heof, xs, hxs, hfollows⟩ := processLine_lexemes hline
      obtain ⟨ys, st', hys, hfollows', hcalls⟩ := ih h
      refine ⟨xs ++ ys, st', ?_, hfollows.append hfollows', hcalls⟩
      rw [List.takeWhile_cons_of_pos (by simp [heof]), lexemes, hxs]
      have hrest : lexemes (lines.takeWhile (!looksLikeEof ·)) = some ys := hys
      rw [hrest]
      rfl

/-! ## Lexemes of constructs -/

theorem callsOf_append (name : List Char) (cs cs' : List Construct) :
    callsOf name (cs ++ cs') = callsOf name cs ++ callsOf (cs.foldl Construct.sectionAfter name) cs' := by
  induction cs generalizing name with
  | nil => rfl
  | cons c cs ih => rw [List.cons_append, callsOf, callsOf, ih, List.append_assoc, List.foldl_cons]

theorem callsOf_titles (name : List Char) {cs : List Construct} (h : ∀ c ∈ cs, ∃ name, c = .title name) :
    callsOf name cs = [] := by
  induction cs generalizing name with
  | nil => rfl
  | cons c cs ih =>
    obtain ⟨⟨title, rfl⟩, hcs⟩ := List.forall_mem_cons.1 h
    exact ih title hcs

theorem goesAll_items (items : List (List Char)) {p : Place} (h : p.list = .listOpen ∨ p.list = .listOngoing) :
    ∃ p', goesAll (items.map .item) p = some (p', items.map (itemCall p.section' p.key)) ∧
      (p'.list = .listOpen ∨ p'.list = .listOngoing) ∧ p'.section' = p.section' ∧ p'.key = p.key := by
  induction items generalizing p with
  | nil => exact ⟨p, rfl, h, rfl, rfl⟩
  | cons item items ih =>
    obtain ⟨p', hp', hlist, hsection, hkey⟩ := @ih { p with list := .listOngoing } (.inr rfl)
    exact ⟨p', goesAll_cons.2 ⟨_, _, _, if_pos h, hp', rfl⟩, hlist, hsection, hkey⟩

/-- A construct leads from outside a list to outside a list. -/
theorem goesAll_construct (c : Construct) {p : Place} (h : p.list = .nolist) :
    ∃ p', goesAll c.lexemes p = some (p', c.calls p.section') ∧ p'.list = .nolist ∧
      p'.section' = c.sectionAfter p.section' := by
  cases c with
  | title name => exact ⟨_, goesAll_cons.2 ⟨_, _, _, if_pos h, rfl, rfl⟩, h, rfl⟩
  | record key val => exact ⟨_, goesAll_cons.2 ⟨_, _, _, if_pos h, rfl, rfl⟩, h, rfl⟩
  | list key items last =>
    obtain ⟨p', hp', hlist, hsection, hkey⟩ :=
      goesAll_items items (p := { p with list := .listOpen, key := key }) (.inl rfl)
    have hend : goesAll [.last last, .closing] p' = some ({ p' with list := .nolist }, [lastCall p'.section' p'.key last]) :=
      goesAll_cons.2 ⟨{ p' with list := .listLast }, _, _, if_pos hlist, rfl, rfl⟩
    have hbody := goesAll_append.2 ⟨_, _, _, hp', hend, rfl⟩
    rw [hsection, hkey] at hbody
    have hopening : Lexeme.opening.goes { p with list := .listHead, key := key } =
        some ({ p with list := .listOpen, key := key }, []) := rfl
    refine ⟨{ p with list := .nolist, key := key }, ?_, rfl, rfl⟩
    exact goesAll_cons.2 ⟨_, [], _, if_pos h, goesAll_cons.2 ⟨_, [], _, hopening, hbody, rfl⟩, rfl⟩

theorem goesAll_constructs (cs : List Construct) {p : Place} (h : p.list = .nolist) :
    ∃ p', goesAll (cs.flatMap Construct.lexemes) p = some (p', callsOf p.section' cs) ∧ p'.list = .nolist := by
  induction cs generalizing p with
  | nil => exact ⟨p, rfl, h⟩
  | cons c cs ih =>
    obtain ⟨p₁, hp₁, hlist, hsection⟩ := goesAll_construct c h
    obtain ⟨p', hp', hlist'⟩ := ih hlist
    rw [hsection] at hp'
    exact ⟨p', goesAll_append.2 ⟨_, _, _, hp₁, hp', rfl⟩, hlist'⟩

/-- The lexemes of a list that is not closed yet, and the calls for it. -/
inductive OpenList (name key : List Char) : ListState → List Lexeme → List Call → Prop
  | none : OpenList name key .nolist [] []
  | head : OpenList name key .listHead [.head key] []
  | opening : OpenList name key .listOpen [.head key, .opening] []
  | ongoing (items : List (List Char)) :
    OpenList name key .listOngoing (.head key :: .opening :: items.map .item) (items.map (itemCall name key))
  | last (items : List (List Char)) (val : List Char) :
    OpenList name key .listLast (.head key :: .opening :: items.map .item ++ [.last val])
      (items.map (itemCall name key) ++ [lastCall name key val])

/-- **Lexemes that the parser follows** are those of constructs and of a list that may be open. -/
theorem goesAll_split {xs : List Lexeme} {p p' : Place} {calls : List Call} (hp : p.list = .nolist)
    (h : goesAll xs p = some (p', calls)) : ∃ cs part new,
      xs = cs.flatMap Construct.lexemes ++ part ∧ calls = callsOf p.section' cs ++ new ∧
        p'.section' = cs.foldl Construct.sectionAfter p.section' ∧ OpenList p'.section' p'.key p'.list part new := by
  induction xs using List.reverseRecOn generalizing p' calls with
  | nil =>
    obtain ⟨rfl, rfl⟩ := Prod.mk.inj (Option.some.inj h)
    exact ⟨[], [], [], rfl, rfl, rfl, by rw [hp]; exact .none⟩
  | append_singleton xs x ih =>
    obtain ⟨p₁, old, new₂, hxs, hx, rfl⟩ := goesAll_concat h
    obtain ⟨cs, part, new, rfl, rfl, hsection, hopen⟩ := ih hxs
    generalize hsec : cs.foldl Construct.sectionAfter p.section' = name at hsection
    have hcalls : ∀ c : Construct, callsOf p.section' (cs ++ [c]) = callsOf p.section' cs ++ c.calls name := by
      intro c
      rw [callsOf_append, hsec, callsOf, callsOf, List.append_nil]
    have hlex : ∀ c : Construct, (cs ++ [c]).flatMap Construct.lexemes = cs.flatMap Construct.lexemes ++ c.lexemes := by
      intro c
      rw [List.flatMap_append, List.flatMap_singleton]
    have hname : ∀ c : Construct, (cs ++ [c]).foldl Construct.sectionAfter p.section' = c.sectionAfter name := by
      intro c
      rw [List.foldl_append, hsec]
      rfl
    obtain ⟨list, name', key⟩ := p₁
    obtain rfl : name' = name := hsection
    -- the last lexeme is a construct, or begins a list, goes on with it or ends it
    cases x with
    | title title =>
      obtain ⟨hl, he⟩ := of_ite_some hx
      obtain ⟨rfl, rfl⟩ := Prod.mk.inj he
      subst hl
      cases hopen
      refine ⟨cs ++ [Construct.title title], [], [], ?_, ?_, (hname (.title title)).symm, .none⟩
      · rw [hlex, List.append_nil, List.append_nil]
        rfl
      · rw [hcalls]
        simp [Construct.calls]
    | record k v =>
      obtain ⟨hl, he⟩ := of_ite_some hx
      obtain ⟨rfl, rfl⟩ := Prod.mk.inj he
      subst hl
      cases hopen
      refine ⟨cs ++ [Construct.record k v], [], [], ?_, ?_, (hname (.record k v)).symm, .none⟩
      · rw [hlex, List.append_nil, List.append_nil]
        rfl
      · rw [hcalls, List.append_nil, List.append_nil]
        rfl
    | head k =>
      obtain ⟨hl, he⟩ := of_ite_some hx
      obtain ⟨rfl, rfl⟩ := Prod.mk.inj he
      subst hl
      cases hopen
      exact ⟨cs, [.head k], [], by simp, by simp, hsec.symm, .head⟩
    | opening =>
      obtain ⟨hl, he⟩ := of_ite_some hx
      obtain ⟨rfl, rfl⟩ := Prod.mk.inj he
      subst hl
      cases hopen
      exact ⟨cs, [.head key, .opening], [], by simp, by simp, hsec.symm, .opening⟩
    | item val =>
      obtain ⟨hl, he⟩ := of_ite_some hx
      obtain ⟨rfl, rfl⟩ := Prod.mk.inj he
      cases hopen with
      | opening =>
        exact ⟨cs, _, _, by rw [List.append_assoc]; rfl, by rw [List.append_assoc]; rfl, hsec.symm, .ongoing [val]⟩
      | ongoing items =>
        refine ⟨cs, _, _, ?_, ?_, hsec.symm, .ongoing (items ++ [val])⟩
        · rw [List.append_assoc, List.map_append]
          rfl
        · rw [List.append_assoc, List.map_append]
          rfl
      | _ => simp at hl
    | last val =>
      obtain ⟨hl, he⟩ := of_ite_some hx
      obtain ⟨rfl, rfl⟩ := Prod.mk.inj he
      cases hopen with
      | opening =>
        exact ⟨cs, _, _, by rw [List.append_assoc]; rfl, by rw [List.append_assoc]; rfl, hsec.symm, .last [] val⟩
      | ongoing items =>
        exact ⟨cs, _, _, List.append_assoc .., List.append_assoc .., hsec.symm, .last items val⟩
      | _ => simp at hl
    | closing =>
      obtain ⟨hl, he⟩ := of_ite_some hx
      obtain ⟨rfl, rfl⟩ := Prod.mk.inj he
      subst hl
      cases hopen with
      | last items val =>
        refine ⟨cs ++ [Construct.list key items val], [], [], ?_, ?_, (hname (.list key items val)).symm, .none⟩
        · rw [hlex]
          simp [Construct.lexemes]
        · rw [hcalls]
          simp [Construct.calls]

/-! ## What is left of a file -/

theorem lexemes_append (lines lines' : List (List Char)) :
    lexemes (lines ++ lines') = (lexemes lines).bind fun xs => (lexemes lines').bind fun ys => some (xs ++ ys) := by
  induction lines with
  | nil => cases h : lexemes lines' <;> simp [lexemes, h]
  | cons line lines ih =>
    rw [List.cons_append, lexemes, lexemes, ih]
    cases lexLine line with
    | none => rfl
    | some xs =>
      cases lexemes lines with
      | none => rfl
      | some ys => cases lexemes lines' <;> simp

/-- The state of the list after a lexeme. -/
def Lexeme.leads : Lexeme → ListState
  | title _ | record .. | closing => .nolist
  | head _ => .listHead
  | opening => .listOpen
  | item _ => .listOngoing
  | last _ => .listLast

theorem Lexeme.goes_leads {x : Lexeme} {p p' : Place} {new : List Call} (h : x.goes p = some (p', new)) :
    p'.list = x.leads := by
  cases x with
  | title _ | record _ _ =>
    obtain ⟨hl, he⟩ := of_ite_some h
    obtain ⟨rfl, -⟩ := Prod.mk.inj he
    exact hl
  | _ =>
    obtain ⟨-, he⟩ := of_ite_some h
    obtain ⟨rfl, -⟩ := Prod.mk.inj he
    rfl

theorem goesAll_leads {xs : List Lexeme} {p p' : Place} {calls : List Call} (hp : p.list = .nolist)
    (h : goesAll xs p = some (p', calls)) : p'.list = (xs.getLast?.map Lexeme.leads).getD .nolist := by
  induction xs using List.reverseRecOn with
  | nil =>
    obtain ⟨rfl, rfl⟩ := Prod.mk.inj (Option.some.inj h)
    exact hp
  | append_singleton xs x _ =>
    obtain ⟨_, _, _, _, hx, _⟩ := goesAll_concat h
    rw [List.getLast?_append, List.getLast?_singleton]
    exact Lexeme.goes_leads hx

/-- Lexemes without a call that lead outside a list. -/
theorem goesAll_left {xs : List Lexeme} {p p' : Place} (h : goesAll xs p = some (p', [])) (hp' : p'.list = .nolist) :
    (p.list = .nolist ∧ ∀ x ∈ xs, ∃ name, x = .title name) ∨
      p.list = .listLast ∧ ∃ ys, xs = .closing :: ys ∧ ∀ x ∈ ys, ∃ name, x = .title name := by
  induction xs generalizing p with
  | nil =>
    obtain ⟨rfl, -⟩ := Prod.mk.inj (Option.some.inj h)
    exact .inl ⟨hp', nofun⟩
  | cons x xs ih =>
    obtain ⟨p₁, new, new', hx, hxs, hnew⟩ := goesAll_cons.1 h
    obtain ⟨rfl, rfl⟩ := List.append_eq_nil_iff.1 hnew.symm
    have hleads := Lexeme.goes_leads hx
    have hrest := ih hxs
    cases x with
    | title name =>
      obtain ⟨hl, -⟩ := of_ite_some hx
      obtain ⟨-, htitles⟩ | ⟨hlast, -⟩ := hrest
      · exact .inl ⟨hl, List.forall_mem_cons.2 ⟨⟨name, rfl⟩, htitles⟩⟩
      · obtain ⟨-, he⟩ := of_ite_some hx
        obtain ⟨rfl, -⟩ := Prod.mk.inj he
        exact absurd (hl.symm.trans hlast) nofun
    | closing =>
      obtain ⟨hl, -⟩ := of_ite_some hx
      obtain ⟨-, htitles⟩ | ⟨hlast, -⟩ := hrest
      · exact .inr ⟨hl, xs, rfl, htitles⟩
      · exact absurd (hleads.symm.trans hlast) nofun
    | head _ | opening =>
      obtain ⟨hno, -⟩ | ⟨hlast, -⟩ := hrest
      · exact absurd (hleads.symm.trans hno) nofun
      · exact absurd (hleads.symm.trans hlast) nofun
    | record _ _ | item _ | last _ =>
      obtain ⟨-, he⟩ := of_ite_some hx
      exact absurd (Prod.mk.inj he).2 nofun

/-- Section titles are constructs without a call. -/
theorem titles_constructs {xs : List Lexeme} (h : ∀ x ∈ xs, ∃ name, x = .title name) :
    ∃ cs : List Construct, xs = cs.flatMap Construct.lexemes ∧ ∀ c ∈ cs, ∃ name, c = .title name := by
  induction xs with
  | nil => exact ⟨[], rfl, nofun⟩
  | cons x xs ih =>
    obtain ⟨⟨name, rfl⟩, hxs⟩ := List.forall_mem_cons.1 h
    obtain ⟨cs, rfl, hcs⟩ := ih hxs
    exact ⟨.title name :: cs, rfl, List.forall_mem_cons.2 ⟨⟨name, rfl⟩, hcs⟩⟩

/-- **A file is complete** where the parser returns 0, exactly if it does not end within a list. -/
theorem complete_iff (ctx : Ctx) (cb : ℕ → Call → σ → ℤ × σ) (priv : σ) (lines : List (List Char))
    (h : (parse ctx cb priv lines).success = true) :
    Complete lines (parse ctx cb priv lines).calls ↔ Closes lines := by
  obtain ⟨xs, st', hread, ⟨new, hgoes, hnew⟩, hcalls⟩ := processLines_lexemes h
  unfold parse
  rw [hcalls, hnew, show (State.new priv).calls = [] from rfl, List.nil_append]
  have hstart : (State.new priv).place.list = .nolist := rfl
  have hleads := goesAll_leads hstart hgoes
  have hlines : linesRead lines ++ linesUnread lines = lines := List.takeWhile_append_dropWhile
  constructor
  · rintro ⟨cs, hlex, hcs⟩
    rw [← hlines, lexemes_append, hread, Option.bind_some] at hlex
    obtain ⟨ys, hys, hxys⟩ := Option.bind_eq_some_iff.1 hlex
    obtain ⟨p', hp', hlist⟩ := goesAll_constructs cs hstart
    rw [← Option.some.inj hxys] at hp'
    obtain ⟨p₁, old, rest, hxs, hys', hsum⟩ := goesAll_append.1 hp'
    obtain ⟨rfl, rfl⟩ := Prod.mk.inj (Option.some.inj (hgoes.symm.trans hxs))
    -- all calls were made for what was read
    have hrest : rest = [] := by
      have hlen := congrArg List.length (hcs.trans hsum)
      rw [List.length_append] at hlen
      exact List.eq_nil_of_length_eq_zero (by omega)
    rw [hrest] at hys'
    refine ⟨xs, ys, hread, hys, ?_⟩
    have hleft := goesAll_left hys' hlist
    rw [hleads] at hleft
    cases hlast : xs.getLast? with
    | none =>
      rw [hlast] at hleft
      exact (hleft.resolve_right fun hr => absurd hr.1 nofun).2
    | some x =>
      rw [hlast] at hleft
      cases x with
      | title _ | record _ _ | closing => exact (hleft.resolve_right fun hr => absurd hr.1 nofun).2
      | last _ => exact (hleft.resolve_left fun hl => absurd hl.1 nofun).2
      | head _ | opening | item _ =>
        obtain ⟨hl, -⟩ | ⟨hr, -⟩ := hleft
        · exact absurd hl nofun
        · exact absurd hr nofun
  · rintro ⟨xs', ys, hread', hys, hleft⟩
    obtain rfl := Option.some.inj (hread.symm.trans hread')
    have hlex : lexemes lines = some (xs ++ ys) := by
      rw [← hlines, lexemes_append, hread, hys]
      rfl
    obtain ⟨cs, part, new', rfl, rfl, hsection, hopen⟩ := goesAll_split hstart hgoes
    rw [hleads] at hopen
    unfold Complete
    rw [hlex]
    -- the list that is open is closed by what is left, and nothing else is
    have hclosed : (part = [] ∧ new' = [] ∧ ∀ y ∈ ys, ∃ name, y = .title name) ∨
        ∃ rest, OpenList st'.place.section' st'.place.key .listLast part new' ∧ ys = .closing :: rest ∧
          ∀ y ∈ rest, ∃ name, y = .title name := by
      cases hlast : (cs.flatMap Construct.lexemes ++ part).getLast? with
      | none =>
        rw [hlast] at hleft hopen
        have hopen : OpenList _ _ .nolist part new' := hopen
        cases hopen
        exact .inl ⟨rfl, rfl, hleft⟩
      | some x =>
        rw [hlast] at hleft hopen
        cases x with
        | title _ | record _ _ | closing =>
          have hopen : OpenList _ _ .nolist part new' := hopen
          cases hopen
          exact .inl ⟨rfl, rfl, hleft⟩
        | last _ =>
          obtain ⟨rest, rfl, htitles⟩ := hleft
          exact .inr ⟨rest, hopen, rfl, htitles⟩
        | head _ | opening | item _ => exact hleft.elim
    rcases hclosed with ⟨rfl, rfl, htitles⟩ | ⟨rest, hopen', rfl, htitles⟩
    · obtain ⟨cs', rfl, hcs'⟩ := titles_constructs htitles
      refine ⟨cs ++ cs', ?_, ?_⟩
      · rw [List.append_nil, List.flatMap_append]
      · rw [callsOf_append, callsOf_titles _ hcs']
        rfl
    · obtain ⟨cs', rfl, hcs'⟩ := titles_constructs htitles
      cases hopen' with
      | last items val =>
        refine ⟨cs ++ Construct.list st'.place.key items val :: cs', ?_, ?_⟩
        · simp [Construct.lexemes]
        · rw [callsOf_append, callsOf, callsOf_titles _ hcs', List.append_nil, hsection]
          rfl

/-- A record, a section and a list on two lines. -/
theorem complete_iff_three :
    let ctx : Ctx := { fatalErrors := false, allowGlobalRecords := true, allowEmptyLists := false }
    let lines := ["k = v\n".toList, "[s]\n".toList, "a = [x,\n".toList, "y]\n".toList]
    let out := parse ctx (fun _ _ priv => (0, priv)) () lines
    out.success = true ∧ (Complete lines out.calls ↔ Closes lines) := by
  intro ctx lines out
  have h : out.success = true := by decide +kernel
  exact ⟨h, complete_iff ctx _ () lines h⟩

/-- **A list that is never closed**: the file ends after the opening bracket, and the parser returns 0. -/
theorem list_left_open : ¬∀ (ctx : Ctx) (lines : List (List Char)),
    let out := parse ctx (fun _ _ priv => (0, priv)) () lines
    out.success = true → Complete lines out.calls := by
  intro hall
  have hcomplete := hall { fatalErrors := false, allowGlobalRecords := true, allowEmptyLists := false }
    ["a = [\n".toList] (by decide +kernel)
  obtain ⟨cs, hlex, -⟩ := hcomplete
  have hopen : lexemes ["a = [\n".toList] = some [.head ['a'], .opening] := by decide +kernel
  rw [hopen] at hlex
  -- constructs lead outside a list
  obtain ⟨p', hp', hlist⟩ := goesAll_constructs cs (p := { list := .nolist, section' := [], key := [] }) rfl
  rw [← Option.some.inj hlex] at hp'
  have hgoes := goesAll_leads (p := { list := .nolist, section' := [], key := [] }) rfl hp'
  exact absurd (hlist.symm.trans hgoes) nofun

end Libtarp.IniParse
