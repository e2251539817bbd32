import Libtarp.IniParse.Parse

/-!
# Layouts of a list

A list `key = [item, item, last]` is a sequence of tokens. Between two of them there may be blanks
and a line break: after the `=`, after the `[`, after a comma and before the `]`. What comes after a
break is indented, and what comes before it may be followed by a comment.

`Element` is a part of a file: a list, or any other line.
-/

namespace Libtarp.IniParse

/-! ## Text -/

/-- A key or an item. -/
structure Word where
  chars : List Char
  ne_nil : chars ≠ []
  allowed : ∀ c ∈ chars, isAllowed c false = true

/-- Blanks within a line. -/
structure Blanks where
  chars : List Char
  blank : ∀ c ∈ chars, isSpace c = true ∧ c ≠ '\n'

/-- A comment, or none. -/
structure Comment where
  chars : List Char
  starts : ∀ c ∈ chars.head?, isComment c = true
  within : ∀ c ∈ chars, c ≠ '\n' ∧ c ≠ '\x00'

/-- A token, with the blanks in it. -/
inductive Token
  | head (key : Word) (blanks : Blanks)
  | opening
  | item (value : Word) (blanks : Blanks)
  | last (value : Word)
  | closing

def Token.text : Token → List Char
  | head key blanks => key.chars ++ blanks.chars ++ ['=']
  | opening => ['[']
  | item value blanks => value.chars ++ blanks.chars ++ [',']
  | last value => value.chars
  | closing => [']']

/-- What comes between two tokens. -/
structure Gap where
  blanks : Blanks
  lineBreak : Option (Comment × Blanks)

/-- The same without a line break. -/
def Gap.joined (g : Gap) : Gap where
  blanks :=
    { chars := g.blanks.chars ++ (g.lineBreak.map fun b => b.2.chars).getD []
      blank := by
        intro c hc
        rcases List.mem_append.1 hc with hc | hc
        · exact g.blanks.blank c hc
        · cases hb : g.lineBreak with
          | none => simp [hb] at hc
          | some b => exact b.2.blank c (by simpa [hb] using hc) }
  lineBreak := none

/-- What comes after a list, to the end of its last line. -/
structure Ending where
  blanks : Blanks
  comment : Comment
  newline : Bool

def Ending.text (e : Ending) : List Char := e.blanks.chars ++ e.comment.chars ++ if e.newline then ['\n'] else []

/-! ## Lists -/

/-- A list, with its layout. -/
structure IniList where
  indent : Blanks
  key : Word
  keyBlanks : Blanks
  afterHead : Gap
  afterOpening : Gap
  /-- The items that a comma follows, and the last one, unless the list is empty. -/
  items : Option (List (Word × Blanks × Gap) × Word × Gap)
  ending : Ending

/-- The tokens of the items. -/
def itemTokens : Option (List (Word × Blanks × Gap) × Word × Gap) → List (Token × Gap)
  | none => []
  | some (items, value, gap) => items.map (fun i => (Token.item i.1 i.2.1, i.2.2)) ++ [(Token.last value, gap)]

/-- The tokens of a list before the closing bracket. -/
def IniList.tokens (l : IniList) : List (Token × Gap) :=
  (.head l.key l.keyBlanks, l.afterHead) :: (.opening, l.afterOpening) :: itemTokens l.items

/-- The lines of tokens and what comes last, where `line` comes before them on the first line. -/
def layout : List Char → List (Token × Gap) → List Char → List (List Char)
  | line, [], ending => [line ++ Token.closing.text ++ ending]
  | line, (t, g) :: tokens, ending =>
    let line := line ++ t.text ++ g.blanks.chars
    match g.lineBreak with
    | none => layout line tokens ending
    | some (comment, indent) => (line ++ comment.chars ++ ['\n']) :: layout indent.chars tokens ending

/-- The lines of a list. -/
def IniList.lines (l : IniList) : List (List Char) := layout l.indent.chars l.tokens l.ending.text

/-- The list on one line. -/
def IniList.oneLine (l : IniList) : IniList :=
  { l with
    afterHead := l.afterHead.joined
    afterOpening := l.afterOpening.joined
    items := l.items.map fun (items, value, gap) => (items.map fun i => (i.1, i.2.1, i.2.2.joined), value, gap.joined) }

/-- The tokens of the last line before the closing bracket, where `line` comes before `tokens`. -/
def lastLine : List Token → List (Token × Gap) → List Token
  | line, [] => line
  | line, (t, g) :: tokens => if g.lineBreak.isSome then lastLine [] tokens else lastLine (line ++ [t]) tokens

/-- The last line of the list is `[item]`. -/
def IniList.LooksLikeSection (l : IniList) : Prop := ∃ value, lastLine [] l.tokens = [.opening, .last value]

/-! ## Files -/

/-- A part of a file. -/
inductive Element
  | line (line : List Char)
  | list (list : IniList)

def Element.lines : Element → List (List Char)
  | line l => [l]
  | list l => l.lines

/-- The lines where every list is on one line. -/
def Element.oneLine : Element → List (List Char)
  | line l => [l]
  | list l => l.oneLine.lines

/-! ## What tokens mean -/

variable {σ : Type*}

/-- What is done about a token. -/
def Token.step (ctx : Ctx) (cb : Call → σ → ℤ × σ) : Token → Step σ
  | head key _, st => setList ctx .listHead { st with key := key.chars }
  | opening, st => setList ctx .listOpen st
  | item value _, st => do
    let st ← setList ctx .listOngoing { st with val := value.chars }
    callback cb st
  | last value, st => do
    let st ← setList ctx .listLast { st with val := value.chars }
    callback cb st
  | closing, st => setList ctx .nolist st

/-- What is done about tokens, one after the other. -/
def runTokens (ctx : Ctx) (cb : Call → σ → ℤ × σ) : List Token → Step σ
  | [], st => .ok st
  | t :: ts, st => do
    let st ← t.step ctx cb st
    runTokens ctx cb ts st

theorem oneLine_tokens (l : IniList) : l.oneLine.tokens.map Prod.fst = l.tokens.map Prod.fst := by
  unfold IniList.tokens IniList.oneLine
  cases l.items with
  | none => rfl
  | some items => simp [itemTokens, Function.comp_def]

end Libtarp.IniParse
