import Libtarp.IniParse.Lexer
import Mathlib.Algebra.Group.Nat.Defs
import Mathlib.Data.Int.Notation
import Mathlib.Order.Nat

/-!
# The parser (`iniparse.h`, `parsers/iniparse.c`)

A file is the list of its lines, as `getline` returns them. The state keeps the calls of the
callback that have been made. What the callback answers may depend on the number of the line, on
the call and on what it keeps in `priv`.
-/

namespace Libtarp.IniParse

/-- `enum iniParseListState`. -/
inductive ListState
  | listHead
  | listOpen
  | listOngoing
  | listLast
  | nolist
  deriving DecidableEq

/-- `enum iniParseError`. -/
inductive IniError
  | nosection
  | malformed
  | malformedList
  | toolong
  | nested
  | nolist
  | emptyList
  | missingComma
  | redundantComma
  | redundantBracket
  | listNotStarted
  | listNotEnded
  | duplicate
  deriving DecidableEq

/-- `struct iniparse_ctx`. -/
structure Ctx where
  fatalErrors : Bool
  allowGlobalRecords : Bool
  allowEmptyLists : Bool

/-- `iniParse_get_list_error1000`; `none` is success. -/
def getListError (ctx : Ctx) (prev next : ListState) : Option IniError :=
  match prev with
  | .nolist =>
    if next = .listHead then none
    else if next = .nolist then some .redundantBracket
    else some .nolist
  | .listHead =>
    if next = .listOpen then none
    else if next = .listHead then some .malformedList
    else some .listNotStarted
  | .listOpen =>
    if next = .listOngoing ∨ next = .listLast then none
    else if next = .listHead then some .nested
    else if next = .listOpen then some .redundantBracket
    else if next = .nolist ∧ !ctx.allowEmptyLists then some .emptyList
    else some .malformedList
  | .listOngoing =>
    if next = .listOngoing ∨ next = .listLast then none
    else if next = .nolist then some .redundantComma
    else some .listNotEnded
  | .listLast =>
    if next = .nolist then none
    else if next = .listHead then some .nested
    else if next = .listOpen then some .malformedList
    else some .missingComma

/-- A call of the callback, but for the number of the line. -/
structure Call where
  list : ListState
  (section' : List Char)
  k : List Char
  v : List Char
  deriving DecidableEq

structure State (σ : Type*) where
  list : ListState
  (section' : List Char)
  key : List Char
  val : List Char
  priv : σ
  calls : List Call

/-- The ways the loop over the lines ends before the lines do. -/
inductive Stop
  /-- `read_line` returned 0. -/
  | eof
  | error (error : IniError)
  | exit (error : IniError)
  | callback (rc : ℤ)
  | asserted
  deriving DecidableEq

variable {σ : Type*}

/-- A step, from the state before it. A step that ends the loop leaves a state too. -/
abbrev Step (σ : Type*) := State σ → Except (Stop × State σ) (State σ)

/-- The macro `error_out`. -/
def errorOut (ctx : Ctx) (e : IniError) : Step σ := fun st =>
  .error (if ctx.fatalErrors then .exit e else .error e, st)

/-- The callback is called, and ends the loop unless it returns 0. -/
def callback (cb : Call → σ → ℤ × σ) : Step σ := fun st =>
  let call := { list := st.list, section' := st.section', k := st.key, v := st.val }
  let (rc, priv) := cb call st.priv
  let st := { st with priv := priv, calls := st.calls ++ [call] }
  if rc ≠ 0 then .error (.callback rc, st) else .ok st

/-- The next state of the list, where there is a transition to it. -/
def setList (ctx : Ctx) (next : ListState) : Step σ := fun st =>
  match getListError ctx st.list next with
  | some e => errorOut ctx e st
  | none => .ok { st with list := next }

/-- The body of the loop over the tokens of a line. -/
def processToken (ctx : Ctx) (cb : Call → σ → ℤ × σ) (token : List Char) : Step σ := fun st =>
  match isListHead token with
  | some key => setList ctx .listHead { st with key := key }
  | none =>
    if isListStart token then setList ctx .listOpen st
    else match isListEntry token with
      | .asserted => .error (.asserted, st)
      | .yes val islast => do
        let st ← setList ctx (if islast then .listLast else .listOngoing) { st with val := val }
        callback cb st
      | .no =>
        if isListEnd token then setList ctx .nolist st
        else errorOut ctx .malformed st

theorem length_stripLws_le (s : List Char) : (stripLws s).length ≤ s.length :=
  (List.dropWhile_suffix _).length_le

theorem length_stripTws_le (s : List Char) : (stripTws s).length ≤ s.length := by
  unfold stripTws
  rw [List.length_reverse]
  exact (List.dropWhile_suffix _).length_le.trans (List.length_reverse ..).le

/-- What follows a token that ends before the character `c`. -/
theorem length_rest_lt {s next : List Char} {c : Char} (h : stripLws (s.dropWhile (isAllowed · false)) = c :: next)
    (hc : isAllowed c false ∨ s.takeWhile (isAllowed · false) ≠ []) : (c :: next).length < s.length := by
  have hsplit := List.takeWhile_append_dropWhile (p := (isAllowed · false)) (l := s)
  have hlen := congrArg List.length hsplit
  have hrest := length_stripLws_le (s.dropWhile (isAllowed · false))
  rw [List.length_append] at hlen
  rw [h] at hrest
  by_contra hge
  have hnil : s.takeWhile (isAllowed · false) = [] := List.eq_nil_of_length_eq_zero (by omega)
  rw [hnil, List.nil_append] at hsplit
  rw [hsplit] at h hrest
  have hs : stripLws s = s := (List.dropWhile_suffix _).eq_of_length (by unfold stripLws at h; rw [h]; omega)
  rw [hs] at h
  rcases hc with hc | hc
  · rw [h, List.takeWhile_cons, if_pos hc] at hnil
    cases hnil
  · exact hc hnil

theorem getListToken_lt {line token next : List Char} (h : getListToken line = some (token, next)) :
    next.length < line.length := by
  have hclean : (stripTws (stripComment (stripLws line))).length ≤ line.length :=
    (length_stripTws_le _).trans (((List.takeWhile_prefix _).length_le).trans (length_stripLws_le line))
  unfold getListToken at h
  dsimp only at h
  generalize stripTws (stripComment (stripLws line)) = s at h hclean
  have hdrop := length_stripLws_le (s.dropWhile (isAllowed · false))
  have hsuffix := (List.dropWhile_suffix (isAllowed · false) (l := s)).length_le
  by_cases hs : s = []
  · rw [if_pos hs] at h
    cases h
  · have hpos := List.length_pos_iff.2 hs
    rw [if_neg hs] at h
    cases hr : stripLws (s.dropWhile (isAllowed · false)) with
    | nil =>
      rw [hr] at h
      obtain ⟨-, rfl⟩ := Prod.mk.inj (Option.some.inj h)
      exact Nat.lt_of_lt_of_le hpos hclean
    | cons c next' =>
      have hlt := length_rest_lt hr
      rw [hr, List.length_cons] at hdrop
      rw [hr] at h
      dsimp only at h
      rw [List.length_cons] at hlt
      -- each branch goes on behind the token, after a comma or a bracket of its own
      split_ifs at h with h1 h2 h3 h4
      all_goals
        obtain ⟨-, rfl⟩ := Prod.mk.inj (Option.some.inj h)
      · omega
      · have := hlt (.inl h2)
        rw [List.length_cons]
        omega
      · have := hlt (.inr h4)
        rw [List.length_cons]
        omega
      · omega
      · rw [List.length_nil]
        omega

/-- The loop over the tokens of a line. -/
def processTokens (ctx : Ctx) (cb : Call → σ → ℤ × σ) (line : List Char) : Step σ := fun st =>
  match _h : getListToken line with
  | none => .ok st
  | some (token, next) => do
    let st ← processToken ctx cb token st
    processTokens ctx cb next st
termination_by line.length
decreasing_by exact getListToken_lt _h

theorem processTokens_none {ctx : Ctx} {cb : Call → σ → ℤ × σ} {line : List Char} (h : getListToken line = none)
    (st : State σ) : processTokens ctx cb line st = .ok st := by
  rw [processTokens]
  split
  · rfl
  · next heq => exact absurd (h.symm.trans heq) nofun

theorem processTokens_some {ctx : Ctx} {cb : Call → σ → ℤ × σ} {line token next : List Char}
    (h : getListToken line = some (token, next)) (st : State σ) :
    processTokens ctx cb line st = processToken ctx cb token st >>= processTokens ctx cb next := by
  rw [processTokens]
  split
  · next heq => exact absurd (h.symm.trans heq) nofun
  · next heq =>
    obtain ⟨rfl, rfl⟩ := Prod.mk.inj (Option.some.inj (h.symm.trans heq))
    rfl

/-- A line that is neither empty nor a comment, without its comment and the blanks around it. -/
def processText (ctx : Ctx) (cb : Call → σ → ℤ × σ) (buff : List Char) : Step σ := fun st =>
  match isSectionLine buff with
  | some name =>
    let st := { st with section' := name }
    if st.list ≠ .nolist then errorOut ctx .nested st else .ok st
  | none =>
    match isRecordLine buff with
    | some (key, val) =>
      let st := { st with key := key, val := val }
      if st.section' = [] ∧ !ctx.allowGlobalRecords then errorOut ctx .nosection st
      else if st.list ≠ .nolist then errorOut ctx .nested st
      else callback cb st
    | none => processTokens ctx cb buff st

/-- The body of the loop over the lines. -/
def processLine (ctx : Ctx) (cb : Call → σ → ℤ × σ) (line : List Char) : Step σ := fun st =>
  let bytesRead := line.length % 2 ^ 32
  let buff := line.takeWhile (· ≠ '\x00')
  if bytesRead = 0 then .error (.eof, st)
  else if bytesRead > maxLineLen then errorOut ctx .toolong st
  else if isEmptyLine buff || isCommentLine buff then .ok st
  else processText ctx cb (stripTws (stripComment (stripLws buff))) st

/-- The loop over the lines, from the line after line `ln` on. -/
def processLines (ctx : Ctx) (cb : ℕ → Call → σ → ℤ × σ) : ℕ → List (List Char) → Step σ
  | _, [], st => .ok st
  | ln, line :: lines, st => do
    let st ← processLine ctx (cb (ln + 1)) line st
    processLines ctx cb (ln + 1) lines st

def State.new (priv : σ) : State σ :=
  { list := .nolist, section' := [], key := [], val := [], priv := priv, calls := [] }

/-- Whether a parse succeeds, and the calls of the callback. -/
structure Outcome where
  success : Bool
  calls : List Call

def outcome : Except (Stop × State σ) (State σ) → Outcome
  | .ok st => { success := true, calls := st.calls }
  | .error (stop, st) => { success := stop = .eof, calls := st.calls }

/-- `iniParse_parse`. -/
def parse (ctx : Ctx) (cb : ℕ → Call → σ → ℤ × σ) (priv : σ) (lines : List (List Char)) : Outcome :=
  outcome (processLines ctx cb 0 lines (State.new priv))

end Libtarp.IniParse
