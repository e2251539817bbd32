import Mathlib.Tactic.Common

/-!
# Lines and tokens of an .ini file (`parsers/iniparse.c`)

A string is the list of its characters up to the null byte. The character classes are those of
the C locale. Lists are bracketed by `[` and `]`: nothing sets `list_bracket`.
-/

namespace Libtarp.IniParse

/-- `MAX_LINE_LEN`. -/
def maxLineLen : ℕ := 1024

/-- `isspace`. -/
def isSpace (c : Char) : Bool := c ∈ [' ', '\t', '\n', '\x0b', '\x0c', '\r']

/-- `is_comment`. -/
def isComment (c : Char) : Bool := c = ';' || c = '#'

/-- `is_allowed`. -/
def isAllowed (c : Char) (wsAllowed : Bool) : Bool :=
  c ∈ ['.', '-', '_', '@', '/', '*', '?', '%', '&'] || c.isAlphanum || (isSpace c && wsAllowed)

/-- `strip_lws`. -/
def stripLws (s : List Char) : List Char := s.dropWhile isSpace

/-- `strip_tws`. -/
def stripTws (s : List Char) : List Char := (s.reverse.dropWhile isSpace).reverse

/-- `strip_comment`. -/
def stripComment (s : List Char) : List Char := s.takeWhile fun c => !isComment c

/-- `is_empty_line`. -/
def isEmptyLine (line : List Char) : Bool := stripLws line = []

/-- `is_comment_line`. -/
def isCommentLine (line : List Char) : Bool :=
  match stripLws line with
  | [] => false
  | c :: _ => isComment c

/-- `cp_to_buff`, into a buffer of `MAX_LINE_LEN` bytes. -/
def cpToBuff (src : List Char) (nullAt : ℕ) : List Char := src.take (min nullAt (maxLineLen - 1))

/-! ## Lines -/

/-- `is_section_line`, with the name of the section. -/
def isSectionLine (line : List Char) : Option (List Char) :=
  match line with
  | '[' :: line =>
    let start := stripLws line
    let name := start.takeWhile (isAllowed · false)
    let line := start.dropWhile (isAllowed · false)
    match name, line with
    | [], _ => none
    | _, [] => none
    | _, c :: _ =>
      if !isSpace c && c ≠ ']' then none
      else if stripLws line = [']'] then some (cpToBuff start name.length)
      else none
  | _ => none

/-- `is_record_line`, with the key and the value. -/
def isRecordLine (line : List Char) : Option (List Char × List Char) :=
  let key := line.takeWhile (isAllowed · false)
  match key, stripLws (line.dropWhile (isAllowed · false)) with
  | [], _ => none
  | _, '=' :: rest =>
    let start := stripLws rest
    let val := start.takeWhile (isAllowed · true)
    match start with
    | [] => none
    | c :: _ =>
      if !isAllowed c false then none
      else if start.dropWhile (isAllowed · true) ≠ [] then none
      else some (cpToBuff line key.length, cpToBuff start val.length)
  | _, _ => none

/-! ## Tokens of a list -/

/-- `get_list_token`: the token, and the line from the next one on. -/
def getListToken (line : List Char) : Option (List Char × List Char) :=
  let line := stripTws (stripComment (stripLws line))
  let item := line.takeWhile (isAllowed · false)
  let rest := stripLws (line.dropWhile (isAllowed · false))
  if line = [] then none
  else match rest with
    | [] => some (cpToBuff line line.length, [])
    | c :: next =>
      if c = '=' ∨ c = '[' ∨ c = ',' then some (cpToBuff line (line.length - next.length), next)
      else if isAllowed c false then some (cpToBuff line (line.length - rest.length), rest)
      else if c = ']' then
        if item ≠ [] then some (cpToBuff line (line.length - rest.length), rest)
        else some (cpToBuff line (line.length - next.length), next)
      else some (cpToBuff line line.length, [])

/-- `is_list_head`, with the key. -/
def isListHead (token : List Char) : Option (List Char) :=
  let key := token.takeWhile (isAllowed · false)
  match key, stripLws (token.dropWhile (isAllowed · false)) with
  | [], _ => none
  | _, ['='] => some (cpToBuff token key.length)
  | _, _ => none

/-- `is_list_start`. -/
def isListStart (token : List Char) : Bool := token = ['[']

/-- `is_list_end`. -/
def isListEnd (token : List Char) : Bool := token = [']']

/-- What `is_list_entry` finds. -/
inductive Entry
  | no
  /-- The value, and whether it is the last in the list. -/
  | yes (val : List Char) (islast : Bool)
  /-- More after the comma, which an assertion rules out. -/
  | asserted

/-- `is_list_entry`. -/
def isListEntry (token : List Char) : Entry :=
  let val := token.takeWhile (isAllowed · false)
  match val, stripLws (token.dropWhile (isAllowed · false)) with
  | [], _ => .no
  | _, [] => .yes (cpToBuff token val.length) true
  | _, [','] => .yes (cpToBuff token val.length) false
  | _, ',' :: _ :: _ => .asserted
  | _, _ :: _ => .no

end Libtarp.IniParse
