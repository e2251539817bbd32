import Libtarp.Strings.Split
import Mathlib.Data.List.GetD

/-!
# Replacing and removing parts of strings (`string_utils.cxx`)

Both functions work from the places of all occurrences. Where two overlap, `replace` takes the rest of the string
between them, and `remove_substring` erases behind or throws. `std::tolower` and `replace_regex` are parameters.

* `overlaid`, `replace_eq`: what `replace` makes of the places.
* `overlaid_eq_splice_iff`: whether that is what it is to be.
* `removes_right`, `eraseLoop_length`: what `remove_substring` makes of places that do not overlap, and how much it erases
  at any places.
* `replace_remove_iff`: both are right where no two occurrences overlap.
-/

namespace Libtarp.Strings

open Lib

variable {α : Type}

/-- `to_lower`. -/
def toLower (tolower : α → α) (s : List α) : List α := s.map tolower

/-- The loop of `replace`. -/
def replaceLoop (input replacement : List α) (patlen : ℕ) : List ℕ → List α → ℕ → Except Thrown (List α × ℕ)
  | [], result, prevEndIndex => .ok (result, prevEndIndex)
  | idx :: indices, result, prevEndIndex =>
    match substr input prevEndIndex (sizeSub idx prevEndIndex) with
    | .error e => .error e
    | .ok part => replaceLoop input replacement patlen indices (result ++ part ++ replacement) (idx + patlen)

/-- The indices that `replace` works from. -/
def replaceIndices [DecidableEq α] (tolower : α → α) (input pattern : List α) (caseSensitive : Bool) : List ℕ :=
  if caseSensitive then findNeedlePositions input pattern
  else findNeedlePositions (toLower tolower input) (toLower tolower pattern)

/-- `replace`. -/
def replace [DecidableEq α] (tolower : α → α) (replaceRegex : List α → List α → List α → Bool → Option (List α))
    (input pattern replacement : List α) (useRegex caseSensitive : Bool) : Except Thrown (Option (List α)) :=
  if useRegex then .ok (replaceRegex input pattern replacement caseSensitive)
  else
    match replaceLoop input replacement pattern.length (replaceIndices tolower input pattern caseSensitive) [] 0 with
    | .error e => .error e
    | .ok (result, prevEndIndex) =>
      match substr input prevEndIndex (sizeSub input.length prevEndIndex) with
      | .error e => .error e
      | .ok part => .ok (some (result ++ part))

/-- The loop of `remove_substring`, whose index has 32 bits. -/
def eraseLoop (splitPositions : List ℕ) (substringLen n : ℕ) : ℕ → ℕ → ℕ → List α → Option (Except Thrown (List α))
  | 0, _, _, _ => none
  | fuel + 1, i, nCharsRemoved, output =>
    if i < n then
      match erase output (sizeSub (splitPositions.getD i 0) nCharsRemoved) substringLen with
      | .error e => some (.error e)
      | .ok output =>
        eraseLoop splitPositions substringLen n fuel ((i + 1) % 2 ^ 32) ((nCharsRemoved + substringLen) % 2 ^ 64) output
    else some (.ok output)

/-- How many occurrences are removed, of those that there are. -/
def removals (nFirstOccurrences : Int32) (found : ℕ) : ℕ :=
  if nFirstOccurrences < 0 then found else min nFirstOccurrences.toInt.toNat found

/-- `remove_substring`, for as many rounds of its loop as `fuel` says. -/
def removeSubstring [DecidableEq α] (fuel : ℕ) (input substring : List α) (nFirstOccurrences : Int32) :
    Option (Except Thrown (List α)) :=
  if nFirstOccurrences = 0 then some (.ok input)
  else
    eraseLoop (findSplitPoints input substring) substring.length
      (removals nFirstOccurrences (findSplitPoints input substring).length) fuel 0 0 input

/-! ## What `replace` does -/

/-- What `replace` makes of the places: what is between two that overlap is taken to be the whole rest. -/
def overlaid (rep : List α) (len : ℕ) (s : List α) : ℕ → List ℕ → List α
  | start, [] => s.drop start
  | start, p :: ps =>
    (if start ≤ p then (s.take p).drop start else s.drop start) ++ rep ++ overlaid rep len s (p + len) ps

variable {input pattern rep s output : List α} {len start n i removed : ℕ} {ps qs : List ℕ}

theorem replaceLoop_overlaid (rep : List α) (hfits : s.length < 2 ^ 64) (hstart : start ≤ s.length)
    (hroom : ∀ p ∈ ps, p + len ≤ s.length) (result : List α) :
    ∃ result' start', replaceLoop s rep len ps result start = .ok (result', start') ∧ start' ≤ s.length ∧
      result' ++ s.drop start' = result ++ overlaid rep len s start ps := by
  induction ps generalizing start result with
  | nil => exact ⟨result, start, rfl, hstart, rfl⟩
  | cons p ps ih =>
    obtain ⟨hp, hps⟩ := List.forall_mem_cons.1 hroom
    have hpart : (s.drop start).take (sizeSub p start) =
        if start ≤ p then (s.take p).drop start else s.drop start := by
      split_ifs with hle
      · rw [sizeSub_of_le hle, List.drop_take]
      · -- the difference wraps round, and is longer than any string
        unfold sizeSub
        rw [if_neg hle, List.take_of_length_le]
        rw [List.length_drop]
        omega
    obtain ⟨result', start', hloop, hle, heq⟩ := ih hp hps (result ++ (s.drop start).take (sizeSub p start) ++ rep)
    refine ⟨result', start', ?_, hle, ?_⟩
    · rw [replaceLoop, substr_ok hstart]
      exact hloop
    · rw [heq, overlaid, hpart]
      simp only [List.append_assoc]

theorem overlaid_length (rep : List α) (len : ℕ) (s : List α) (start : ℕ) (ps : List ℕ) :
    ps.length * rep.length ≤ (overlaid rep len s start ps).length := by
  induction ps generalizing start with
  | nil => simp
  | cons p ps ih =>
    have htail := ih (p + len)
    rw [overlaid, List.length_cons, Nat.succ_mul, List.length_append, List.length_append]
    omega

/-- The only places that overlap are the last two, the last one ends the list, and nothing is put in their stead. -/
def OnlyLast (rep : List α) (len n start : ℕ) (ps : List ℕ) : Prop :=
  rep = [] ∧ Apart len ps.dropLast ∧ (∀ p ∈ ps.dropLast, start ≤ p) ∧ ∃ p ∈ ps, p + len = n

/-- What follows a place that does not overlap the ones after it. -/
theorem onlyLast_cons_iff {p q : ℕ} (hle : start ≤ p) (hsorted : (p :: q :: qs).Pairwise (· < ·))
    (hroom : ∀ r ∈ p :: q :: qs, r + len ≤ n) :
    OnlyLast rep len n start (p :: q :: qs) ↔ OnlyLast rep len n (p + len) (q :: qs) := by
  obtain ⟨hp, -⟩ := List.pairwise_cons.1 hsorted
  have hbehind : p + len ≠ n := by
    intro hend
    have hlt := hp q List.mem_cons_self
    have hq := hroom q (List.mem_cons_of_mem _ List.mem_cons_self)
    omega
  unfold OnlyLast Apart
  rw [List.dropLast_cons_of_ne_nil (List.cons_ne_nil q qs), List.pairwise_cons, List.forall_mem_cons,
    List.exists_mem_cons_iff]
  constructor
  · rintro ⟨hrep, ⟨hnext, hrest⟩, -, hend | hend⟩
    · exact absurd hend hbehind
    · exact ⟨hrep, hrest, hnext, hend⟩
  · rintro ⟨hrep, hrest, hnext, hend⟩
    exact ⟨hrep, ⟨hnext, hrest⟩, ⟨hle, fun r hr => hle.trans ((Nat.le_add_right ..).trans (hnext r hr))⟩, .inr hend⟩

/-- Where the first place is overlapped, what `replace` makes is too long, unless there is nothing to put in. -/
theorem overlaid_overlap_iff {p : ℕ} (hlen : 0 < len) (hstart : start ≤ s.length) (hp : p < start)
    (hnext : start < p + len) (hsorted : (p :: ps).Pairwise (· < ·)) (hroom : ∀ q ∈ p :: ps, q + len ≤ s.length) :
    overlaid rep len s start (p :: ps) = splice rep len s start (select len start (p :: ps)) ↔
      ps = [] ∧ rep = [] ∧ p + len = s.length := by
  obtain ⟨hpin, hpsin⟩ := List.forall_mem_cons.1 hroom
  have hselect : select len start (p :: ps) = select len start ps := if_neg (Nat.not_le.2 hp)
  rw [overlaid, if_neg (Nat.not_le.2 hp), hselect]
  constructor
  · intro heq
    -- the lengths agree only if nothing is put in and nothing is selected behind the first place
    have hspliced := splice_length rep (select_spaced hstart hpsin)
    have hlong := overlaid_length rep len s (p + len) ps
    have hfew := Nat.mul_le_mul_right rep.length (select_length len start ps)
    have hlength := congrArg List.length heq
    simp only [List.length_append, List.length_drop] at hlength
    have hzero : rep.length = 0 := by omega
    have hnone : (select len start ps).length * len = 0 := by omega
    rw [hzero, Nat.mul_zero] at hspliced
    have hrest : (overlaid rep len s (p + len) ps).length = 0 := by omega
    have hunselected : select len start ps = [] :=
      List.length_eq_zero_iff.1 ((Nat.mul_eq_zero.1 hnone).resolve_right hlen.ne')
    cases ps with
    | nil =>
      rw [overlaid, List.length_drop] at hrest
      exact ⟨rfl, List.length_eq_zero_iff.1 hzero, by omega⟩
    | cons q qs =>
      exfalso
      have hpq := (List.pairwise_cons.1 hsorted).1 q List.mem_cons_self
      have hqin := hpsin q List.mem_cons_self
      by_cases hq : start ≤ q
      · rw [select, if_pos hq] at hunselected
        cases hunselected
      · rw [overlaid, if_neg (by omega), List.length_append, List.length_append, List.length_drop] at hrest
        omega
  · rintro ⟨rfl, rfl, hend⟩
    rw [overlaid, hend, List.drop_length, List.append_nil, List.append_nil]
    rfl

/-- **What `replace` makes is right** exactly if no places overlap, or only the last two in a way that does not
matter. -/
theorem overlaid_eq_splice_iff (hlen : 0 < len) (hstart : start ≤ s.length) (hsorted : ps.Pairwise (· < ·))
    (hroom : ∀ p ∈ ps, p + len ≤ s.length) (hnext : ∀ p ∈ ps, start < p + len) :
    overlaid rep len s start ps = splice rep len s start (select len start ps) ↔
      (Apart len ps ∧ ∀ p ∈ ps, start ≤ p) ∨ OnlyLast rep len s.length start ps := by
  induction ps generalizing start with
  | nil => exact iff_of_true rfl (.inl ⟨List.Pairwise.nil, List.forall_mem_nil _⟩)
  | cons p ps ih =>
    obtain ⟨hp, hps⟩ := List.pairwise_cons.1 hsorted
    obtain ⟨hpin, hpsin⟩ := List.forall_mem_cons.1 hroom
    -- a place in front of `start` is overlapped by the one before, whose end `start` is
    by_cases hle : start ≤ p
    · have hbehind : ∀ q ∈ ps, p + len < q + len := fun q hq => Nat.add_lt_add_right (hp q hq) len
      have hapart : Apart len (p :: ps) ∧ (∀ q ∈ p :: ps, start ≤ q) ↔ Apart len ps ∧ ∀ q ∈ ps, p + len ≤ q := by
        unfold Apart
        rw [List.pairwise_cons, List.forall_mem_cons]
        constructor
        · rintro ⟨⟨hfrom, hrest⟩, -⟩
          exact ⟨hrest, hfrom⟩
        · rintro ⟨hrest, hfrom⟩
          exact ⟨⟨hfrom, hrest⟩, hle, fun q hq => hle.trans (hp q hq).le⟩
      rw [overlaid, if_pos hle, select, if_pos hle, splice, List.append_cancel_left_eq, ih hpin hps hpsin hbehind,
        hapart]
      cases ps with
      | nil =>
        have hnone : Apart len [] ∧ ∀ q ∈ ([] : List ℕ), p + len ≤ q := ⟨List.Pairwise.nil, List.forall_mem_nil _⟩
        exact iff_of_true (.inl hnone) (.inl hnone)
      | cons q qs => rw [onlyLast_cons_iff hle hsorted hroom]
    · rw [overlaid_overlap_iff hlen hstart (Nat.not_le.1 hle) (hnext p List.mem_cons_self) hsorted hroom]
      constructor
      · rintro ⟨rfl, hrep, hend⟩
        exact .inr ⟨hrep, List.Pairwise.nil, List.forall_mem_nil _, p, List.mem_cons_self, hend⟩
      · rintro (⟨-, hfrom⟩ | ⟨hrep, -, hfrom, q, hq, hend⟩)
        · exact absurd (hfrom p List.mem_cons_self) hle
        · cases ps with
          | nil =>
            obtain rfl := List.mem_singleton.1 hq
            exact ⟨rfl, hrep, hend⟩
          | cons r rs => exact absurd (hfrom p List.mem_cons_self) hle

/-! ## What `remove_substring` does -/

theorem erase_ok {pos : ℕ} (h : pos ≤ s.length) (count : ℕ) :
    erase s pos count = .ok (s.take pos ++ s.drop (pos + count)) := if_neg (Nat.not_lt.2 h)

/-- An index of 32 bits never comes to `2 ^ 32`. -/
theorem eraseLoop_endless (ps : List ℕ) (len : ℕ) (hmany : 2 ^ 32 ≤ n) {fuel : ℕ} (hi : i < 2 ^ 32)
    (output out : List α) : eraseLoop ps len n fuel i removed output ≠ some (.ok out) := by
  induction fuel generalizing i removed output with
  | zero =>
    intro h
    cases h
  | succ fuel ih =>
    rw [eraseLoop, if_pos (hi.trans_le hmany)]
    cases erase output (sizeSub (ps.getD i 0) removed) len with
    | error e => simp
    | ok output' => exact ih (Nat.mod_lt _ (by decide)) output'

/-- **Every round erases as much**, wherever, or throws. -/
theorem eraseLoop_length (hfew : n < 2 ^ 32) (hn : n ≤ ps.length) (hroom : ∀ p ∈ ps, p + len ≤ s.length)
    (hfits : s.length < 2 ^ 64) {fuel : ℕ} (hi : i ≤ n) (hremoved : removed = i * len)
    (houtput : output.length + removed = s.length) {out : List α}
    (h : eraseLoop ps len n fuel i removed output = some (.ok out)) : out.length + n * len = s.length := by
  subst hremoved
  induction fuel generalizing i output with
  | zero => cases h
  | succ fuel ih =>
    rw [eraseLoop] at h
    split_ifs at h with hlt
    · have hin : i < ps.length := by omega
      have hp := hroom _ (List.getElem_mem hin)
      rw [List.getD_eq_getElem _ _ hin] at h
      by_cases hle : i * len ≤ ps[i]
      · have hsucc : (i + 1) * len = i * len + len := Nat.succ_mul ..
        rw [sizeSub_of_le hle, erase_ok (by omega), Nat.mod_eq_of_lt (by omega : i + 1 < 2 ^ 32),
          Nat.mod_eq_of_lt (by omega : i * len + len < 2 ^ 64), ← hsucc] at h
        refine ih (by omega) ?_ h
        rw [List.length_append, List.length_take, List.length_drop]
        omega
      · -- the place wraps round, and is behind the end
        have hthrown : erase output (sizeSub ps[i] (i * len)) len = .error .outOfRange := by
          unfold sizeSub
          rw [if_neg hle]
          exact if_pos (by omega)
        rw [hthrown] at h
        cases Option.some.inj h
    · obtain rfl : i = n := by omega
      obtain rfl := Except.ok.inj (Option.some.inj h)
      exact houtput

/-- Places that do not overlap are erased one after the other. -/
theorem eraseLoop_splice (hfew : n < 2 ^ 32) (hfits : s.length < 2 ^ 64) (hrest : (ps.take n).drop i = qs)
    (hn : i + qs.length = n) (hspaced : Spaced len s.length start qs) {before : List α}
    (hremoved : removed = i * len) (hbefore : before.length + removed = start) :
    eraseLoop ps len n (qs.length + 1) i removed (before ++ s.drop start) =
      some (.ok (before ++ splice [] len s start qs)) := by
  subst hremoved
  -- `before` is what is left of the string up to `start`, where the places that are still to be erased begin
  induction qs generalizing i start before with
  | nil =>
    rw [eraseLoop, if_neg (by rw [List.length_nil] at hn; omega)]
    rfl
  | cons q qs ih =>
    obtain ⟨hle, hspaced⟩ := hspaced
    have hroom := hspaced.start_le
    rw [List.length_cons] at hn
    have hget : ps.getD i 0 = q := by
      have hhead : (ps.take n)[i]? = some q := by rw [← List.head?_drop, hrest, List.head?_cons]
      rw [List.getElem?_take_of_lt (by omega)] at hhead
      rw [List.getD_eq_getElem?_getD, hhead, Option.getD_some]
    have hsucc : (i + 1) * len = i * len + len := Nat.succ_mul ..
    have hpos : q - i * len = before.length + (q - start) := by omega
    have hlater : q - i * len + len = before.length + (q + len - start) := by omega
    have hpart : (s.drop start).take (q - start) = (s.take q).drop start := List.drop_take.symm
    have hbehind : (s.drop start).drop (q + len - start) = s.drop (q + len) := by
      rw [List.drop_drop]
      congr 1
      omega
    have herase : erase (before ++ s.drop start) (q - i * len) len =
        .ok ((before ++ (s.take q).drop start) ++ s.drop (q + len)) := by
      rw [erase_ok (by rw [List.length_append, List.length_drop]; omega), hlater, hpos, List.take_length_add_append,
        List.drop_length_add_append, hpart, hbehind]
    rw [eraseLoop, if_pos (by omega), hget, sizeSub_of_le (by omega), herase]
    dsimp only
    rw [Nat.mod_eq_of_lt (by omega : i + 1 < 2 ^ 32), Nat.mod_eq_of_lt (by omega : i * len + len < 2 ^ 64), ← hsucc,
      List.length_cons, ih ?_ (by omega) hspaced ?_, splice]
    · simp only [List.append_assoc, List.nil_append]
    · rw [← List.tail_drop, hrest, List.tail_cons]
    · rw [List.length_append, List.length_drop, List.length_take]
      omega

section Calls

variable [DecidableEq α] (tolower : α → α) (replaceRegex : List α → List α → List α → Bool → Option (List α))

/-- What is compared: the string, or all of it in lower case. -/
def folded (caseSensitive : Bool) (s : List α) : List α := if caseSensitive then s else toLower tolower s

/-- `replace` puts the replacement in the stead of the leftmost occurrences that do not overlap. -/
def ReplacesRight (input pattern replacement : List α) (caseSensitive : Bool) : Prop :=
  replace tolower replaceRegex input pattern replacement false caseSensitive =
    .ok (some (splice replacement pattern.length input 0
      (leftmost (folded tolower caseSensitive pattern) (folded tolower caseSensitive input))))

/-- The occurrences that are to be removed. -/
def wanted (nFirstOccurrences : Int32) (places : List ℕ) : List ℕ :=
  if nFirstOccurrences < 0 then places else places.take nFirstOccurrences.toInt.toNat

/-- `remove_substring` returns, and leaves out the first of the leftmost occurrences that do not overlap. -/
def RemovesRight (input substring : List α) (nFirstOccurrences : Int32) : Prop :=
  ∃ fuel, removeSubstring fuel input substring nFirstOccurrences =
    some (.ok (splice [] substring.length input 0 (wanted nFirstOccurrences (leftmost substring input))))

variable {tolower replaceRegex} {substring : List α} {caseSensitive : Bool} {nFirstOccurrences : Int32}

omit [DecidableEq α] in
theorem folded_length (tolower : α → α) (caseSensitive : Bool) (s : List α) :
    (folded tolower caseSensitive s).length = s.length := by
  unfold folded toLower
  split_ifs
  · rfl
  · exact List.length_map ..

theorem replaceIndices_eq (hpattern : pattern ≠ []) :
    replaceIndices tolower input pattern caseSensitive =
      occurrences (folded tolower caseSensitive pattern) (folded tolower caseSensitive input) := by
  unfold replaceIndices folded
  cases caseSensitive with
  | true => exact findNeedlePositions_eq hpattern
  | false => exact findNeedlePositions_eq (mt List.map_eq_nil_iff.1 hpattern)

/-- **`replace`, by the places of the occurrences.** -/
theorem replace_eq (hpattern : pattern ≠ []) (hfits : input.length < 2 ^ 64) (replacement : List α) :
    replace tolower replaceRegex input pattern replacement false caseSensitive =
      .ok (some (overlaid replacement pattern.length input 0
        (occurrences (folded tolower caseSensitive pattern) (folded tolower caseSensitive input)))) := by
  have hroom : ∀ p ∈ occurrences (folded tolower caseSensitive pattern) (folded tolower caseSensitive input),
      p + pattern.length ≤ input.length := by
    intro p hp
    have hle := add_le_of_mem hp
    rwa [folded_length, folded_length] at hle
  obtain ⟨result, prevEndIndex, hloop, hle, heq⟩ :=
    replaceLoop_overlaid replacement hfits (Nat.zero_le _) hroom []
  unfold replace
  rw [if_neg Bool.false_ne_true, replaceIndices_eq hpattern, hloop]
  dsimp only
  rw [substr_ok hle, sizeSub_of_le hle, List.take_of_length_le (List.length_drop ..).le]
  dsimp only
  rw [heq, List.nil_append]

/-- **`replace` is right** exactly if no two occurrences overlap, or only the last two, where the last one ends the
input and the replacement is empty. -/
theorem replaces_right_iff (hpattern : pattern ≠ []) (hfits : input.length < 2 ^ 64) (replacement : List α) :
    ReplacesRight tolower replaceRegex input pattern replacement caseSensitive ↔
      Apart pattern.length (occurrences (folded tolower caseSensitive pattern) (folded tolower caseSensitive input)) ∨
      replacement = [] ∧ folded tolower caseSensitive pattern <:+ folded tolower caseSensitive input ∧
        Apart pattern.length
          (occurrences (folded tolower caseSensitive pattern) (folded tolower caseSensitive input)).dropLast := by
  have hpos := List.length_pos_iff.2 hpattern
  have hpat := folded_length tolower caseSensitive pattern
  have hin := folded_length tolower caseSensitive input
  have hne : folded tolower caseSensitive pattern ≠ [] := List.length_pos_iff.1 (by omega)
  have hroom : ∀ p ∈ occurrences (folded tolower caseSensitive pattern) (folded tolower caseSensitive input),
      p + pattern.length ≤ input.length := by
    intro p hp
    have hle := add_le_of_mem hp
    omega
  unfold ReplacesRight leftmost
  rw [replace_eq hpattern hfits, hpat, Except.ok.injEq, Option.some.injEq,
    overlaid_eq_splice_iff hpos (Nat.zero_le _) (occurrences_sorted ..) hroom (fun p _ => by omega),
    suffix_iff_mem hne, hpat, hin]
  unfold OnlyLast
  constructor
  · rintro (⟨hapart, -⟩ | ⟨hrep, hapart, -, hend⟩)
    · exact .inl hapart
    · exact .inr ⟨hrep, hend, hapart⟩
  · rintro (hapart | ⟨hrep, hend, hapart⟩)
    · exact .inl ⟨hapart, fun _ _ => Nat.zero_le _⟩
    · exact .inr ⟨hrep, hapart, fun _ _ => Nat.zero_le _, hend⟩

theorem removals_le (nFirstOccurrences : Int32) (found : ℕ) : removals nFirstOccurrences found ≤ found := by
  unfold removals
  split_ifs
  · exact le_rfl
  · exact Nat.min_le_right ..

/-- There are at most as many to remove as have been found. -/
theorem wanted_eq {places : List ℕ} {found : ℕ} (h : places.length ≤ found) :
    wanted nFirstOccurrences places = places.take (removals nFirstOccurrences found) := by
  unfold wanted removals
  split_ifs
  · exact (List.take_of_length_le h).symm
  · rw [← List.take_take, List.take_of_length_le h]

/-- **`remove_substring` is right** if the occurrences that it removes do not overlap. -/
theorem removes_right (hsubstring : substring ≠ []) (hfits : input.length < 2 ^ 64)
    (hapart : Apart substring.length
      ((occurrences substring input).take (removals nFirstOccurrences (occurrences substring input).length)))
    (hfew : removals nFirstOccurrences (occurrences substring input).length < 2 ^ 32) :
    RemovesRight input substring nFirstOccurrences := by
  have hplaces := take_leftmost_of_apart hapart
  have hspaced := (leftmost_spaced substring input).take
    (removals nFirstOccurrences (occurrences substring input).length)
  rw [hplaces] at hspaced
  unfold RemovesRight removeSubstring findSplitPoints
  rw [findNeedlePositions_eq hsubstring, wanted_eq (leftmost_length ..), hplaces]
  by_cases hzero : nFirstOccurrences = 0
  · have hnone : removals 0 (occurrences substring input).length = 0 :=
      Nat.zero_min (occurrences substring input).length
    subst hzero
    rw [hnone]
    exact ⟨0, rfl⟩
  · have hlength := List.length_take_of_le (removals_le nFirstOccurrences (occurrences substring input).length)
    have hbefore : ([] : List α).length + 0 = 0 := rfl
    have herased := eraseLoop_splice hfew hfits List.drop_zero ((Nat.zero_add _).trans hlength) hspaced
      (Nat.zero_mul _).symm hbefore
    exact ⟨_, (if_neg hzero).trans herased⟩

/-- **All occurrences are removed** only where none overlap. -/
theorem apart_of_removes (hsubstring : substring ≠ []) (hfits : input.length < 2 ^ 64)
    (h : RemovesRight input substring (-1)) :
    Apart substring.length (occurrences substring input) ∧ (occurrences substring input).length < 2 ^ 32 := by
  have hpos := List.length_pos_iff.2 hsubstring
  obtain ⟨fuel, hrun⟩ := h
  have hall : removals (-1) (occurrences substring input).length = (occurrences substring input).length := rfl
  unfold removeSubstring findSplitPoints at hrun
  rw [findNeedlePositions_eq hsubstring, if_neg (by decide), hall] at hrun
  have hfew : (occurrences substring input).length < 2 ^ 32 := by
    by_contra hmany
    exact eraseLoop_endless _ _ (Nat.not_lt.1 hmany) (by decide) _ _ hrun
  refine ⟨?_, hfew⟩
  by_contra hoverlap
  have herased := eraseLoop_length hfew le_rfl (fun _ hp => add_le_of_mem hp) hfits (Nat.zero_le _)
    (Nat.zero_mul _).symm (Nat.add_zero _) hrun
  have hwanted : wanted (-1) (leftmost substring input) = leftmost substring input := rfl
  have hleft := splice_length [] (leftmost_spaced substring input)
  have hlt := Nat.mul_lt_mul_of_pos_right (leftmost_lt_of_not_apart hoverlap) hpos
  rw [hwanted] at herased
  rw [List.length_nil, Nat.mul_zero] at hleft
  omega

variable (tolower replaceRegex) in
/-- **Replacing and removing**: `replace` is right where no two occurrences overlap, and `remove_substring` where none
of those overlap that it removes. With any number of them it is right only where none overlap. -/
theorem replace_remove_iff (hpattern : pattern ≠ []) (hfits : input.length < 2 ^ 64) (caseSensitive : Bool) :
    (∀ replacement, ReplacesRight tolower replaceRegex input pattern replacement caseSensitive ↔
      Apart pattern.length (occurrences (folded tolower caseSensitive pattern) (folded tolower caseSensitive input)) ∨
      replacement = [] ∧ folded tolower caseSensitive pattern <:+ folded tolower caseSensitive input ∧
        Apart pattern.length
          (occurrences (folded tolower caseSensitive pattern) (folded tolower caseSensitive input)).dropLast) ∧
    ((∀ nFirstOccurrences, RemovesRight input pattern nFirstOccurrences) ↔
      Apart pattern.length (occurrences pattern input) ∧ (occurrences pattern input).length < 2 ^ 32) ∧
    ∀ nFirstOccurrences,
      Apart pattern.length
        ((occurrences pattern input).take (removals nFirstOccurrences (occurrences pattern input).length)) →
      removals nFirstOccurrences (occurrences pattern input).length < 2 ^ 32 →
      RemovesRight input pattern nFirstOccurrences := by
  refine ⟨replaces_right_iff hpattern hfits, ⟨fun h => apart_of_removes hpattern hfits (h (-1)), ?_⟩,
    fun _ => removes_right hpattern hfits⟩
  rintro ⟨hapart, hfew⟩ nFirstOccurrences
  exact removes_right hpattern hfits (hapart.sublist (List.take_sublist ..)) ((removals_le ..).trans_lt hfew)

end Calls

/-- Two occurrences that do not overlap. -/
theorem replace_remove_iff_twice : ['a', 'b'] ≠ [] ∧
    ((∀ nFirstOccurrences, RemovesRight ['a', 'b', 'a', 'b'] ['a', 'b'] nFirstOccurrences) ↔
      Apart 2 (occurrences ['a', 'b'] ['a', 'b', 'a', 'b']) ∧
        (occurrences ['a', 'b'] ['a', 'b', 'a', 'b']).length < 2 ^ 32) :=
  ⟨by decide,
    (replace_remove_iff Char.toLower (fun input _ _ _ => some input) (by decide) (by decide) true).2.1⟩

/-- **Two occurrences that overlap**: one character is kept that is to be replaced, and removing both throws. -/
theorem overlapping_wrong :
    ¬ReplacesRight Char.toLower (fun input _ _ _ => some input) ['a', 'a', 'a'] ['a', 'a'] ['x'] true ∧
      ¬RemovesRight ['a', 'a', 'a'] ['a', 'a'] (-1) := by
  refine ⟨?_, ?_⟩
  · intro h
    exact absurd (Option.some.inj (Except.ok.inj h)) (by decide)
  · rintro ⟨_ | _ | fuel, h⟩
    · cases h
    · cases h
    · cases Option.some.inj h

end Libtarp.Strings
