import Mathlib.Data.List.Basic
import Mathlib.Tactic.Common

/-!
# Comparing two files (`ioutils.cxx`)

`files_identical` opens two streams and compares what they hold, block by block.  Both streams are opened on the
first path; only the sizes are those of the two files.

* `compareLoop_eq`: two streams of as many bytes are compared rightly, whatever the sizes of the blocks and files.
* `files_identical_iff`: the two files are compared rightly if their sizes differ or they are equal.
-/

namespace Libtarp.IoUtils

/-- The bytes of the files that can be read. -/
abbrev Files := String → Option (List UInt8)

/-- The exceptions. -/
inductive Thrown
  | logicError (what : String)
  | filesystemError (path : String)
  deriving DecidableEq, Repr

/-- A `std::ifstream`: what is still to be read of the file, and the state of the stream. -/
structure IfStream where
  rest : List UInt8
  fail : Bool
  gcount : ℕ
  deriving DecidableEq, Repr

/-- `open`: no stream if the file cannot be read. -/
def IfStream.open (files : Files) (path : String) : Option IfStream :=
  (files path).map fun contents => ⟨contents, false, 0⟩

/-- `read` into the front of a buffer.  A stream that has fewer bytes left than the buffer has room for gives
these, and fails. -/
def IfStream.read (s : IfStream) (buffer : List UInt8) : IfStream × List UInt8 :=
  if s.fail then ({ s with gcount := 0 }, buffer)
  else
    let got := s.rest.take buffer.length
    (⟨s.rest.drop buffer.length, got.length < buffer.length, got.length⟩, got ++ buffer.drop got.length)

/-- `std::filesystem::file_size`. -/
def fileSize (files : Files) (path : String) : Except Thrown ℕ :=
  match files path with
  | none => .error (.filesystemError path)
  | some contents => .ok contents.length

/-- What the loop of `files_identical` works on. -/
structure Comparison where
  a : IfStream
  b : IfStream
  bufferA : List UInt8
  bufferB : List UInt8
  totalBytesReadA : ℕ
  totalBytesReadB : ℕ
  deriving DecidableEq, Repr

/-- The two reads of a round. -/
def Comparison.readBoth (c : Comparison) : Comparison :=
  let (a, bufferA) := c.a.read c.bufferA
  let (b, bufferB) := c.b.read c.bufferB
  ⟨a, b, bufferA, bufferB, c.totalBytesReadA + a.gcount, c.totalBytesReadB + b.gcount⟩

/-- A byte of the blocks read differs. -/
def Comparison.differs (c : Comparison) : Bool :=
  (List.range c.a.gcount).any fun i => c.bufferA[i]? != c.bufferB[i]?

variable {files : Files} {A B : List UInt8} {c : Comparison} {s : IfStream} {buffer : List UInt8}

/-- How much there is still to be read of a stream, counting the read that fails. -/
def IfStream.left (s : IfStream) : ℕ := if s.fail then 0 else s.rest.length + 1

theorem IfStream.read_open (hs : s.fail = false) :
    s.read buffer = (⟨s.rest.drop buffer.length, (s.rest.take buffer.length).length < buffer.length,
      (s.rest.take buffer.length).length⟩,
      s.rest.take buffer.length ++ buffer.drop (s.rest.take buffer.length).length) := by
  unfold IfStream.read
  rw [if_neg (Bool.eq_false_iff.mp hs)]

theorem IfStream.read_left (hs : s.fail = false) (hpos : 0 < buffer.length) : (s.read buffer).1.left < s.left := by
  have hleft : s.left = s.rest.length + 1 := if_neg (Bool.eq_false_iff.mp hs)
  rw [IfStream.read_open hs, hleft]
  unfold IfStream.left
  rw [List.length_take, List.length_drop]
  split_ifs with hshort
  · omega
  · rw [decide_eq_true_eq] at hshort
    omega

/-- A buffer keeps its size. -/
@[simp] theorem IfStream.read_length (s : IfStream) (buffer : List UInt8) :
    (s.read buffer).2.length = buffer.length := by
  unfold IfStream.read
  split_ifs
  · rfl
  · rw [List.length_append, List.length_drop, List.length_take]
    omega

/-- The loop of `files_identical`; a buffer with no room would be read into for ever, which the size of the buffers
excludes. -/
def compareLoop (c : Comparison) : Except Thrown (Bool × String) :=
  if _hgo : c.a.fail = false ∧ c.b.fail = false ∧ 0 < c.bufferA.length then
    let read := c.readBoth
    if read.a.gcount ≠ read.b.gcount ∨ read.totalBytesReadA ≠ read.totalBytesReadB then
      .error (.logicError "Unexpected condition")
    else if read.differs then .ok (false, "")
    else compareLoop read
  else .ok (true, "")
termination_by c.a.left
decreasing_by exact IfStream.read_left _hgo.1 _hgo.2.2

/-- `BUFFSZ`. -/
def buffSz : ℕ := 1024 * 1024

/-- `files_identical`. -/
def filesIdentical (files : Files) (fpathA fpathB : String) : Except Thrown (Bool × String) :=
  match IfStream.open files fpathA with
  | none => .ok (false, "failed to open " ++ fpathA)
  | some a =>
    match IfStream.open files fpathA with
    | none => .ok (false, "failed to open " ++ fpathB)
    | some b =>
      match fileSize files fpathA, fileSize files fpathB with
      | .error e, _ => .error e
      | _, .error e => .error e
      | .ok sizeA, .ok sizeB =>
        if sizeA ≠ sizeB then .ok (false, "")
        else compareLoop ⟨a, b, List.replicate buffSz 0, List.replicate buffSz 0, 0, 0⟩

/-! ## The block loop -/

/-- Two streams that are as far, with as much left. -/
structure Comparison.Level (c : Comparison) : Prop where
  a_open : c.a.fail = false
  b_open : c.b.fail = false
  room : 0 < c.bufferA.length
  buffers : c.bufferA.length = c.bufferB.length
  left : c.a.rest.length = c.b.rest.length
  totals : c.totalBytesReadA = c.totalBytesReadB

theorem Comparison.Level.readBoth_eq (h : c.Level) :
    c.readBoth.a.gcount = (c.a.rest.take c.bufferA.length).length ∧ c.readBoth.a.gcount = c.readBoth.b.gcount ∧
      c.readBoth.totalBytesReadA = c.readBoth.totalBytesReadB := by
  unfold Comparison.readBoth
  rw [IfStream.read_open h.a_open, IfStream.read_open h.b_open]
  dsimp only
  rw [h.totals, ← h.buffers, List.length_take, List.length_take, h.left]
  exact ⟨rfl, rfl, rfl⟩

/-- A byte differs in the buffers if it does in what was read into them. -/
theorem Comparison.Level.differs_iff (h : c.Level) :
    c.readBoth.differs = true ↔ c.a.rest.take c.bufferA.length ≠ c.b.rest.take c.bufferA.length := by
  have hlen : (c.a.rest.take c.bufferA.length).length = (c.b.rest.take c.bufferA.length).length := by
    rw [List.length_take, List.length_take, h.left]
  unfold Comparison.differs
  rw [h.readBoth_eq.1]
  unfold Comparison.readBoth
  rw [IfStream.read_open h.a_open, IfStream.read_open h.b_open, ← h.buffers]
  generalize c.a.rest.take c.bufferA.length = xs at hlen ⊢
  generalize c.b.rest.take c.bufferA.length = ys at hlen ⊢
  simp only [List.any_eq_true, List.mem_range, bne_iff_ne]
  constructor
  · rintro ⟨i, hi, hne⟩ rfl
    rw [List.getElem?_append_left hi, List.getElem?_append_left hi] at hne
    exact hne rfl
  · intro hne
    by_contra hall
    push Not at hall
    refine hne (List.ext_getElem? fun i => ?_)
    rcases Nat.lt_or_ge i xs.length with hi | hi
    · have heq := hall i hi
      rwa [List.getElem?_append_left hi, List.getElem?_append_left (hlen ▸ hi)] at heq
    · rw [List.getElem?_eq_none hi, List.getElem?_eq_none (hlen ▸ hi)]

/-- Full blocks leave the streams as far again. -/
theorem Comparison.Level.readBoth_level (h : c.Level) (hfull : c.bufferA.length ≤ c.a.rest.length) :
    c.readBoth.Level ∧ c.readBoth.a.rest = c.a.rest.drop c.bufferA.length ∧
      c.readBoth.b.rest = c.b.rest.drop c.bufferA.length := by
  have htotals := h.readBoth_eq.2.2
  have hfullB : c.bufferA.length ≤ c.b.rest.length := h.left ▸ hfull
  have hopen : ∀ rest : List UInt8, c.bufferA.length ≤ rest.length →
      (decide ((rest.take c.bufferA.length).length < c.bufferA.length)) = false := by
    intro rest hle
    rw [List.length_take_of_le hle]
    exact decide_eq_false (Nat.lt_irrefl _)
  have ha : c.readBoth.a.rest = c.a.rest.drop c.bufferA.length ∧ c.readBoth.a.fail = false := by
    unfold Comparison.readBoth
    rw [IfStream.read_open h.a_open]
    exact ⟨rfl, hopen _ hfull⟩
  have hb : c.readBoth.b.rest = c.b.rest.drop c.bufferA.length ∧ c.readBoth.b.fail = false := by
    unfold Comparison.readBoth
    rw [IfStream.read_open h.b_open, ← h.buffers]
    exact ⟨rfl, hopen _ hfullB⟩
  have hbufferA : c.readBoth.bufferA.length = c.bufferA.length := IfStream.read_length ..
  have hbufferB : c.readBoth.bufferB.length = c.bufferB.length := IfStream.read_length ..
  refine ⟨⟨ha.2, hb.2, hbufferA ▸ h.room, by rw [hbufferA, hbufferB, h.buffers], ?_, htotals⟩, ha.1, hb.1⟩
  rw [ha.1, hb.1, List.length_drop, List.length_drop, h.left]

/-- Short blocks end the loop. -/
theorem Comparison.Level.readBoth_fail (h : c.Level) (hshort : c.a.rest.length < c.bufferA.length) :
    c.readBoth.a.fail = true := by
  unfold Comparison.readBoth
  rw [IfStream.read_open h.a_open]
  exact decide_eq_true (by rw [List.length_take]; omega)

theorem compareLoop_fail (hfail : c.a.fail = true) : compareLoop c = .ok (true, "") := by
  rw [compareLoop, dif_neg]
  rintro ⟨hopen, -⟩
  rw [hfail] at hopen
  exact Bool.true_eq_false.mp hopen

theorem Comparison.Level.compareLoop_round (h : c.Level) :
    compareLoop c = if c.a.rest.take c.bufferA.length ≠ c.b.rest.take c.bufferA.length then .ok (false, "")
      else compareLoop c.readBoth := by
  obtain ⟨-, hcounts, htotals⟩ := h.readBoth_eq
  rw [compareLoop, dif_pos ⟨h.a_open, h.b_open, h.room⟩, if_neg (by rw [hcounts, htotals]; tauto)]
  exact if_congr h.differs_iff rfl rfl

/-- **The block loop**: two streams with as many bytes left are compared rightly. -/
theorem compareLoop_eq (h : c.Level) : compareLoop c = .ok (decide (c.a.rest = c.b.rest), "") := by
  -- on the bytes that are left, a block fewer each round
  induction hn : c.a.rest.length using Nat.strongRecOn generalizing c with
  | _ n ih =>
    rw [h.compareLoop_round]
    rcases Nat.lt_or_ge c.a.rest.length c.bufferA.length with hshort | hfull
    · rw [compareLoop_fail (h.readBoth_fail hshort), List.take_of_length_le (Nat.le_of_lt hshort),
        List.take_of_length_le (h.left ▸ Nat.le_of_lt hshort)]
      split_ifs with hne
      · rw [decide_eq_false hne]
      · rw [decide_eq_true (not_not.mp hne)]
    · obtain ⟨hlevel, ha, hb⟩ := h.readBoth_level hfull
      have hshorter : c.readBoth.a.rest.length < n := by
        rw [ha, List.length_drop, ← hn]
        have := h.room
        omega
      rw [ih _ hshorter hlevel rfl, ha, hb]
      have hcut : c.a.rest = c.b.rest ↔ c.a.rest.take c.bufferA.length = c.b.rest.take c.bufferA.length ∧
          c.a.rest.drop c.bufferA.length = c.b.rest.drop c.bufferA.length := by
        constructor
        · intro heq
          rw [heq]
          exact ⟨rfl, rfl⟩
        · rintro ⟨htake, hdrop⟩
          rw [← List.take_append_drop c.bufferA.length c.a.rest, htake, hdrop, List.take_append_drop]
      split_ifs with hne
      · rw [decide_eq_false fun heq => hne (hcut.mp heq).1]
      · have hiff : c.a.rest = c.b.rest ↔ c.a.rest.drop c.bufferA.length = c.b.rest.drop c.bufferA.length := by
          rw [hcut]
          exact and_iff_right (not_not.mp hne)
        rw [decide_eq_decide.mpr hiff]

/-! ## The two files -/

theorem level_start (hlen : A.length = B.length) :
    (⟨⟨A, false, 0⟩, ⟨B, false, 0⟩, List.replicate buffSz 0, List.replicate buffSz 0, 0, 0⟩ : Comparison).Level := by
  have hroom : 0 < (List.replicate buffSz (0 : UInt8)).length := by
    rw [List.length_replicate]
    exact Nat.mul_pos (by decide) (by decide)
  exact ⟨rfl, rfl, hroom, rfl, hlen, rfl⟩

/-- Files that can be read are said to be identical if their sizes are equal. -/
theorem filesIdentical_eq {fpathA fpathB : String} (ha : files fpathA = some A) (hb : files fpathB = some B) :
    filesIdentical files fpathA fpathB = .ok (decide (A.length = B.length), "") := by
  unfold filesIdentical IfStream.open fileSize
  rw [ha, hb]
  dsimp only [Option.map]
  split_ifs with hsize
  · rw [decide_eq_false hsize]
  · rw [compareLoop_eq (level_start rfl), decide_eq_true (not_not.mp hsize), decide_eq_true rfl]

/-- The call returned, without an error, whether the contents are equal. -/
def ToldRight (r : Except Thrown (Bool × String)) (A B : List UInt8) : Prop :=
  ∃ same, r = .ok (same, "") ∧ (same = true ↔ A = B)

/-- **The files are compared rightly** if their sizes differ or they are equal, and then only. -/
theorem files_identical_iff (files : Files) (fpathA fpathB : String) (A B : List UInt8)
    (ha : files fpathA = some A) (hb : files fpathB = some B) :
    ToldRight (filesIdentical files fpathA fpathB) A B ↔ A.length ≠ B.length ∨ A = B := by
  rw [filesIdentical_eq ha hb]
  unfold ToldRight
  constructor
  · rintro ⟨same, heq, hsame⟩
    obtain ⟨rfl, -⟩ := Prod.mk.inj (Except.ok.inj heq)
    rw [decide_eq_true_eq] at hsame
    by_cases hlen : A.length = B.length
    · exact Or.inr (hsame.mp hlen)
    · exact Or.inl hlen
  · rintro hcond
    refine ⟨_, rfl, ?_⟩
    rw [decide_eq_true_eq]
    constructor
    · intro hlen
      exact hcond.resolve_left (not_not.mpr hlen)
    · rintro rfl
      rfl

/-- Two files of one byte. -/
def oneByteFiles : Files := fun path => if path = "a" then some [1] else if path = "b" then some [2] else none

theorem files_identical_iff_same : ToldRight (filesIdentical oneByteFiles "a" "a") [1] [1] ↔
    ([1] : List UInt8).length ≠ ([1] : List UInt8).length ∨ ([1] : List UInt8) = [1] :=
  files_identical_iff oneByteFiles "a" "a" [1] [1] rfl rfl

/-- Two files of one byte each that differ are said to be identical. -/
theorem different_identical : oneByteFiles "a" = some [1] ∧ oneByteFiles "b" = some [2] ∧
    filesIdentical oneByteFiles "a" "b" = .ok (true, "") ∧
    ¬ ToldRight (filesIdentical oneByteFiles "a" "b") [1] [2] := by
  have hresult : filesIdentical oneByteFiles "a" "b" = .ok (true, "") :=
    filesIdentical_eq (A := [1]) (B := [2]) rfl rfl
  refine ⟨rfl, rfl, hresult, ?_⟩
  rintro ⟨same, heq, hsame⟩
  rw [hresult] at heq
  obtain ⟨rfl, -⟩ := Prod.mk.inj (Except.ok.inj heq)
  exact absurd (hsame.mp rfl) (by decide)

end Libtarp.IoUtils
