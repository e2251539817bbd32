import Libtarp.IoUtils.Read

/-!
# `receive_msg_with_fd` (`ioutils.c`), and all that is read

A message is read by `recvmsg`, and what is missing of the least that is wanted by `try_read` if the caller wants to
wait.

* `receiveMsgWithFd_iff`: the number of bytes read is stored, unless `try_read` went on reading a message.
* `read_counts_iff`: when the functions that read count right.
-/

namespace Libtarp.IoUtils

open Lib

/-- The control message that comes with a message. -/
structure Cmsg where
  len : ℕ
  level : ℕ
  type : ℕ
  data : ℤ
  deriving DecidableEq, Repr

/-- `CMSG_LEN(sizeof(int))`, `SOL_SOCKET` and `SCM_RIGHTS`. -/
def cmsgLen : ℕ := 20
def solSocket : ℕ := 1
def scmRights : ℕ := 1

/-- What `recvmsg` has for the caller. -/
structure Message where
  data : List UInt8
  control : Option Cmsg
  name : String
  deriving DecidableEq, Repr

/-- What `receive_msg_with_fd` returned and stored where its pointers point (`none` is a null pointer), the memory from
the buffer on, and the bytes that were read. -/
structure Received where
  result : Result
  fd : Option ℤ
  numBytesRead : Option ℕ
  src : Option String
  buff : List UInt8
  bytes : List UInt8
  deriving DecidableEq, Repr

/-- The text for a control message that is not one descriptor. -/
def controlError (c : Cmsg) : Option String :=
  if c.len ≠ cmsgLen then some "failed to extract ancillary data (bad cmsg header/message length)"
  else if c.level ≠ solSocket then some "failed to extract ancillary data (cmsg_level != SOL_SOCKET)"
  else if c.type ≠ scmRights then some "failed to extract ancillary data (cmsg_type != SCM_RIGHTS)"
  else none

/-- The text for arguments that are refused. -/
def refusal (buff : Option (List UInt8)) (buffsz minBytesToRead : ℕ) (numBytesRead : Option ℕ) (fd : Option ℤ)
    (allocated : Bool) : Option String :=
  if buffsz = 0 ∨ buff = none then some "null buffer"
  else if minBytesToRead > buffsz then some "min_bytes_to_read < buffsz"
  else if numBytesRead = none then some "null num_bytes_read"
  else if fd = none then some "null fd buffer"
  else if allocated = false then some "memory allocation failure"
  else none

/-- What follows a message whose control message is in order; `got` is what was received so far. -/
def afterRecvmsg (udsFd : ℤ) (buffsz minBytesToRead : ℕ) (blocking : Bool) (reads : Replies (List UInt8))
    (rounds ret : ℕ) (got : Received) : Except Fault Received :=
  if ret = buffsz ∨ ret ≥ minBytesToRead then .ok got
  else if ret > buffsz then .ok { got with result := ⟨false, "BUG: more bytes read than expected (?)", none⟩ }
  else if blocking = true then
    match tryRead udsFd (some (got.buff.drop ret)) (minBytesToRead - ret) reads rounds with
    | .error e => .error e
    | .ok filled =>
      let result : Result :=
        if filled.returned < 0 ∨ filled.returned ≠ (minBytesToRead - ret : ℕ) then ⟨false, "failed partial read", none⟩
        else ⟨true, "", none⟩
      .ok { got with
        result := result, numBytesRead := some (toSize filled.returned), buff := got.buff.take ret ++ filled.buff,
        bytes := got.bytes ++ filled.bytes }
  else .ok got

/-- `receive_msg_with_fd`; `allocated` is whether there is memory for the address of the sender. -/
def receiveMsgWithFd (udsFd : ℤ) (fd : Option ℤ) (buff : Option (List UInt8)) (buffsz minBytesToRead : ℕ)
    (blocking : Bool) (numBytesRead : Option ℕ) (src : Option String) (allocated : Bool) (recvmsg : Replies Message)
    (reads : Replies (List UInt8)) (rounds : ℕ) : Except Fault Received :=
  match refusal buff buffsz minBytesToRead numBytesRead fd allocated with
  | some text => .ok ⟨⟨false, text, none⟩, fd, numBytesRead, src, buff.getD [], []⟩
  | none =>
    let mem := buff.getD []
    match msgCall recvmsg 5 0 with
    | .error e => .ok ⟨⟨false, "failed recvmsg", some e⟩, some (-1), some 0, src.map fun _ => "", mem, []⟩
    | .ok message =>
      let data := message.data.take (granted buffsz 0 message.data.length)
      let got : Received :=
        ⟨⟨true, "", none⟩, some (-1), some data.length, src.map fun _ => message.name, store mem 0 data, data⟩
      match message.control with
      | none => afterRecvmsg udsFd buffsz minBytesToRead blocking reads rounds data.length got
      | some c =>
        match controlError c with
        | some text => .ok { got with result := ⟨false, text, none⟩ }
        | none => afterRecvmsg udsFd buffsz minBytesToRead blocking reads rounds data.length { got with fd := some c.data }

/-- The call returns, with the number of the bytes read stored where it was to be stored. -/
def ReceiveRight (udsFd : ℤ) (fd : Option ℤ) (buff : Option (List UInt8)) (buffsz minBytesToRead : ℕ) (blocking : Bool)
    (numBytesRead : Option ℕ) (src : Option String) (allocated : Bool) (recvmsg : Replies Message)
    (reads : Replies (List UInt8)) : Prop :=
  ∃ rounds received, receiveMsgWithFd udsFd fd buff buffsz minBytesToRead blocking numBytesRead src allocated recvmsg
    reads rounds = .ok received ∧ ∀ num, received.numBytesRead = some num → num = received.bytes.length

/-- The arguments are refused and there is no number in the way, or there is nothing for `try_read` to read, or
`recvmsg` read nothing and the first call of `read` that reads anything leaves nothing to be read. -/
def ReceiveCond (udsFd : ℤ) (fd : Option ℤ) (buff : Option (List UInt8)) (buffsz minBytesToRead : ℕ) (blocking : Bool)
    (numBytesRead : Option ℕ) (allocated : Bool) (recvmsg : Replies Message) (reads : Replies (List UInt8)) : Prop :=
  if (refusal buff buffsz minBytesToRead numBytesRead fd allocated).isSome then
    numBytesRead = none ∨ numBytesRead = some 0
  else
    ∀ message, msgCall recvmsg 5 0 = .ok message → (∀ c, message.control = some c → controlError c = none) →
      blocking = true → granted buffsz 0 message.data.length < minBytesToRead →
      granted buffsz 0 message.data.length = 0 ∧ 0 < udsFd ∧ ReadCond minBytesToRead reads

variable {udsFd : ℤ} {buffsz minBytesToRead : ℕ} {blocking : Bool} {reads : Replies (List UInt8)} {got : Received}
  {rounds ret : ℕ}

/-- What `try_read` reads behind a message is counted right only if the message was empty. -/
theorem more_iff {buff : List UInt8} {size : ℕ} (hret : ret ≤ ptrdiffMax) {filled : Filled}
    (h : tryRead udsFd (some buff) size reads rounds = .ok filled) :
    toSize filled.returned = ret + filled.bytes.length ↔ ret = 0 ∧ filled.returned = filled.bytes.length := by
  obtain ⟨-, hreturned, hlength⟩ := tryRead_ok h
  obtain ⟨hmax, hlast⟩ : (readRun reads size rounds).pos ≤ ptrdiffMax ∧ ((readRun reads size rounds).last = -1 ∨
      0 ≤ (readRun reads size rounds).last ∧ (readRun reads size rounds).last ≤ (readRun reads size rounds).pos) :=
    run_last rounds
  rw [← hreturned, ← hlength] at hlast
  rw [← hlength] at hmax
  unfold ptrdiffMax at hmax hret
  rcases hlast with hlast | ⟨hlow, hle⟩
  · -- `-1` is the largest number there is once it is unsigned
    have hsize : toSize filled.returned = 2 ^ 64 - 1 := by
      rw [hlast]
      decide
    omega
  · have hsize := toSize_of_nonneg hlow (by omega)
    omega

theorem afterRecvmsg_iff (udsFd : ℤ) (blocking : Bool) (reads : Replies (List UInt8)) (hret : ret ≤ buffsz)
    (hmax : ret ≤ ptrdiffMax) (hmin : minBytesToRead ≤ buffsz) (hnum : got.numBytesRead = some ret) (hbytes : got.bytes.length = ret) :
    (∃ rounds received, afterRecvmsg udsFd buffsz minBytesToRead blocking reads rounds ret got = .ok received ∧
      ∀ num, received.numBytesRead = some num → num = received.bytes.length) ↔
    (blocking = true → ret < minBytesToRead → ret = 0 ∧ 0 < udsFd ∧ ReadCond minBytesToRead reads) := by
  unfold afterRecvmsg
  -- enough was read, or the rest is left alone, or it goes to `try_read`
  by_cases henough : ret ≥ minBytesToRead
  · refine iff_of_true ⟨0, got, if_pos (Or.inr henough), fun num h => ?_⟩ fun _ hlt => by omega
    rw [hbytes]
    exact Option.some.inj (h.symm.trans hnum)
  have hless : ¬ (ret = buffsz ∨ ret ≥ minBytesToRead) := by omega
  cases blocking with
  | false =>
    refine iff_of_true ⟨0, got, ?_, fun num h => ?_⟩ fun h => absurd h Bool.false_ne_true
    · rw [if_neg hless, if_neg (by omega), if_neg Bool.false_ne_true]
    · rw [hbytes]
      exact Option.some.inj (h.symm.trans hnum)
  | true =>
    constructor
    · rintro ⟨rounds, received, hreceived, hright⟩ - -
      rw [if_neg hless, if_neg (by omega), if_pos rfl] at hreceived
      cases hfilled : tryRead udsFd (some (got.buff.drop ret)) (minBytesToRead - ret) reads rounds with
      | error e =>
        rw [hfilled] at hreceived
        cases hreceived
      | ok filled =>
        rw [hfilled] at hreceived
        obtain rfl := Except.ok.inj hreceived
        have hcount := hright _ rfl
        rw [List.length_append, hbytes] at hcount
        obtain ⟨rfl, hlast⟩ := (more_iff hmax hfilled).mp hcount
        obtain ⟨hover, hreturned, hlength⟩ := tryRead_ok hfilled
        rw [hreturned, hlength] at hlast
        exact ⟨rfl, tryRead_src hfilled, (read_count_iff (by omega)).mp ⟨rounds, hover, hlast⟩⟩
    · intro h
      obtain ⟨rfl, hsrc, hcond⟩ := h rfl (by omega)
      obtain ⟨n, hover, hlast⟩ := (read_count_iff (by omega)).mpr hcond
      obtain ⟨filled, hfilled⟩ := tryRead_over (got.buff.drop 0) hsrc (by omega) hover
      obtain ⟨-, hreturned, hlength⟩ := tryRead_ok hfilled
      refine ⟨n, _, by rw [if_neg hless, if_neg (by omega), if_pos rfl, Nat.sub_zero, hfilled], fun num h => ?_⟩
      rw [← Option.some.inj h, List.length_append, hbytes]
      exact (more_iff hmax hfilled).mpr ⟨rfl, by rw [hreturned, hlength, hlast]⟩

theorem refusal_none {buff : Option (List UInt8)} {numBytesRead : Option ℕ} {fd : Option ℤ} {allocated : Bool}
    (h : refusal buff buffsz minBytesToRead numBytesRead fd allocated = none) : minBytesToRead ≤ buffsz := by
  unfold refusal at h
  split_ifs at h
  omega

/-- **The number stored** is that of the bytes read, unless `try_read` went on reading a message. -/
theorem receiveMsgWithFd_iff (udsFd : ℤ) (fd : Option ℤ) (buff : Option (List UInt8)) (buffsz minBytesToRead : ℕ)
    (blocking : Bool) (numBytesRead : Option ℕ) (src : Option String) (allocated : Bool) (recvmsg : Replies Message)
    (reads : Replies (List UInt8)) :
    ReceiveRight udsFd fd buff buffsz minBytesToRead blocking numBytesRead src allocated recvmsg reads ↔
      ReceiveCond udsFd fd buff buffsz minBytesToRead blocking numBytesRead allocated recvmsg reads := by
  unfold ReceiveRight ReceiveCond receiveMsgWithFd
  cases hrefusal : refusal buff buffsz minBytesToRead numBytesRead fd allocated with
  | some text =>
    -- a call that is refused leaves the number as it was
    rw [if_pos (Option.isSome_some)]
    constructor
    · rintro ⟨rounds, received, hreceived, hright⟩
      obtain rfl := Except.ok.inj hreceived
      cases numBytesRead with
      | none => exact Or.inl rfl
      | some old =>
        rw [hright old rfl]
        exact Or.inr rfl
    · rintro (rfl | rfl)
      · exact ⟨0, _, rfl, fun num h => absurd h.symm (Option.some_ne_none num)⟩
      · exact ⟨0, _, rfl, fun num h => (Option.some.inj h).symm⟩
  | none =>
    rw [if_neg (by rw [Option.isSome_none]; exact Bool.false_ne_true)]
    cases hcall : msgCall recvmsg 5 0 with
    | error e =>
      refine iff_of_true ⟨0, _, rfl, fun num h => (Option.some.inj h).symm⟩ ?_
      intro message hmessage
      cases hmessage
    | ok message =>
      obtain ⟨hle, hmax⟩ := granted_le buffsz 0 message.data.length
      have hlength : (message.data.take (granted buffsz 0 message.data.length)).length =
          granted buffsz 0 message.data.length := List.length_take_of_le (Nat.min_le_left ..)
      have hafter : ∀ got : Received, got.numBytesRead = some (granted buffsz 0 message.data.length) →
          got.bytes.length = granted buffsz 0 message.data.length → _ := fun got hnum hbytes =>
        afterRecvmsg_iff udsFd blocking reads hle hmax (refusal_none hrefusal) hnum hbytes
      dsimp only
      rw [hlength]
      cases hcontrol : message.control with
      | none =>
        refine (hafter _ rfl hlength).trans ⟨fun h message' hmessage _ => ?_, fun h => h message rfl ?_⟩
        · obtain rfl := Except.ok.inj hmessage
          exact h
        · intro c hc
          rw [hcontrol] at hc
          cases hc
      | some c =>
        cases herror : controlError c with
        | some text =>
          refine iff_of_true ⟨0, _, by dsimp only; rw [herror], fun num h => ?_⟩ fun message' hmessage hall => ?_
          · rw [← Option.some.inj h]
            exact hlength.symm
          · obtain rfl := Except.ok.inj hmessage
            rw [hall c hcontrol] at herror
            cases herror
        | none =>
          dsimp only
          rw [herror]
          refine (hafter _ rfl hlength).trans ⟨fun h message' hmessage _ => ?_, fun h => h message rfl ?_⟩
          · obtain rfl := Except.ok.inj hmessage
            exact h
          · intro c' hc'
            rw [← Option.some.inj (hcontrol.symm.trans hc')]
            exact herror

/-- **When the reads are counted right**: `try_read` ends at the end of the file, stays within the buffer and returns the
number of bytes read, and `receive_msg_with_fd` stores it. -/
theorem read_counts_iff (src : ℤ) (buff : List UInt8) (buffsz : ℕ) (reads : Replies (List UInt8)) (udsFd : ℤ)
    (fd : Option ℤ) (msgBuff : Option (List UInt8)) (msgBuffsz minBytesToRead : ℕ) (blocking : Bool)
    (numBytesRead : Option ℕ) (addr : Option String) (allocated : Bool) (recvmsg : Replies Message)
    (moreReads : Replies (List UInt8)) :
    (0 < src → 0 < buffsz → (ReadRight src buff buffsz reads ↔ ReadCond buffsz reads)) ∧
    (ReceiveRight udsFd fd msgBuff msgBuffsz minBytesToRead blocking numBytesRead addr allocated recvmsg moreReads ↔
      ReceiveCond udsFd fd msgBuff msgBuffsz minBytesToRead blocking numBytesRead allocated recvmsg moreReads) :=
  ⟨tryRead_iff, receiveMsgWithFd_iff ..⟩

/-- Two calls fail for the time being, and the third reads four bytes. -/
def thirdReads (i : ℕ) : Except Errno (List UInt8) :=
  match i with
  | 0 => .error .again
  | 1 => .error .wouldBlock
  | 2 => .ok [7, 8, 9, 10]
  | _ => .ok []

theorem read_counts_iff_retried : ReadRight 3 [0, 0, 0, 0] 4 thirdReads ∧
    tryRead 3 (some [0, 0, 0, 0]) 4 thirdReads 5 = .ok ⟨4, [7, 8, 9, 10], [7, 8, 9, 10]⟩ := by
  have hcond : ReadCond 4 thirdReads := by
    refine Or.inr ⟨2, 4, fun i hi => ?_, by decide, rfl, by decide +kernel, by decide +kernel⟩
    match i, hi with
    | 0, _ => exact rfl
    | 1, _ => exact rfl
  have hright := (read_counts_iff 3 [0, 0, 0, 0] 4 thirdReads 3 none none 0 0 false none none true
    (fun _ => .error .intr) (fun _ => .ok [])).1 (by decide) (by decide)
  exact ⟨hright.2 hcond, by decide +kernel⟩

/-- Two bytes that are read one by one: the second call asks for two bytes where there is room for one, and 1 is
returned.  At the end of the file the loop goes on for ever. -/
theorem asks_beyond : (⟨1, 2, some 1⟩ : Attempt) ∈ (readRun (fun _ => .ok [7]) 2 2).calls ∧
    tryRead 3 (some [0, 0]) 2 (fun _ => .ok [7]) 3 = .ok ⟨1, [7, 7], [7, 7]⟩ ∧
    (∀ rounds, tryRead 3 (some [0]) 1 (fun _ => .ok []) rounds = .error .rounds) ∧
    ¬ ReadRight 3 [0, 0] 2 (fun _ => .ok [7]) := by
  have hmem : (⟨1, 2, some 1⟩ : Attempt) ∈ (readRun (fun _ => .ok [7]) 2 2).calls := by decide +kernel
  refine ⟨hmem, by decide +kernel, fun rounds => ?_, fun hright => absurd (hright.inside 2 _ hmem) (by decide)⟩
  have hstreak : ∀ i, streak (available fun _ => .ok []) i = 0 := by
    intro i
    cases i <;> rfl
  have hidle : ∀ i, Idle (available (fun _ => .ok []) i) := fun _ => rfl
  have hleft : 0 < toInt32 (1 : ℕ) := by decide +kernel
  have hfruitless := fruitless_run (fun _ => 1) hleft (fun i _ => hidle i) (fun i _ => by rw [hstreak]; decide)
    rounds (Nat.le_refl rounds)
  have hopen : (readRun (fun _ => .ok []) 1 rounds).ended = false := hfruitless.opened
  unfold tryRead
  dsimp only
  rw [if_neg (by decide), if_neg (Bool.eq_false_iff.mp hopen)]

end Libtarp.IoUtils
