import Libtarp.Dllist.Calls
import Libtarp.Lib.Position
import Libtarp.Lib.Run

/-!
# Runs of calls on a doubly linked list

* `Call.onSeq`: what a call does on a sequence of nodes, and which node it returns.
* `Admissible`: the node a call is given is a member of the list where it has to be, and a node
  to be put in is not.
* `refines_seq`: after every call of a run the list represents what the calls make of the
  sequence it represented first.
-/

namespace Libtarp.Dll

open Function Lib

variable {ν : Type} [DecidableEq ν]

/-- The calls on a sequence. -/
def Call.onSeq (l : List ν) : Call ν → List ν × Option ν
  | .pushFront node => (node :: l, none)
  | .pushBack node => (l ++ [node], none)
  | .popFront => (l.tail, l.head?)
  | .popBack => (l.dropLast, l.getLast?)
  | .removeNode node _ => (l.erase node, none)
  | .putNodeAfter a b => (l.insertIdx (l.idxOf a + 1) b, none)
  | .putNodeBefore a b => (l.insertIdx (l.idxOf a) b, none)
  | .replaceNode a b => (l.set (l.idxOf a) b, none)
  | .upend => (l.reverse, none)
  | .rotate dir n => (rotated dir n l, none)
  | .rotateToNode node => (l.rotate (l.idxOf node), none)

/-- What a caller has to see to. -/
def Admissible (dtor : Bool) (l : List ν) : Call ν → Prop
  | .pushFront node => node ∉ l
  | .pushBack node => node ∉ l
  | .removeNode node freeContainer => node ∈ l ∧ (freeContainer = true → dtor = true)
  | .putNodeAfter a b => a ∈ l ∧ b ∉ l
  | .putNodeBefore a b => a ∈ l ∧ b ∉ l
  | .replaceNode a b => a ∈ l ∧ b ∉ l
  | .rotate dir _ => dir = 1 ∨ dir = -1
  | .rotateToNode node => node ∈ l
  | _ => True

/-- The calls of a list made on a sequence, one after the other. -/
def onSeqs (cs : List (Call ν)) (l : List ν) : List ν × List (Option ν) :=
  match cs with
  | [] => (l, [])
  | c :: cs =>
    let (l', r) := c.onSeq l
    let (l'', rs) := onSeqs cs l'
    (l'', r :: rs)

/-- Every call is admissible where it is made. -/
def Admissibles (dtor : Bool) : List (Call ν) → List ν → Prop
  | [], _ => True
  | c :: cs, l => Admissible dtor l c ∧ Admissibles dtor cs (c.onSeq l).1

/-- The list is well formed, and is the sequence `l`. -/
structure WellFormed (s : State ν) (l : List ν) : Prop where
  forward : Chain s.nodes.next s.list.front l
  backward : Chain s.nodes.prev s.list.back l.reverse
  first : ∀ a, s.list.front = some a → s.nodes.prev a = none
  last : ∀ a, s.list.back = some a → s.nodes.next a = none
  empty : (s.list.front = none ↔ l = []) ∧ (s.list.back = none ↔ l = [])
  count : s.list.count = l.length

omit [DecidableEq ν] in
theorem Represents.wellFormed {s : State ν} {l : List ν} (h : Represents s l) : WellFormed s l := by
  refine ⟨h.linked.forward, h.linked.backward, ?_, ?_, ⟨?_, ?_⟩, h.count⟩
  · intro a ha
    cases l with
    | nil => rw [h.linked.front_eq] at ha; cases ha
    | cons b l =>
      rw [h.linked.front_eq] at ha
      obtain rfl := Option.some.inj ha
      exact h.linked.prev_first
  · intro a ha
    rcases List.eq_nil_or_concat l with rfl | ⟨l, b, rfl⟩
    · rw [h.linked.back_eq] at ha; cases ha
    · rw [List.concat_eq_append] at h
      rw [h.linked.back_eq, List.getLast?_concat] at ha
      obtain rfl := Option.some.inj ha
      exact h.linked.next_eq
  · rw [h.linked.front_eq, List.head?_eq_none_iff]
  · rw [h.linked.back_eq, List.getLast?_eq_none_iff]

omit [DecidableEq ν] in
theorem WellFormed.represents {s : State ν} {l : List ν} (h : WellFormed s l) : Represents s l :=
  ⟨⟨h.forward.nodup, h.forward, h.backward⟩, h.count⟩

/-! ## Every run -/

variable {rounds : ℕ} {s : State ν} {l : List ν} {c : Call ν}

theorem onSeq_length_le (c : Call ν) (l : List ν) : (c.onSeq l).1.length ≤ l.length + 1 := by
  cases c with
  | putNodeAfter a b =>
    simp only [Call.onSeq, List.length_insertIdx]
    split_ifs <;> omega
  | putNodeBefore a b =>
    simp only [Call.onSeq, List.length_insertIdx]
    split_ifs <;> omega
  | removeNode node f => exact (List.length_erase_le).trans (Nat.le_succ _)
  | rotate dir n =>
    simp only [Call.onSeq, rotated]
    split_ifs <;> simp
  | _ => simp [Call.onSeq] <;> omega

/-- **One call.** -/
theorem exec_spec (h : Represents s l) (hr : l.length ≤ rounds) (hadm : Admissible s.list.dtor l c) :
    ∃ s', exec rounds c s = .ok (s', (c.onSeq l).2) ∧ Represents s' (c.onSeq l).1 ∧ s'.list.dtor = s.list.dtor := by
  have hvoid : ∀ {r : Except Fault (State ν)} {l' : List ν},
      (∃ s', r = .ok s' ∧ Represents s' l' ∧ s'.list.dtor = s.list.dtor) →
      ∃ s', r.map (fun s => (s, (none : Option ν))) = .ok (s', none) ∧ Represents s' l' ∧ s'.list.dtor = s.list.dtor := by
    rintro r l' ⟨s', rfl, h⟩
    exact ⟨s', rfl, h⟩
  have hn := h.linked.nodup
  cases c with
  | pushFront node => exact hvoid (pushFront_spec h hadm)
  | pushBack node => exact hvoid (pushBack_spec h hadm)
  | popFront => exact popFront_spec h
  | popBack => exact popBack_spec h
  -- the sequence is cut where the node is
  | removeNode node freeContainer =>
    obtain ⟨hm, hdtor⟩ := hadm
    obtain ⟨l₁, l₂, rfl, hnot⟩ := split_of_mem hn hm
    have hseq : (Call.removeNode node freeContainer).onSeq (l₁ ++ node :: l₂) = (l₁ ++ l₂, none) := by
      simp only [Call.onSeq, List.erase_append_right _ hnot, List.erase_cons_head]
    rw [hseq]
    apply hvoid
    obtain ⟨s', hs, hrep, hd⟩ := unlink_spec h
    have hmay : ¬(freeContainer && !s'.list.dtor) = true := by
      rw [hd]
      cases freeContainer with
      | false => simp
      | true => simp [hdtor rfl]
    refine ⟨s', ?_, hrep, hd⟩
    unfold removeNode
    rw [hs]
    exact if_neg hmay
  | putNodeAfter a b =>
    obtain ⟨l₁, l₂, rfl, hnot⟩ := split_of_mem hn hadm.1
    have hseq : (Call.putNodeAfter a b).onSeq (l₁ ++ a :: l₂) = (l₁ ++ a :: b :: l₂, none) := by
      simp only [Call.onSeq, idxOf_split hnot]
      simpa using insertIdx_split (l₁ ++ [a]) l₂ b
    rw [hseq]
    exact hvoid (putNodeAfter_spec h hadm.2)
  | putNodeBefore a b =>
    obtain ⟨l₁, l₂, rfl, hnot⟩ := split_of_mem hn hadm.1
    have hseq : (Call.putNodeBefore a b).onSeq (l₁ ++ a :: l₂) = (l₁ ++ b :: a :: l₂, none) := by
      simp only [Call.onSeq, idxOf_split hnot, insertIdx_split]
    rw [hseq]
    exact hvoid (putNodeBefore_spec h hadm.2)
  | replaceNode a b =>
    obtain ⟨l₁, l₂, rfl, hnot⟩ := split_of_mem hn hadm.1
    have hseq : (Call.replaceNode a b).onSeq (l₁ ++ a :: l₂) = (l₁ ++ b :: l₂, none) := by
      simp only [Call.onSeq, idxOf_split hnot, set_split]
    rw [hseq]
    exact hvoid ⟨_, rfl, replaceNode_spec h hadm.2⟩
  | upend => exact hvoid (upend_spec h hr)
  | rotate dir n => exact hvoid (rotate_spec h hadm n)
  | rotateToNode node =>
    obtain ⟨l₁, l₂, rfl, hnot⟩ := split_of_mem hn hadm
    have hseq : (Call.rotateToNode node).onSeq (l₁ ++ node :: l₂) = (node :: l₂ ++ l₁, none) := by
      simp only [Call.onSeq, idxOf_split hnot, List.rotate_append_length_eq]
    rw [hseq]
    exact hvoid (rotateToNode_spec h)

/-- **Every sequence of calls does on the list what it does on the sequence.** -/
theorem refines_seq (h : WellFormed s l) (cs : List (Call ν)) (hr : l.length + cs.length ≤ rounds)
    (hadm : Admissibles s.list.dtor cs l) :
    ∃ s', runCalls (exec rounds) cs s = .ok (s', (onSeqs cs l).2) ∧ WellFormed s' (onSeqs cs l).1 := by
  induction cs generalizing s l with
  | nil => exact ⟨s, rfl, h⟩
  | cons c cs ih =>
    rw [List.length_cons] at hr
    have hle : l.length ≤ rounds := by omega
    obtain ⟨s₁, hs, hrep, hd⟩ := exec_spec h.represents hle hadm.1
    have hlen := onSeq_length_le c l
    obtain ⟨s₂, hrun, hwf⟩ := ih hrep.wellFormed (by omega) (hd ▸ hadm.2)
    exact ⟨s₂, runCalls_cons hs hrun, hwf⟩

theorem refines_seq_four : ∃ s, runCalls (exec 4) [.pushFront 2, .pushBack 3, .putNodeAfter 2 7, .rotate (-1) 4]
      (⟨initializer false, ⟨fun _ => none, fun _ => none⟩⟩ : State ℕ) = .ok (s, [none, none, none, none]) ∧
    WellFormed s [3, 2, 7] :=
  refines_seq (represents_initializer _ _).wellFormed [.pushFront 2, .pushBack 3, .putNodeAfter 2 7, .rotate (-1) 4]
    (by decide) (by simp [Admissibles, Admissible, Call.onSeq])

end Libtarp.Dll
