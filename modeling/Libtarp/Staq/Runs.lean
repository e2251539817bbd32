import Libtarp.Lib.Chain
import Libtarp.Lib.Position
import Libtarp.Staq.Model

/-!
# Runs of calls on a staq

* `Represents`: following `next` from the front one meets a sequence of nodes, and `back` and `count` are its last node
  and its length.
* `pushback_spec` and so on: what each function does to the sequence.
* `Call.onSeq`, `Admissible`: what a call does on a sequence, and what a caller has to see to.
* `does_as_sequence`: after every call of a run the staq is well formed and represents what the calls make of the
  sequence it represented first.
* `staq_shares_memory`: so it is with removals, loops and clearing, whatever is written to nodes that are not in the
  staq.
-/

namespace Libtarp.Staq

open Function Lib

variable {ν : Type}

structure Represents (s : State ν) (l : List ν) : Prop where
  linked : Seg s.next s.staq.front l none
  back : s.staq.back = l.getLast?
  count : s.staq.count = l.length

@[simp] theorem nonNull_some_bind {β : Type} (fault : Fault) (node : ν) (f : ν → Except Fault β) :
    (nonNull fault (some node) >>= f) = f node := rfl

variable {sq : Staq ν} {next : ν → Option ν} {l l₁ l₂ : List ν} {a b x node : ν}

theorem Represents.nodup {s : State ν} (h : Represents s l) : l.Nodup := (chain_iff_seg.2 h.linked).nodup

theorem represents_initializer (dtor : Bool) (next : ν → Option ν) : Represents ⟨initializer dtor, next⟩ [] :=
  ⟨rfl, rfl, rfl⟩

/-! ## Both ends -/

section Ends

variable [DecidableEq ν]

theorem pushback_spec (h : Represents ⟨sq, next⟩ l) (hn : node ∉ l) :
    ∃ s, pushback sq next node = .ok s ∧ Represents s (l ++ [node]) := by
  have hcount : sq.count + 1 = (l ++ [node]).length := by
    rw [List.length_append, List.length_singleton, show sq.count = l.length from h.count]
  have hlast : some node = (l ++ [node]).getLast? := List.getLast?_concat.symm
  unfold pushback
  rcases List.eq_nil_or_concat l with rfl | ⟨l, b, rfl⟩
  · rw [if_neg (by rw [show sq.count = 0 from h.count]; exact Nat.lt_irrefl 0)]
    refine ⟨_, rfl, ⟨rfl, ?_⟩, hlast, hcount⟩
    dsimp only
    rw [update_self]
    rfl
  · rw [List.concat_eq_append] at *
    have hback : sq.back = some b := by rw [show sq.back = _ from h.back, List.getLast?_concat]
    rw [if_pos (by rw [show sq.count = _ from h.count]; simp), hback]
    refine ⟨_, rfl, ?_, hlast, hcount⟩
    have hb : b ∉ l := fun hm => (List.nodup_append.1 h.nodup).2.2 b hm b (List.mem_singleton_self b) rfl
    have hne : node ≠ b := by
      rintro rfl
      exact hn (List.mem_append_right _ (List.mem_singleton_self _))
    rw [seg_append]
    refine ⟨some node, ((seg_update hn).2 h.linked).relink hb _, rfl, ?_⟩
    dsimp only
    rw [update_of_ne hne, update_self]
    rfl

omit [DecidableEq ν] in
theorem popfront_spec (h : Represents ⟨sq, next⟩ l) :
    ∃ s, popfront sq next = .ok (s, l.head?) ∧ Represents s l.tail := by
  have hc : sq.count = l.length := h.count
  unfold popfront
  cases l with
  | nil =>
    rw [if_pos (show sq.count = 0 from hc)]
    exact ⟨_, rfl, h⟩
  | cons a l =>
    obtain ⟨hfront, hrest⟩ := h.linked
    dsimp only at hfront hrest
    rw [if_neg (by rw [hc]; exact Nat.succ_ne_zero _), hfront]
    refine ⟨_, rfl, hrest, ?_, ?_⟩
    · -- only the last node takes the back with it
      have hb : sq.back = (a :: l).getLast? := h.back
      dsimp only
      rw [hc, List.length_cons, Nat.add_sub_cancel, hb]
      cases l with
      | nil => rfl
      | cons b l => rfl
    · dsimp only
      rw [hc]
      rfl

theorem pushfront_spec (h : Represents ⟨sq, next⟩ l) (hn : node ∉ l) :
    Represents (pushfront sq next node) (node :: l) := by
  have hc : sq.count = l.length := h.count
  refine ⟨⟨rfl, ?_⟩, ?_, congrArg (· + 1) hc⟩
  · unfold pushfront
    dsimp only
    rw [update_self, seg_update hn]
    exact h.linked
  · have hb : sq.back = l.getLast? := h.back
    unfold pushfront
    dsimp only
    rw [hc, hb]
    cases l with
    | nil => rfl
    | cons b l => rfl

/-! ## Anywhere in a staq -/

theorem putAfter_spec (h : Represents ⟨sq, next⟩ (l₁ ++ x :: l₂)) (hn : node ∉ l₁ ++ x :: l₂) :
    ∃ s, putAfter sq next x node = .ok s ∧ Represents s (l₁ ++ x :: node :: l₂) := by
  have hc : sq.count = (l₁ ++ x :: l₂).length := h.count
  have hb : sq.back = (l₁ ++ x :: l₂).getLast? := h.back
  have hnodup := h.nodup
  have hlinked := seg_append_cons.1 h.linked
  simp only [List.mem_append, List.mem_cons, not_or] at hn
  obtain ⟨hn₁, hnx, hn₂⟩ := hn
  simp only [List.nodup_append, List.nodup_cons, List.mem_cons] at hnodup
  obtain ⟨-, ⟨hx₂, -⟩, hdis⟩ := hnodup
  have hx₁ : x ∉ l₁ := fun hm => hdis x hm x (.inl rfl) rfl
  unfold putAfter
  rw [if_neg (by rw [hc]; simp)]
  refine ⟨_, rfl, ?_, ?_, ?_⟩
  · dsimp only
    rw [seg_append_cons, update_self, seg_update hx₁, seg_update hn₁, seg_cons, update_of_ne hnx, update_self,
      seg_update hx₂, seg_update hn₂]
    exact ⟨hlinked.1, rfl, hlinked.2⟩
  · dsimp only
    rw [hb]
    cases l₂ with
    | nil => simp
    | cons c l₂ =>
      -- the last node is behind `x`
      have hne : some x ≠ (l₁ ++ x :: c :: l₂).getLast? := by
        rw [List.getLast?_append_cons, List.getLast?_cons_cons]
        intro he
        exact hx₂ (List.mem_of_mem_getLast? he.symm)
      rw [if_neg hne]
      simp [List.getLast?_cons_cons]
  · dsimp only
    rw [hc]
    simp only [List.length_append, List.length_cons]
    omega

end Ends

/-! ## The order of the nodes -/

theorem findNthLoop_seg {p q : Option ν} (h : Seg next p (l₁ ++ a :: l₂) q) :
    findNthLoop next l₁.length p = .ok a := by
  induction l₁ generalizing p with
  | nil =>
    obtain ⟨rfl, -⟩ := h
    rfl
  | cons b l₁ ih =>
    obtain ⟨rfl, h⟩ := h
    rw [List.length_cons, findNthLoop, nonNull_some_bind]
    obtain ⟨c, hc⟩ : ∃ c, next b = some c := by
      cases l₁ with
      | nil => exact ⟨a, h.1⟩
      | cons c l₁ => exact ⟨c, h.1⟩
    rw [hc, nonNull_some_bind, ← hc]
    exact ih h

theorem newBack_spec (h : Represents ⟨sq, next⟩ (l₁ ++ a :: l₂)) : newBack sq next (l₁.length + 1) = .ok a := by
  have hc : sq.count = (l₁ ++ a :: l₂).length := h.count
  have hwalk := findNthLoop_seg h.linked
  unfold newBack findNth
  simp only [List.length_append, List.length_cons] at hc
  dsimp only
  rw [Nat.add_sub_cancel, Nat.mod_eq_of_lt (by omega)]
  split_ifs with hzero hbad
  · rw [hzero] at hwalk
    exact hwalk
  · omega
  · exact hwalk

variable [DecidableEq ν]

/-- The nodes up to `a` moved behind the last node. -/
theorem rotate_split (h : Represents ⟨sq, next⟩ (l₁ ++ [a] ++ (l₂ ++ [b]))) :
    Represents ⟨{ sq with back := some a, front := update next b sq.front a },
      update (update next b sq.front) a none⟩ (l₂ ++ [b] ++ (l₁ ++ [a])) := by
  have hn := h.nodup
  have hab : a ≠ b := by
    rintro rfl
    simp [List.nodup_append] at hn
  refine ⟨?_, ?_, ?_⟩
  · dsimp only
    rw [update_of_ne hab]
    exact h.linked.exchange hn
  · rw [← List.append_assoc, List.getLast?_concat]
  · rw [List.length_append, Nat.add_comm, ← List.length_append]
    exact h.count

/-- A rotation by less than the length. -/
theorem rotate_by {k : ℕ} (h : Represents ⟨sq, next⟩ l) (hk : 0 < k) (hkl : k < l.length) :
    ∃ pre back, newBack sq next k = .ok pre ∧ sq.back = some back ∧
      Represents ⟨{ sq with back := some pre, front := update next back sq.front pre },
        update (update next back sq.front) pre none⟩ (l.drop k ++ l.take k) := by
  obtain ⟨l₁, a, hl₁⟩ := (List.eq_nil_or_concat (l.take k)).resolve_left
    (List.ne_nil_of_length_pos (by rw [List.length_take_of_le hkl.le]; exact hk))
  obtain ⟨l₂, b, hl₂⟩ := (List.eq_nil_or_concat (l.drop k)).resolve_left
    (List.ne_nil_of_length_pos (by rw [List.length_drop]; omega))
  rw [List.concat_eq_append] at hl₁ hl₂
  have hl : l = l₁ ++ [a] ++ (l₂ ++ [b]) := by rw [← hl₁, ← hl₂, List.take_append_drop]
  have hlen : l₁.length + 1 = k := by
    have := congrArg List.length hl₁
    rw [List.length_take_of_le hkl.le, List.length_append, List.length_singleton] at this
    exact this.symm
  rw [hl₁, hl₂]
  rw [hl] at h
  refine ⟨a, b, ?_, ?_, rotate_split h⟩
  · rw [← hlen]
    rw [List.append_assoc, List.singleton_append] at h
    exact newBack_spec h
  · rw [show sq.back = _ from h.back, ← List.append_assoc, List.getLast?_concat]

theorem rotate_spec (h : Represents ⟨sq, next⟩ l) {dir : ℤ} (hdir : dir = 1 ∨ dir = -1) (n : ℕ) :
    ∃ s, rotate sq next dir n = .ok s ∧ Represents s (if dir = 1 then l.rotateLeft n else l.rotateRight n) := by
  have hc : sq.count = l.length := h.count
  unfold rotate List.rotateLeft List.rotateRight
  dsimp only
  rw [if_neg (by omega)]
  by_cases hshort : l.length ≤ 1
  · rw [if_pos (show sq.count < 2 ∨ n = 0 by omega), if_pos hshort, if_pos hshort, ite_self]
    exact ⟨_, rfl, h⟩
  · have hlt : n % l.length < l.length := Nat.mod_lt _ (by omega)
    have hmod : n % sq.count = n % l.length := by rw [hc]
    rw [if_neg hshort, if_neg hshort, hmod]
    by_cases hzero : n % l.length = 0
    · -- a whole number of turns
      have hstay : Represents ⟨sq, next⟩ (if dir = 1 then l.drop (n % l.length) ++ l.take (n % l.length)
          else l.drop (l.length - n % l.length) ++ l.take (l.length - n % l.length)) := by
        rw [hzero, Nat.sub_zero, List.drop_length, List.take_length]
        simpa using h
      split_ifs at hstay ⊢
      · exact ⟨_, rfl, hstay⟩
      · exact ⟨_, rfl, hstay⟩
      · exact ⟨_, rfl, hstay⟩
      · exact ⟨_, rfl, hstay⟩
    · have hn : n ≠ 0 := by
        rintro rfl
        exact hzero (Nat.zero_mod _)
      rw [if_neg (show ¬(sq.count < 2 ∨ n = 0) by omega), if_neg hzero]
      rcases hdir with rfl | rfl
      · obtain ⟨pre, back, hpre, hback, hrep⟩ := rotate_by h (Nat.pos_of_ne_zero hzero) hlt
        rw [if_neg (by decide), if_pos rfl, hpre, hback]
        exact ⟨_, rfl, hrep⟩
      · obtain ⟨pre, back, hpre, hback, hrep⟩ := rotate_by (k := l.length - n % l.length) h (by omega) (by omega)
        have hk : sq.count - n % l.length = l.length - n % l.length := by rw [hc]
        rw [if_pos (by decide), if_neg (by decide), hk, hpre, hback]
        exact ⟨_, rfl, hrep⟩

/-- The loop of `Staq_upend`, when the nodes of `done` are turned round and stand before the first one. -/
theorem upendLoop_spec {rest done : List ν} {c : ν} {rounds : ℕ}
    (hdone : Seg next (some c) (done ++ [a]) (next a)) (hrest : Seg next (next a) rest none)
    (hn : (done ++ [a] ++ rest).Nodup) (hr : rest.length ≤ rounds) :
    ∃ next' b, upendLoop a rounds next c c = .ok (next', b) ∧
      Seg next' (some b) (rest.reverse ++ (done ++ [a])) none := by
  induction rest generalizing next done c rounds with
  | nil =>
    have hnone : next a = none := hrest
    refine ⟨next, c, ?_, ?_⟩
    · cases rounds <;> simp only [upendLoop, hnone]
    · rwa [hnone] at hdone
  | cons b rest ih =>
    obtain ⟨hnext, hrest⟩ := hrest
    obtain ⟨rounds, rfl⟩ : ∃ r, rounds = r + 1 := ⟨rounds - 1, by simp only [List.length_cons] at hr; omega⟩
    have hperm : (done ++ [a] ++ b :: rest).Perm (b :: done ++ [a] ++ rest) := List.perm_middle
    have hn₁ := hperm.nodup_iff.1 hn
    simp only [List.nodup_append, List.nodup_cons, List.mem_append, List.mem_cons] at hn
    obtain ⟨⟨-, -, ha⟩, ⟨hbrest, -⟩, hdis⟩ := hn
    have hadone : a ∉ done := fun hm => ha a hm a (.inl rfl) rfl
    have hab : a ≠ b := hdis a (.inr (.inl rfl)) b (.inl rfl)
    have harest : a ∉ rest := fun hm => hdis a (.inr (.inl rfl)) a (.inr hm) rfl
    have hbdone : b ∉ done ++ [a] := by
      intro hm
      rcases List.mem_append.1 hm with hm | hm
      · exact hdis b (.inl hm) b (.inl rfl) rfl
      · exact hab (List.mem_singleton.1 hm).symm
    -- `b` is taken out behind `a` and put before `c`
    have ha₁ : update (update next a (next b)) b (some c) a = next b := by rw [update_of_ne hab, update_self]
    have hdone₁ : Seg (update (update next a (next b)) b (some c)) (some b) (b :: done ++ [a])
        (update (update next a (next b)) b (some c) a) := by
      rw [List.cons_append, seg_cons, update_self, ha₁, seg_update hbdone]
      exact ⟨rfl, hdone.relink hadone _⟩
    have hrest₁ : Seg (update (update next a (next b)) b (some c)) (update (update next a (next b)) b (some c) a) rest
        none := by
      rwa [ha₁, seg_update hbrest, seg_update harest]
    obtain ⟨next', b', hloop, hseg⟩ := ih hdone₁ hrest₁ hn₁ (Nat.le_of_succ_le_succ hr)
    refine ⟨next', b', ?_, ?_⟩
    · rw [upendLoop, hnext]
      exact hloop
    · simpa using hseg

theorem upend_spec {rounds : ℕ} (h : Represents ⟨sq, next⟩ l) (hr : l.length ≤ rounds) :
    ∃ s, upend rounds sq next = .ok s ∧ Represents s l.reverse := by
  have hc : sq.count = l.length := h.count
  unfold upend
  rw [hc]
  match l with
  | [] => exact ⟨_, rfl, h⟩
  | [a] => exact ⟨_, rfl, h⟩
  | a :: c :: l =>
    obtain ⟨hfront, hrest⟩ := h.linked
    dsimp only at hfront hrest
    rw [List.length_cons] at hr
    obtain ⟨next', b, hloop, hseg⟩ := upendLoop_spec
      (show Seg next (some a) ([] ++ [a]) (next a) from ⟨rfl, rfl⟩) hrest h.nodup (Nat.le_of_lt hr)
    rw [if_neg (by simp only [List.length_cons]; omega), hfront]
    simp only [hloop]
    refine ⟨_, rfl, ?_, ?_, ?_⟩
    · rw [List.reverse_cons]
      exact hseg
    · rw [List.reverse_cons, List.getLast?_concat]
    · rw [List.length_reverse]

/-! ## Every run -/

/-- The calls on a sequence. -/
def Call.onSeq (c : Call ν) (l : List ν) : Except Fault (List ν × Option ν) :=
  match c with
  | .pushback node => .ok (l ++ [node], none)
  | .pushfront node => .ok (node :: l, none)
  | .popfront => .ok (l.tail, l.head?)
  | .putAfter x node => .ok (l.insertIdx (l.idxOf x + 1) node, none)
  | .rotate dir n => .ok (if dir = 1 then l.rotateLeft n else l.rotateRight n, none)
  | .upend => .ok (l.reverse, none)

/-- What a caller has to see to: the node after which one is put is in the staq, and a node to be put in is not. -/
def Admissible (c : Call ν) (l : List ν) : Prop :=
  match c with
  | .pushback node => node ∉ l
  | .pushfront node => node ∉ l
  | .putAfter x node => x ∈ l ∧ node ∉ l
  | .rotate dir _ => dir = 1 ∨ dir = -1
  | _ => True

/-- The staq is well formed, and is the sequence `l`. -/
structure WellFormed (s : State ν) (l : List ν) : Prop where
  linked : Chain s.next s.staq.front l
  ends : s.staq.back = l.getLast?
  last : ∀ a, s.staq.back = some a → s.next a = none
  empty : (s.staq.front = none ↔ l = []) ∧ (s.staq.back = none ↔ l = [])
  count : s.staq.count = l.length

omit [DecidableEq ν] in
theorem Represents.wellFormed {s : State ν} (h : Represents s l) : WellFormed s l := by
  refine ⟨chain_iff_seg.2 h.linked, h.back, ?_, ⟨?_, ?_⟩, h.count⟩
  · intro a ha
    obtain ⟨l, rfl⟩ := List.getLast?_eq_some_iff.1 (h.back.symm.trans ha)
    exact (seg_append_cons.1 h.linked).2
  · rw [h.linked.start, Option.or_none, List.head?_eq_none_iff]
  · rw [h.back, List.getLast?_eq_none_iff]

omit [DecidableEq ν] in
theorem WellFormed.represents {s : State ν} (h : WellFormed s l) : Represents s l :=
  ⟨chain_iff_seg.1 h.linked, h.ends, h.count⟩

/-- **One call.** -/
theorem exec_onSeq {rounds : ℕ} {s : State ν} {c : Call ν} (h : Represents s l) (hr : l.length ≤ rounds)
    (hadm : Admissible c l) :
    ∃ s' r l', exec rounds c s = .ok (s', r) ∧ c.onSeq l = .ok (l', r) ∧ Represents s' l' ∧
      l'.length ≤ l.length + 1 := by
  have hvoid : ∀ {r : Except Fault (State ν)} {l' : List ν}, (∃ s', r = .ok s' ∧ Represents s' l') →
      ∃ s', r.map (fun s => (s, (none : Option ν))) = .ok (s', none) ∧ Represents s' l' := by
    rintro r l' ⟨s', rfl, h⟩
    exact ⟨s', rfl, h⟩
  cases c with
  | pushback node =>
    obtain ⟨s', hs, hrep⟩ := hvoid (pushback_spec h hadm)
    exact ⟨s', _, _, hs, rfl, hrep, by simp⟩
  | pushfront node => exact ⟨_, _, _, rfl, rfl, pushfront_spec h hadm, le_rfl⟩
  | popfront =>
    obtain ⟨s', hs, hrep⟩ := popfront_spec h
    exact ⟨s', _, _, hs, rfl, hrep, by rw [List.length_tail]; omega⟩
  | putAfter x node =>
    obtain ⟨l₁, l₂, rfl, hx⟩ := split_of_mem h.nodup hadm.1
    obtain ⟨s', hs, hrep⟩ := hvoid (putAfter_spec h hadm.2)
    refine ⟨s', _, _, hs, ?_, hrep, ?_⟩
    · have hins := insertIdx_split (l₁ ++ [x]) l₂ node
      simp only [List.append_assoc, List.singleton_append, List.length_append, List.length_singleton] at hins
      simp only [Call.onSeq, idxOf_split hx, hins]
    · simp only [List.length_append, List.length_cons]
      omega
  | rotate dir n =>
    obtain ⟨s', hs, hrep⟩ := hvoid (rotate_spec h hadm n)
    refine ⟨s', _, _, hs, rfl, hrep, ?_⟩
    split_ifs
    · rw [length_rotateLeft]
      omega
    · rw [length_rotateRight]
      omega
  | upend =>
    obtain ⟨s', hs, hrep⟩ := hvoid (upend_spec h hr)
    exact ⟨s', _, _, hs, rfl, hrep, by rw [List.length_reverse]; omega⟩

/-- **A staq does what a sequence does.** The calls of a run are answered alike, and after every one of them the staq
is well formed. -/
theorem does_as_sequence {rounds : ℕ} {s : State ν} (h : WellFormed s l) (cs : List (Call ν))
    (hr : l.length + cs.length ≤ rounds) (hadm : Meets Call.onSeq Admissible cs l) :
    Simulates (exec rounds) (fun c l r l' => c.onSeq l = .ok (l', r)) WellFormed cs s l := by
  refine simulates_of_spec (fun n s l' => Represents s l' ∧ l'.length ≤ l.length + n) ?_ ?_
    ⟨h.represents, le_rfl⟩ hadm
  · intro n c s l' hn ⟨hrep, hlen⟩ hok
    have hle : l'.length ≤ rounds := by omega
    obtain ⟨s', r, l'', hs, hseq, hrep', hlen'⟩ := exec_onSeq hrep hle hok
    exact ⟨s', r, l'', hs, hseq, hrep', by omega⟩
  · intro n s l' hrep
    exact hrep.1.wellFormed

theorem does_as_sequence_five :
    Simulates (exec 5) (fun c l r l' => c.onSeq l = .ok (l', r)) WellFormed
      [.pushback 3, .pushfront 2, .putAfter 3 7, .rotate (-1) 4, .upend]
      (⟨initializer false, fun _ => none⟩ : State ℕ) [] :=
  does_as_sequence (represents_initializer _ _).wellFormed [.pushback 3, .pushfront 2, .putAfter 3 7, .rotate (-1) 4, .upend]
    (by decide) (by simp [Meets, Admissible, Call.onSeq])

/-! ## Loops and clearing, and the memory of others -/

section Shared

variable {γ : Type} {rounds : ℕ} {s : State ν}

/-- `Staq_remove`, with the node taken out.  The memory of a destroyed node holds `junk`. -/
def remove (junk : ν → Option ν) (s : State ν) (freeContainer : Bool) : Except Fault (State ν × Option ν) := do
  let (s, node) ← popfront s.staq s.next
  match node with
  | none => pure (s, none)
  | some node =>
    if freeContainer then
      if s.staq.dtor then pure (⟨s.staq, update s.next node (junk node)⟩, some node)
      else .error (.thrown .misconfigured)
    else pure (s, some node)

/-- The loop of `Staq_clear`, with the nodes destroyed so far. -/
def clearLoop (junk : ν → Option ν) : ℕ → State ν → List ν → Except Fault (State ν × List ν)
  | 0, s, destroyed => do
    let (s, node) ← remove junk s true
    match node with
    | none => pure (s, destroyed)
    | some _ => .error .rounds
  | rounds + 1, s, destroyed => do
    let (s, node) ← remove junk s true
    match node with
    | none => pure (s, destroyed)
    | some node => clearLoop junk rounds s (destroyed ++ [node])

/-- `Staq_clear`. -/
def clear (junk : ν → Option ν) (rounds : ℕ) (s : State ν) (freeContainers : Bool) :
    Except Fault (State ν × List ν) := do
  let (s, destroyed) ← if freeContainers then clearLoop junk rounds s [] else pure (s, [])
  pure (⟨initializer s.staq.dtor, s.next⟩, destroyed)

/-- The loop of `Staq_foreach`; the two pointers are `sqn_tmp` and `sqn_tmp_next`, and `γ` is all that the body has
besides the staq. -/
def foreachLoop (body : ν → γ × State ν → Except Fault (γ × State ν)) :
    ℕ → Option ν → Option ν → γ × State ν → Except Fault (γ × State ν)
  | _, none, _, s => .ok s
  | 0, some _, _, _ => .error .rounds
  | rounds + 1, some i, next, s => do
    let s ← body i s
    foreachLoop body rounds next (next.bind s.2.next) s

/-- `Staq_foreach`. -/
def foreach (body : ν → γ × State ν → Except Fault (γ × State ν)) (rounds : ℕ) (s : γ × State ν) :
    Except Fault (γ × State ν) :=
  foreachLoop body rounds s.2.staq.front (s.2.staq.front.bind s.2.next) s

/-- A body that puts nodes after the one it is at, with `Staq_putafter`. -/
def execPlan (plan : ν → γ → γ × List ν) (i : ν) (s : γ × State ν) : Except Fault (γ × State ν) := do
  let t ← (plan i s.1).2.foldlM (fun t node => putAfter t.staq t.next i node) s.2
  pure ((plan i s.1).1, t)

/-- What the nodes of a sequence become. -/
def planned (plan : ν → γ → γ × List ν) : List ν → γ → γ × List ν
  | [], g => (g, [])
  | i :: l, g =>
    let (g', l') := planned plan l (plan i g).1
    (g', i :: ((plan i g).2.reverse ++ l'))

/-- The nodes that are put in are new; `done` is what the nodes before have become. -/
def PlanOk (plan : ν → γ → γ × List ν) : List ν → List ν → γ → Prop
  | _, [], _ => True
  | done, i :: l, g =>
    (plan i g).2.Nodup ∧ (∀ b ∈ (plan i g).2, b ∉ done ++ i :: l) ∧
      PlanOk plan (done ++ i :: (plan i g).2.reverse) l (plan i g).1

theorem remove_spec (junk : ν → Option ν) {freeContainer : Bool} (h : Represents s l)
    (hd : freeContainer = true → s.staq.dtor = true) : ∃ s', remove junk s freeContainer = .ok (s', l.head?) ∧
      Represents s' l.tail ∧ s'.staq.dtor = s.staq.dtor := by
  obtain ⟨s₁, hpop, hrep⟩ := popfront_spec h
  have hdtor : s₁.staq.dtor = s.staq.dtor := by
    unfold popfront at hpop
    split at hpop
    · obtain rfl := (Prod.mk.inj (Except.ok.inj hpop)).1
      rfl
    · cases hf : s.staq.front with
      | none => rw [hf] at hpop; cases hpop
      | some a =>
        rw [hf] at hpop
        obtain rfl := (Prod.mk.inj (Except.ok.inj hpop)).1
        rfl
  unfold remove
  simp only [hpop, bind, Except.bind, pure, Except.pure]
  cases l with
  | nil => exact ⟨s₁, rfl, hrep, hdtor⟩
  | cons a l =>
    cases freeContainer with
    | false => exact ⟨s₁, rfl, hrep, hdtor⟩
    | true =>
      have ha : a ∉ l := (List.nodup_cons.1 h.nodup).1
      refine ⟨⟨s₁.staq, update s₁.next a (junk a)⟩, ?_, ⟨(seg_update ha).2 hrep.linked, hrep.back, hrep.count⟩, hdtor⟩
      simp only [List.head?_cons]
      rw [if_pos trivial, if_pos (hdtor.trans (hd rfl))]

/-- **A staq is destroyed** from front to back. -/
theorem clearLoop_spec (junk : ν → Option ν) (h : Represents s l) (hr : l.length ≤ rounds) (hd : s.staq.dtor = true)
    (destroyed : List ν) : ∃ s', clearLoop junk rounds s destroyed = .ok (s', destroyed ++ l) ∧
      s'.staq.dtor = s.staq.dtor := by
  induction l generalizing s rounds destroyed with
  | nil =>
    obtain ⟨s', hremove, -, hd'⟩ := remove_spec junk h fun _ => hd
    refine ⟨s', ?_, hd'⟩
    rw [List.append_nil]
    cases rounds <;> rw [clearLoop, hremove] <;> rfl
  | cons a l ih =>
    obtain ⟨rounds, rfl⟩ : ∃ k, rounds = k + 1 := ⟨rounds - 1, by rw [List.length_cons] at hr; omega⟩
    obtain ⟨s₁, hremove, hrep, hd₁⟩ := remove_spec junk h fun _ => hd
    obtain ⟨s', hloop, hd'⟩ := ih hrep (Nat.le_of_succ_le_succ hr) (hd₁.trans hd) (destroyed ++ [a])
    refine ⟨s', ?_, hd'.trans hd₁⟩
    rw [clearLoop, hremove]
    rw [List.append_assoc] at hloop
    exact hloop

theorem clear_spec (junk : ν → Option ν) {freeContainers : Bool} (h : Represents s l) (hr : l.length ≤ rounds)
    (hd : freeContainers = true → s.staq.dtor = true) : ∃ s',
      clear junk rounds s freeContainers = .ok (s', if freeContainers then l else []) ∧ Represents s' [] := by
  cases freeContainers with
  | false => exact ⟨_, rfl, represents_initializer _ _⟩
  | true =>
    obtain ⟨s', hloop, -⟩ := clearLoop_spec junk h hr (hd rfl) []
    refine ⟨⟨initializer s'.staq.dtor, s'.next⟩, ?_, represents_initializer _ _⟩
    unfold clear
    rw [if_pos rfl, if_pos rfl, hloop]
    rfl

/-- Nodes put after one another stand in reverse. -/
theorem putAfters_spec (bs as : List ν) {i : ν} (h : Represents s (l₁ ++ i :: (as ++ l₂))) (hn : bs.Nodup)
    (hnew : ∀ b ∈ bs, b ∉ l₁ ++ i :: (as ++ l₂)) :
    ∃ s', bs.foldlM (fun t node => putAfter t.staq t.next i node) s = .ok s' ∧
      Represents s' (l₁ ++ i :: (bs.reverse ++ as ++ l₂)) := by
  induction bs generalizing s as with
  | nil => exact ⟨s, rfl, h⟩
  | cons b bs ih =>
    obtain ⟨hb, hn⟩ := List.nodup_cons.1 hn
    obtain ⟨s₁, hput, hrep⟩ := putAfter_spec h (hnew b (List.mem_cons_self ..))
    obtain ⟨s', hrest, hrep'⟩ := ih (b :: as) hrep hn fun c hc => by
      have hold := hnew c (List.mem_cons_of_mem _ hc)
      have hcb : c ≠ b := fun he => hb (he ▸ hc)
      simpa [hcb] using hold
    refine ⟨s', ?_, ?_⟩
    · simp only [List.foldlM_cons, hput, bind, Except.bind]
      exact hrest
    · simpa using hrep'

omit [DecidableEq ν] in
/-- The pointer to the next node is read before the body is at the node. -/
theorem foreachLoop_eq (body : ν → γ × State ν → Except Fault (γ × State ν)) (rounds : ℕ) (p : Option ν)
    (s : γ × State ν) : foreachLoop body rounds p (p.bind s.2.next) s = walk (fun s => s.2.next) body .rounds rounds p s := by
  induction rounds generalizing p s with
  | zero => cases p <;> rfl
  | succ rounds ih =>
    cases p with
    | none => rfl
    | some i =>
      rw [foreachLoop, walk]
      exact congrArg (body i s >>= ·) (funext fun s' => ih _ s')

/-- **The body is given every node once**, from front to back. -/
theorem foreach_spec (plan : ν → γ → γ × List ν) {g : γ} (h : Represents s l) (hr : l.length ≤ rounds)
    (hok : PlanOk plan [] l g) : ∃ s', foreach (execPlan plan) rounds (g, s) = .ok ((planned plan l g).1, s') ∧
      Represents s' (planned plan l g).2 := by
  -- `done` is what the nodes that the body was given have become
  let P : List ν → γ × State ν → Prop := fun rest t => ∃ done, Represents t.2 (done ++ rest) ∧
    PlanOk plan done rest t.1 ∧ (planned plan rest t.1).1 = (planned plan l g).1 ∧
    done ++ (planned plan rest t.1).2 = (planned plan l g).2
  have hnext : ∀ a rest t, P (a :: rest) t → t.2.next a = rest.head? := by
    rintro a rest t ⟨done, hrep, -⟩
    have hstart := (seg_append_cons.1 hrep.linked).2.start
    rwa [Option.or_none] at hstart
  have hbody : ∀ a rest t, P (a :: rest) t → ∃ t', execPlan plan a t = .ok t' ∧ P rest t' := by
    rintro a rest ⟨g₁, t⟩ ⟨done, hrep, ⟨hn, hnew, hplan⟩, hg, hall⟩
    obtain ⟨t', ht, hrep'⟩ := putAfters_spec (plan a g₁).2 [] hrep hn hnew
    refine ⟨((plan a g₁).1, t'), ?_, done ++ a :: (plan a g₁).2.reverse, ?_, hplan, hg, ?_⟩
    · simp only [execPlan, ht, bind, Except.bind, pure, Except.pure]
    · simpa using hrep'
    · rw [← hall, planned]
      simp
  have hstart : P l (g, s) := ⟨[], h, hok, rfl, rfl⟩
  obtain ⟨⟨g', s'⟩, hwalk, done, hrep, -, hg, hall⟩ := walk_spec Fault.rounds hnext hbody hstart hr
  simp only [planned, List.append_nil] at hg hall hrep
  obtain rfl := hg
  obtain rfl := hall
  have hfront : s.staq.front = l.head? := by rw [h.linked.start, Option.or_none]
  refine ⟨s', ?_, hrep⟩
  rw [foreach, foreachLoop_eq, hfront]
  exact hwalk

/-- What happens to a staq: a call, a removal, a loop, its clearing, or something to the memory of other nodes. -/
inductive Event (ν γ : Type)
  | call (c : Call ν)
  | remove (junk : ν → Option ν) (freeContainer : Bool)
  | foreach (plan : ν → γ → γ × List ν) (g : γ)
  | clear (junk : ν → Option ν) (freeContainers : Bool)
  | others (next : ν → Option ν)

/-- What is seen of it. -/
inductive Seen (ν γ : Type)
  | answer (node : Option ν)
  | left (g : γ)
  | destroyed (nodes : List ν)
  | nothing

def execEvent (rounds : ℕ) (e : Event ν γ) (s : State ν) : Except Fault (State ν × Seen ν γ) :=
  match e with
  | .call c => (exec rounds c s).map fun p => (p.1, .answer p.2)
  | .remove junk freeContainer => (remove junk s freeContainer).map fun p => (p.1, .answer p.2)
  | .foreach plan g => (foreach (execPlan plan) rounds (g, s)).map fun p => (p.2, .left p.1)
  | .clear junk freeContainers => (clear junk rounds s freeContainers).map fun p => (p.1, .destroyed p.2)
  | .others next => .ok (⟨s.staq, next⟩, .nothing)

/-- The same on a sequence. -/
def Event.onSeq (e : Event ν γ) (l : List ν) : Except Fault (List ν × Seen ν γ) :=
  match e with
  | .call c => (c.onSeq l).map fun p => (p.1, .answer p.2)
  | .remove _ _ => .ok (l.tail, .answer l.head?)
  | .foreach plan g => .ok ((planned plan l g).2, .left (planned plan l g).1)
  | .clear _ freeContainers => .ok ([], .destroyed (if freeContainers then l else []))
  | .others _ => .ok (l, .nothing)

/-- What the caller, the bodies of the loops and the other users of the memory have to see to. -/
def AllowedOn (l : List ν) (s : State ν) : Event ν γ → Prop
  | .call c => Admissible c l
  | .remove _ freeContainer => freeContainer = true → s.staq.dtor = true
  | .foreach plan g => PlanOk plan [] l g
  | .clear _ freeContainers => freeContainers = true → s.staq.dtor = true
  | .others next => ∀ a ∈ l, next a = s.next a

/-- It is seen to in the state `s`, whose nodes are no more than the rounds a loop may make. -/
def Allowed (rounds : ℕ) (e : Event ν γ) (s : State ν) : Prop :=
  ∀ l, WellFormed s l → l.length ≤ rounds ∧ AllowedOn l s e

/-- **One event.** -/
theorem execEvent_onSeq {e : Event ν γ} (h : Represents s l) (hr : l.length ≤ rounds) (he : AllowedOn l s e) :
    ∃ s' r l', execEvent rounds e s = .ok (s', r) ∧ e.onSeq l = .ok (l', r) ∧ Represents s' l' := by
  cases e with
  | call c =>
    obtain ⟨s', r, l', hs, hseq, hrep, -⟩ := exec_onSeq h hr he
    exact ⟨s', .answer r, l', by simp only [execEvent, hs]; rfl, by simp only [Event.onSeq, hseq]; rfl, hrep⟩
  | remove junk freeContainer =>
    obtain ⟨s', hs, hrep, -⟩ := remove_spec junk h he
    exact ⟨s', _, _, by simp only [execEvent, hs]; rfl, rfl, hrep⟩
  | foreach plan g =>
    obtain ⟨s', hs, hrep⟩ := foreach_spec plan h hr he
    exact ⟨s', _, _, by simp only [execEvent, hs]; rfl, rfl, hrep⟩
  | clear junk freeContainers =>
    obtain ⟨s', hs, hrep⟩ := clear_spec junk h hr he
    exact ⟨s', _, _, by simp only [execEvent, hs]; rfl, rfl, hrep⟩
  | others next => exact ⟨_, _, l, rfl, rfl, h.linked.congr he, h.back, h.count⟩

/-- **A staq shares the memory with others.**  Whatever is written to nodes that are not in the staq, be it that they
were destroyed, everything that happens to it is as on a sequence: the calls, the removals, the loops whose bodies put
nodes in, and the clearing. -/
theorem staq_shares_memory (dtor : Bool) (next : ν → Option ν) (es : List (Event ν γ))
    (hm : Meets (execEvent rounds) (Allowed rounds) es ⟨initializer dtor, next⟩) :
    Each (execEvent rounds) (fun e s r s' => ∃ l l', WellFormed s l ∧ WellFormed s' l' ∧ e.onSeq l = .ok (l', r)) es
      ⟨initializer dtor, next⟩ := by
  refine each_of_step (fun _ s => ∃ l, Represents s l) ?_ ⟨[], represents_initializer dtor next⟩ hm
  rintro n e s - ⟨l, hrep⟩ he
  obtain ⟨hr, hallowed⟩ := he l hrep.wellFormed
  obtain ⟨s', r, l', hs, hseq, hrep'⟩ := execEvent_onSeq hrep hr hallowed
  exact ⟨s', r, hs, ⟨l', hrep'⟩, l, l', hrep.wellFormed, hrep'.wellFormed, hseq⟩

omit [DecidableEq ν] in
theorem allowed_of_chain {e : Event ν γ} (hc : Chain s.next s.staq.front l) (hr : l.length ≤ rounds)
    (he : AllowedOn l s e) : Allowed rounds e s := by
  intro l' h
  obtain rfl := hc.unique h.linked
  exact ⟨hr, he⟩

theorem staq_shares_memory_five : Each (execEvent 3)
    (fun e s r s' => ∃ l l', WellFormed s l ∧ WellFormed s' l' ∧ e.onSeq l = .ok (l', r))
    ([.call (.pushback 1), .call (.pushback 2), .foreach (fun i n => (n + 1, if i = 1 then [3] else [])) 0,
      .remove (fun _ => some 1) true, .clear (fun _ => some 1) true] : List (Event ℕ ℕ))
    ⟨initializer true, fun _ => some 7⟩ := by
  refine staq_shares_memory _ _ _ (.cons (allowed_of_chain (l := []) rfl (by decide) List.not_mem_nil) rfl ?_)
  refine .cons (allowed_of_chain (l := [1]) ⟨rfl, rfl⟩ (by decide) (by decide : 2 ∉ [1])) rfl ?_
  refine .cons (allowed_of_chain (l := [1, 2]) ⟨rfl, rfl, rfl⟩ (by decide) ?_) rfl ?_
  · exact ⟨List.nodup_singleton 3, by decide, List.nodup_nil, by decide, trivial⟩
  refine .cons (allowed_of_chain (l := [1, 3, 2]) ⟨rfl, rfl, rfl, rfl⟩ (by decide) fun _ => rfl) rfl ?_
  exact .last (allowed_of_chain (l := [3, 2]) ⟨rfl, rfl, rfl⟩ (by decide) fun _ => rfl)

end Shared

end Libtarp.Staq
