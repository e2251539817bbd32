import Libtarp.Cancellation.Token
import Mathlib.Data.List.Nodup
import Mathlib.Data.List.Perm.Basic

/-!
# Runs with cancellation tokens

An id means a notifier only together with the token it was given by, and a copy that is given another token keeps
its id; a copy that is given another id forgets its notifier.

* `Careful`: the operations that neither give up an id in use nor leave a copy with the id of another's notifier.
* `World.Owned`: what follows for the ids that the copies remember.
* `cancel_perm`: then `cancel` invokes exactly the notifiers that the copies should have, in every state reached.
* `second_added`: a run in which it does not.
-/

namespace Libtarp.Cancellation

open Function Lib

variable {C S N : Type}

/-- The id that a copy remembers is that of a notifier of its token. -/
def World.InUse (w : World C S N) (copy : Copy S) : Prop :=
  ∃ source ∈ copy.token, ∃ observerId ∈ copy.observerId, observerId ∈ (w.token source).observers.map Prod.fst

instance (w : World C S N) (copy : Copy S) : Decidable (w.InUse copy) :=
  inferInstanceAs (Decidable (∃ source ∈ copy.token, ∃ observerId ∈ copy.observerId,
    observerId ∈ (w.token source).observers.map Prod.fst))

/-- No id in use is overwritten, no assignment and no construction leaves a copy with an id that is in use, and an id
that is given out is not remembered by another copy of the token. -/
def Careful (op : Op C S N) (w : World C S N) : Prop :=
  match op with
  | .fromSource _ source => ¬w.InUse { (Copy.initial : Copy S) with token := some source }
  | .copyConstruct _ rhs => ¬w.InUse { (Copy.initial : Copy S) with token := (w.copy rhs).token }
  | .copyAssign c rhs => (w.copy c).token = (w.copy rhs).token ∨
    ¬w.InUse (w.copy c) ∧ ¬w.InUse { w.copy c with token := (w.copy rhs).token }
  | .moveAssign c _ => ¬w.InUse (w.copy c)
  | .addNotifier c _ => ¬w.InUse (w.copy c) ∧ ∀ source ∈ (w.copy c).token, ∀ c' ∈ w.alive, c' ≠ c →
    (w.copy c').token = some source → (w.copy c').observerId ≠ some (((w.token source).lastId + 1) % 2 ^ 32)
  | .moveConstruct .. | .removeNotifier _ | .destroy _ => True

instance [DecidableEq C] [DecidableEq S] (op : Op C S N) (w : World C S N) : Decidable (Careful op w) :=
  match op with
  | .fromSource .. | .copyConstruct .. | .moveAssign .. => instDecidableNot
  | .copyAssign .. => instDecidableOr
  | .addNotifier .. => instDecidableAnd
  | .moveConstruct .. | .removeNotifier _ | .destroy _ => .isTrue trivial

/-- The id that a copy remembers is that of its notifier; with no notifier, it is nobody's in its token. -/
structure World.Owned (w : World C S N) (c : C) : Prop where
  own : ∀ e, w.wanted c = some e → (w.copy c).observerId = some e.1 ∧ ∃ source, (w.copy c).token = some source
  nobody : w.wanted c = none → ¬w.InUse (w.copy c)

/-- The copy refers to the token of the source, and should have the notifier there. -/
def World.Has (w : World C S N) (c : C) (source : S) (e : ℕ × N) : Prop :=
  (w.copy c).token = some source ∧ w.wanted c = some e

/-- The tokens have the notifiers that the copies should have. -/
structure World.Kept (w : World C S N) : Prop where
  nodup : w.alive.Nodup
  dead : ∀ c, c ∉ w.alive → w.wanted c = none
  canceled : ∀ source, (w.token source).canceled = false
  ids : ∀ source, ((w.token source).observers.map Prod.fst).Nodup
  registered : ∀ c source e, w.Has c source e → e ∈ (w.token source).observers
  owned : ∀ source, ∀ e ∈ (w.token source).observers, ∃ c, w.Has c source e
  distinct : ∀ c c' source e, w.Has c source e → w.Has c' source e → c = c'

/-- Under the invariant `cancel` invokes what it should. -/
theorem World.Kept.invoked_perm [DecidableEq S] {w : World C S N} (h : w.Kept) (source : S) :
    (cancel (w.token source)).2.Perm (w.expected source) := by
  let entry : C → Option (ℕ × N) := fun c => if (w.copy c).token = some source then w.wanted c else none
  have hentry : ∀ c e, entry c = some e ↔ w.Has c source e := fun c e => Option.ite_none_right_eq_some
  have hexpected : w.expected source = (w.alive.filterMap entry).map Prod.snd := by
    unfold World.expected
    rw [List.map_filterMap]
    refine List.filterMap_congr fun c _ => ?_
    dsimp only [entry]
    split_ifs <;> rfl
  unfold cancel
  rw [h.canceled source, hexpected]
  refine List.Perm.map Prod.snd ((List.perm_ext_iff_of_nodup (h.ids source).of_map ?_).2 fun e => ?_)
  · refine h.nodup.filterMap fun c c' e hc hc' => ?_
    exact h.distinct c c' source e ((hentry c e).1 hc) ((hentry c' e).1 hc')
  · rw [List.mem_filterMap]
    constructor
    · intro he
      obtain ⟨c, hc⟩ := h.owned source e he
      refine ⟨c, ?_, (hentry c e).2 hc⟩
      by_contra hdead
      rw [World.Has, h.dead c hdead] at hc
      cases hc.2
    · rintro ⟨c, -, hc⟩
      exact h.registered c source e ((hentry c e).1 hc)

/-- Two notifiers of a token have different ids. -/
theorem World.Kept.eq_of_id {w : World C S N} (h : w.Kept) {source : S} {e e' : ℕ × N}
    (he : e ∈ (w.token source).observers) (he' : e' ∈ (w.token source).observers) (hid : e.1 = e'.1) : e = e' :=
  List.inj_on_of_nodup_map (h.ids source) he he' hid

/-- Operations that leave the tokens alone: what a copy has afterwards, `g` of it had before. -/
theorem World.Kept.transfer {w w' : World C S N} (h : w.Kept) (g : C → C) (htoken : w'.token = w.token)
    (hnodup : w'.alive.Nodup) (hdead : ∀ c, c ∉ w'.alive → w'.wanted c = none)
    (hback : ∀ c source e, w'.Has c source e → w.Has (g c) source e)
    (hinj : ∀ c c' source e, w'.Has c source e → w'.Has c' source e → g c = g c' → c = c')
    (hforth : ∀ c source e, w.Has c source e → ∃ c', w'.Has c' source e) : w'.Kept where
  nodup := hnodup
  dead := hdead
  canceled := by rw [htoken]; exact h.canceled
  ids := by rw [htoken]; exact h.ids
  registered c source e hc := by
    rw [htoken]
    exact h.registered _ source e (hback c source e hc)
  owned source e he := by
    obtain ⟨c, hc⟩ := h.owned source e (htoken ▸ he)
    exact hforth c source e hc
  distinct c c' source e hc hc' :=
    hinj c c' source e hc hc' (h.distinct _ _ source e (hback c source e hc) (hback c' source e hc'))

/-- The same where every copy has what it had. -/
theorem World.Kept.of_has {w w' : World C S N} (h : w.Kept) (htoken : w'.token = w.token) (hnodup : w'.alive.Nodup)
    (hdead : ∀ c, c ∉ w'.alive → w'.wanted c = none) (hhas : ∀ c source e, w'.Has c source e ↔ w.Has c source e) :
    w'.Kept :=
  h.transfer id htoken hnodup hdead (fun c source e => (hhas c source e).1) (fun _ _ _ _ _ _ heq => heq)
    fun c source e hc => ⟨c, (hhas c source e).2 hc⟩

variable [DecidableEq C]

/-! ## Construction and assignment -/

/-- A copy that is being constructed has nothing yet, and is alive. -/
theorem World.Kept.construct {w : World C S N} (h : w.Kept) {c : C} (hc : c ∉ w.alive) :
    (w.construct c).Kept ∧ c ∈ (w.construct c).alive ∧ (w.construct c).wanted c = none := by
  refine ⟨?_, List.mem_cons_self, update_self ..⟩
  have hwanted : (w.construct c).wanted = w.wanted := by
    unfold World.construct
    dsimp only
    rw [← h.dead c hc, update_eq_self]
  refine h.of_has rfl (List.nodup_cons.2 ⟨hc, h.nodup⟩) (fun c' hc' => ?_) fun c' source e => ?_
  · rw [hwanted]
    exact h.dead c' fun hmem => hc' (List.mem_cons_of_mem _ hmem)
  · unfold World.Has
    rw [hwanted]
    by_cases hc' : c' = c
    · rw [hc', h.dead c hc]
      simp
    · unfold World.construct
      dsimp only
      rw [update_of_ne hc']

/-- A copy without a notifier may refer to any token. -/
theorem World.Kept.setToken {w : World C S N} (h : w.Kept) {c : C} (hwanted : w.wanted c = none) (handle : Copy S) :
    World.Kept { w with copy := update w.copy c handle } := by
  refine h.of_has rfl h.nodup h.dead fun c' source e => ?_
  unfold World.Has
  dsimp only
  by_cases hc' : c' = c
  · rw [hc', hwanted]
    simp
  · rw [update_of_ne hc']

theorem World.Kept.copyAssign [DecidableEq S] {w : World C S N} (h : w.Kept) {c rhs : C}
    (hcareful : (w.copy c).token = (w.copy rhs).token ∨ w.wanted c = none) : (w.copyAssign c rhs).Kept := by
  by_cases htoken : (w.copy c).token = (w.copy rhs).token
  · refine h.of_has rfl h.nodup (fun c' hc' => ?_) fun c' source e => ?_
    · unfold World.copyAssign
      rw [if_pos htoken]
      exact h.dead c' hc'
    · unfold World.copyAssign World.Has
      rw [if_pos htoken]
      dsimp only
      rw [update_apply]
      split_ifs with hc'
      · rw [hc', htoken]
      · exact Iff.rfl
  · have hnone := hcareful.resolve_left htoken
    unfold World.copyAssign
    rw [if_neg htoken, ← hnone, update_eq_self]
    exact h.setToken hnone _

theorem World.Kept.moveAssign {w : World C S N} (h : w.Kept) {c rhs : C} (hc : c ∈ w.alive)
    (hnone : w.wanted c = none) : (w.moveAssign c rhs).Kept := by
  by_cases hself : c = rhs
  · subst hself
    refine h.of_has rfl h.nodup (fun c' hc' => ?_) fun c' source e => ?_
    · unfold World.moveAssign
      rw [if_pos rfl]
      exact h.dead c' hc'
    · unfold World.moveAssign World.Has
      dsimp only
      rw [if_pos rfl, if_pos rfl, update_apply]
      split_ifs with hc'
      · rw [hc']
      · rw [update_of_ne hc', update_of_ne hc']
  · have hwanted : (w.moveAssign c rhs).wanted = update (update w.wanted c (w.wanted rhs)) rhs none := if_neg hself
    have htokenc : ((w.moveAssign c rhs).copy c).token = (w.copy rhs).token := by
      unfold World.moveAssign
      dsimp only
      rw [update_self]
    have htoken : ∀ c', c' ≠ c → c' ≠ rhs → ((w.moveAssign c rhs).copy c').token = (w.copy c').token := by
      intro c' hc' hrhs
      unfold World.moveAssign
      dsimp only
      rw [if_neg hself, update_of_ne hc', update_of_ne hrhs, update_of_ne hrhs, update_of_ne hc']
    -- the notifier of `rhs` is now that of `c`
    have hhas : ∀ c' source e, (w.moveAssign c rhs).Has c' source e ↔
        c' ≠ rhs ∧ w.Has (if c' = c then rhs else c') source e := by
      intro c' source e
      unfold World.Has
      rw [hwanted]
      by_cases hrhs : c' = rhs
      · rw [hrhs, update_self]
        simp
      · rw [update_of_ne hrhs]
        by_cases hc' : c' = c
        · subst hc'
          rw [if_pos rfl, htokenc, update_self]
          simp only [ne_eq, hrhs, not_false_eq_true, true_and]
        · rw [if_neg hc', htoken c' hc' hrhs, update_of_ne hc']
          simp only [ne_eq, hrhs, not_false_eq_true, true_and]
    refine h.transfer (fun c' => if c' = c then rhs else c') rfl h.nodup (fun c' hc' => ?_)
      (fun c' source e hc' => ((hhas c' source e).1 hc').2) (fun a b source e ha hb heq => ?_) fun c' source e hc' => ?_
    · rw [hwanted, update_apply]
      split_ifs with hrhs
      · rfl
      · rw [update_of_ne (by rintro rfl; exact hc' hc)]
        exact h.dead c' hc'
    · have ha' := ((hhas a source e).1 ha).1
      have hb' := ((hhas b source e).1 hb).1
      split_ifs at heq with hac hbc hbc
      · rw [hac, hbc]
      · exact absurd heq.symm hb'
      · exact absurd heq ha'
      · exact heq
    · by_cases hrhs : c' = rhs
      · refine ⟨c, (hhas c source e).2 ⟨hself, ?_⟩⟩
        rw [if_pos rfl, ← hrhs]
        exact hc'
      · refine ⟨c', (hhas c' source e).2 ⟨hrhs, ?_⟩⟩
        rw [if_neg]
        · exact hc'
        · rintro rfl
          rw [World.Has, hnone] at hc'
          cases hc'.2

/-! ## Notifiers -/

/-- Where the id is new, the map has one more notifier. -/
theorem addObserver_perm {t : Token N} (f : N) (hopen : t.canceled = false)
    (hnew : (t.lastId + 1) % 2 ^ 32 ∉ t.observers.map Prod.fst) :
    (addObserver f t).2 = some ((t.lastId + 1) % 2 ^ 32) ∧ (addObserver f t).1.canceled = false ∧
      (addObserver f t).1.observers.Perm (((t.lastId + 1) % 2 ^ 32, f) :: t.observers) := by
  unfold addObserver
  rw [hopen, if_neg Bool.false_ne_true]
  refine ⟨rfl, rfl, ?_⟩
  generalize (t.lastId + 1) % 2 ^ 32 = observerId at hnew ⊢
  have hsplit : t.observers.filter (observerId < ·.1) = t.observers.filter (fun e => !decide (e.1 < observerId)) := by
    refine List.filter_congr fun e he => ?_
    have hne : e.1 ≠ observerId := by
      rintro rfl
      exact hnew (List.mem_map_of_mem he)
    rw [← decide_not]
    exact decide_eq_decide.2 (by omega)
  dsimp only
  rw [hsplit]
  exact List.perm_middle.trans ((List.filter_append_perm _ _).cons _)

variable [DecidableEq S]

theorem World.Kept.addNotifier {w : World C S N} (h : w.Kept) {c : C} {f : N} {source : S} (hc : c ∈ w.alive)
    (hnone : w.wanted c = none) (htoken : (w.copy c).token = some source)
    (hnew : ((w.token source).lastId + 1) % 2 ^ 32 ∉ (w.token source).observers.map Prod.fst) :
    World.Kept { w with
      token := update w.token source (addObserver f (w.token source)).1
      copy := update w.copy c { w.copy c with observerId := (addObserver f (w.token source)).2 }
      wanted := update w.wanted c ((addObserver f (w.token source)).2.map fun observerId => (observerId, f)) } := by
  obtain ⟨hid, hopen, hperm⟩ := addObserver_perm f (h.canceled source) hnew
  rw [hid, Option.map_some]
  generalize (addObserver f (w.token source)).1 = t at hopen hperm ⊢
  generalize ((w.token source).lastId + 1) % 2 ^ 32 = observerId at hnew hperm ⊢
  -- one registration more at the source, and one observer more that has it
  have hmem : ∀ x e, e ∈ (update w.token source t x).observers ↔
      x = source ∧ e = (observerId, f) ∨ e ∈ (w.token x).observers := by
    intro x e
    by_cases hx : x = source
    · subst hx
      rw [update_self, hperm.mem_iff, List.mem_cons]
      simp
    · rw [update_of_ne hx]
      simp [hx]
  have hhas : ∀ c' x e, World.Has { w with
      token := update w.token source t
      copy := update w.copy c { w.copy c with observerId := some observerId }
      wanted := update w.wanted c (some (observerId, f)) } c' x e ↔
        c' = c ∧ x = source ∧ e = (observerId, f) ∨ w.Has c' x e := by
    intro c' x e
    unfold World.Has
    dsimp only
    by_cases hc' : c' = c
    · subst hc'
      rw [update_self, update_self, htoken, hnone]
      simp [eq_comm]
    · rw [update_of_ne hc', update_of_ne hc']
      simp [hc']
  -- the counter has not come round to a number in use
  have hfresh : ∀ c' e, w.Has c' source e → e.1 ≠ observerId := by
    rintro c' e hc' rfl
    exact hnew (List.mem_map_of_mem (h.registered c' source e hc'))
  refine ⟨h.nodup, fun c' hc' => ?_, fun x => ?_, fun x => ?_, fun c' x e hc' => ?_, fun x e he => ?_,
    fun a b x e ha hb => ?_⟩
  · dsimp only
    rw [update_of_ne (by rintro rfl; exact hc' hc)]
    exact h.dead c' hc'
  · dsimp only
    rw [update_apply]
    split_ifs
    · exact hopen
    · exact h.canceled x
  · dsimp only
    rw [update_apply]
    split_ifs with hx
    · rw [(hperm.map Prod.fst).nodup_iff, List.map_cons]
      exact List.nodup_cons.2 ⟨hnew, h.ids source⟩
    · exact h.ids x
  · refine (hmem x e).2 ?_
    rcases (hhas c' x e).1 hc' with ⟨-, hx, he⟩ | hold
    · exact .inl ⟨hx, he⟩
    · exact .inr (h.registered c' x e hold)
  · rcases (hmem x e).1 he with ⟨hx, he⟩ | hold
    · exact ⟨c, (hhas c x e).2 (.inl ⟨rfl, hx, he⟩)⟩
    · obtain ⟨c', hc'⟩ := h.owned x e hold
      exact ⟨c', (hhas c' x e).2 (.inr hc')⟩
  · rcases (hhas a x e).1 ha with ⟨hac, rfl, rfl⟩ | ha' <;> rcases (hhas b x _).1 hb with ⟨hbc, hx, he⟩ | hb'
    · rw [hac, hbc]
    · exact absurd rfl (hfresh b _ hb')
    · subst hx
      exact absurd (congrArg Prod.fst he) (hfresh a e ha')
    · exact h.distinct a b x e ha' hb'

/-- A copy loses its notifier, and the map of its token too. -/
theorem World.Kept.erase {w : World C S N} (h : w.Kept) {c : C} {source : S} {e : ℕ × N}
    (hc : w.Has c source e) : World.Kept (World.forget c
      { w with token := update w.token source (Cancellation.removeObserver e.1 (w.token source)) }) := by
  -- one registration less at the source, and one observer less
  have hmem : ∀ x e', e' ∈ (update w.token source (Cancellation.removeObserver e.1 (w.token source)) x).observers ↔
      e' ∈ (w.token x).observers ∧ (x = source → e'.1 ≠ e.1) := by
    intro x e'
    by_cases hx : x = source
    · subst hx
      rw [update_self]
      unfold Cancellation.removeObserver
      rw [List.mem_filter]
      simp
    · rw [update_of_ne hx]
      simp [hx]
  have hhas : ∀ c' x e', World.Has (World.forget c
      { w with token := update w.token source (Cancellation.removeObserver e.1 (w.token source)) }) c' x e' ↔
        c' ≠ c ∧ w.Has c' x e' := by
    intro c' x e'
    unfold World.Has World.forget
    dsimp only
    by_cases hc' : c' = c
    · subst hc'
      rw [update_self]
      simp
    · rw [update_of_ne hc']
      simp [hc']
  refine ⟨h.nodup, fun c' hc' => ?_, fun x => ?_, fun x => ?_, fun c' x e' hc' => ?_, fun x e' he' => ?_,
    fun a b x e' ha hb => h.distinct a b x e' ((hhas a x e').1 ha).2 ((hhas b x e').1 hb).2⟩
  · unfold World.forget
    dsimp only
    rw [update_apply]
    split_ifs
    · rfl
    · exact h.dead c' hc'
  · unfold World.forget
    dsimp only
    rw [update_apply]
    split_ifs
    · exact h.canceled source
    · exact h.canceled x
  · unfold World.forget
    dsimp only
    rw [update_apply]
    split_ifs
    · exact (h.ids source).sublist (List.filter_sublist.map _)
    · exact h.ids x
  · obtain ⟨hne, hold⟩ := (hhas c' x e').1 hc'
    refine (hmem x e').2 ⟨h.registered c' x e' hold, ?_⟩
    rintro rfl hid
    -- the numbers of a source are distinct, so it is the one taken out
    obtain rfl := h.eq_of_id (h.registered c' x e' hold) (h.registered c x e hc) hid
    exact hne (h.distinct c' c x e' hold hc)
  · obtain ⟨hold, hid⟩ := (hmem x e').1 he'
    obtain ⟨c', hc'⟩ := h.owned x e' hold
    refine ⟨c', (hhas c' x e').2 ⟨?_, hc'⟩⟩
    rintro rfl
    obtain rfl : e' = e := Option.some.inj (hc'.2.symm.trans hc.2)
    obtain rfl : x = source := Option.some.inj (hc'.1.symm.trans hc.1)
    exact hid rfl rfl

/-- The copy's own notifier, if it has one, is taken out of the map. -/
theorem World.Kept.removeObserver {w : World C S N} (h : w.Kept) {c : C} {source : S} (howned : w.Owned c)
    (htoken : (w.copy c).token = some source) :
    World.Kept ((w.removeObserver c source).forget c) := by
  unfold World.removeObserver
  cases hwanted : w.wanted c with
  | some e =>
    rw [(howned.own e hwanted).1]
    exact h.erase ⟨htoken, hwanted⟩
  | none =>
    -- the id that the copy may still have is nobody's
    have hforget : w.forget c = w := by
      unfold World.forget
      rw [← hwanted, update_eq_self]
    cases hid : (w.copy c).observerId with
    | none =>
      dsimp only
      rw [hforget]
      exact h
    | some observerId =>
      have hfree : observerId ∉ (w.token source).observers.map Prod.fst := fun hmem =>
        howned.nobody hwanted ⟨source, htoken, observerId, hid, hmem⟩
      have hsame : Cancellation.removeObserver observerId (w.token source) = w.token source := by
        unfold Cancellation.removeObserver
        have hfilter : (w.token source).observers.filter (·.1 ≠ observerId) = (w.token source).observers := by
          refine List.filter_eq_self.2 fun e he => decide_eq_true ?_
          rintro rfl
          exact hfree (List.mem_map_of_mem he)
        rw [hfilter]
      dsimp only
      rw [hsame, update_eq_self, hforget]
      exact h

omit [DecidableEq S] in
/-- A copy without a token has no notifier to lose. -/
theorem World.Kept.forget {w : World C S N} (h : w.Kept) {c : C} (htoken : (w.copy c).token = none) :
    (w.forget c).Kept := by
  refine h.of_has rfl h.nodup (fun c' hc' => ?_) fun c' source e => ?_
  · unfold World.forget
    dsimp only
    rw [update_apply]
    split_ifs
    · rfl
    · exact h.dead c' hc'
  · unfold World.Has World.forget
    dsimp only
    by_cases hc' : c' = c
    · rw [hc', htoken]
      simp
    · rw [update_of_ne hc']

omit [DecidableEq S] in
theorem World.Kept.destroy {w : World C S N} {c : C} (h : (w.forget c).Kept) :
    World.Kept { w.forget c with alive := w.alive.erase c } := by
  refine h.of_has rfl (h.nodup.erase c) (fun c' hc' => ?_) fun _ _ _ => Iff.rfl
  by_cases heq : c' = c
  · rw [heq]
    exact update_self ..
  · exact h.dead c' fun hmem => hc' ((List.mem_erase_of_ne heq).2 hmem)

/-! ## The ids that are remembered -/

omit [DecidableEq C] [DecidableEq S] in
/-- A copy without an id in use has no notifier. -/
theorem World.Owned.wanted_none {w : World C S N} {c : C} (ho : w.Owned c) (h : w.Kept)
    (hfree : ¬w.InUse (w.copy c)) : w.wanted c = none := by
  cases hwanted : w.wanted c with
  | none => rfl
  | some e =>
    obtain ⟨hid, source, htoken⟩ := ho.own e hwanted
    have hmem := h.registered c source e ⟨htoken, hwanted⟩
    exact absurd ⟨source, htoken, e.1, hid, List.mem_map_of_mem hmem⟩ hfree

omit [DecidableEq C] [DecidableEq S] in
/-- The copy has no notifier, and its id is not in use. -/
theorem World.Owned.of_none {w : World C S N} {c : C} (hnone : w.wanted c = none) (hfree : ¬w.InUse (w.copy c)) :
    w.Owned c where
  own e he := by
    rw [hnone] at he
    cases he
  nobody _ := hfree

omit [DecidableEq C] [DecidableEq S] in
/-- The copy is as it was, and no id of its token has come into use. -/
theorem World.Owned.of_eq {w w' : World C S N} {c : C} (ho : w.Owned c) (hcopy : w'.copy c = w.copy c)
    (hwanted : w'.wanted c = w.wanted c) (hinUse : w'.InUse (w.copy c) → w.InUse (w.copy c)) : w'.Owned c where
  own := by rw [hcopy, hwanted]; exact ho.own
  nobody := by rw [hcopy, hwanted]; exact fun hnone hin => ho.nobody hnone (hinUse hin)

omit [DecidableEq C] [DecidableEq S] in
theorem not_inUse_of_token {w : World C S N} {copy : Copy S} (h : copy.token = none) : ¬w.InUse copy := by
  rintro ⟨source, hsource, -⟩
  rw [h] at hsource
  cases hsource

omit [DecidableEq C] [DecidableEq S] in
theorem not_inUse_of_id {w : World C S N} {copy : Copy S} (h : copy.observerId = none) : ¬w.InUse copy := by
  rintro ⟨source, -, observerId, hid, -⟩
  rw [h] at hid
  cases hid

omit [DecidableEq S] in
theorem World.Owned.construct {w : World C S N} {c c' : C} (ho : c' ≠ c → w.Owned c') : (w.construct c).Owned c' := by
  by_cases hc : c' = c
  · rw [hc]
    refine .of_none (update_self ..) (not_inUse_of_token ?_)
    unfold World.construct
    dsimp only
    rw [update_self]
    rfl
  · exact (ho hc).of_eq (update_of_ne hc ..) (update_of_ne hc ..) id

theorem World.Owned.copyAssign {w : World C S N} {c c' rhs : C} (ho : w.Owned c')
    (hcareful : (w.copy c).token = (w.copy rhs).token ∨ ¬w.InUse { w.copy c with token := (w.copy rhs).token }) :
    (w.copyAssign c rhs).Owned c' := by
  unfold World.copyAssign
  split_ifs with htoken
  · refine ho.of_eq ?_ rfl id
    dsimp only
    rw [← htoken, update_eq_self]
  · by_cases hc : c' = c
    · rw [hc]
      refine .of_none (update_self ..) ?_
      dsimp only
      rw [update_self]
      exact hcareful.resolve_left htoken
    · exact ho.of_eq (update_of_ne hc ..) (update_of_ne hc ..) id

omit [DecidableEq S] in
/-- The copy that is moved from gives its id away with its notifier. -/
theorem World.Owned.moveAssign {w : World C S N} {c c' rhs : C} (hnone : w.wanted c = none) (hrhs : w.Owned rhs)
    (ho : c' ≠ c → w.Owned c') : (w.moveAssign c rhs).Owned c' := by
  by_cases hself : c = rhs
  · subst hself
    by_cases hc : c' = c
    · rw [hc]
      refine .of_none ?_ (not_inUse_of_id ?_)
      · unfold World.moveAssign
        rw [if_pos rfl]
        exact hnone
      · unfold World.moveAssign
        dsimp only
        rw [if_pos rfl, update_self, update_self]
    · refine (ho hc).of_eq ?_ ?_ id
      · unfold World.moveAssign
        dsimp only
        rw [if_pos rfl, update_of_ne hc, update_of_ne hc, update_of_ne hc]
      · unfold World.moveAssign
        dsimp only
        rw [if_pos rfl]
  · have hwanted : (w.moveAssign c rhs).wanted = update (update w.wanted c (w.wanted rhs)) rhs none := if_neg hself
    have hcopy : (w.moveAssign c rhs).copy = update (update (update (update w.copy c
        { w.copy c with observerId := (w.copy rhs).observerId }) rhs { w.copy rhs with observerId := none }) rhs
        ⟨none, none⟩) c (w.copy rhs) := by
      unfold World.moveAssign
      dsimp only
      rw [if_neg hself]
      simp only [ne_eq, Ne.symm hself, not_false_eq_true, update_of_ne, update_self, hself]
    by_cases hrhs' : c' = rhs
    · rw [hrhs']
      refine .of_none ?_ (not_inUse_of_token ?_)
      · rw [hwanted, update_self]
      · rw [hcopy, update_of_ne (Ne.symm hself), update_self]
    by_cases hc : c' = c
    · rw [hc]
      refine ⟨?_, ?_⟩
      · rw [hwanted, update_of_ne hself, update_self, hcopy, update_self]
        exact hrhs.own
      · rw [hwanted, update_of_ne hself, update_self, hcopy, update_self]
        exact hrhs.nobody
    · refine (ho hc).of_eq ?_ ?_ id
      · rw [hcopy, update_of_ne hc, update_of_ne hrhs', update_of_ne hrhs', update_of_ne hc]
      · rw [hwanted, update_of_ne hrhs', update_of_ne hc]

/-- An id that is given out is remembered by the copy it is given to, and by no other of the token. -/
theorem World.Owned.addNotifier {w : World C S N} {c c' : C} {f : N} {source : S} {observerId : ℕ} {t : Token N}
    (htoken : (w.copy c).token = some source)
    (hperm : t.observers.Perm ((observerId, f) :: (w.token source).observers)) (ho : c' ≠ c → w.Owned c')
    (hfresh : c' ≠ c → (w.copy c').token = some source → (w.copy c').observerId ≠ some observerId) :
    World.Owned { w with
      token := update w.token source t
      copy := update w.copy c { w.copy c with observerId := some observerId }
      wanted := update w.wanted c (some (observerId, f)) } c' := by
  by_cases hc : c' = c
  · rw [hc]
    refine ⟨fun e he => ?_, fun hnone => ?_⟩
    · dsimp only at he ⊢
      rw [update_self] at he
      obtain rfl := Option.some.inj he
      rw [update_self]
      exact ⟨rfl, source, htoken⟩
    · dsimp only at hnone
      rw [update_self] at hnone
      cases hnone
  · refine (ho hc).of_eq (update_of_ne hc ..) (update_of_ne hc ..) ?_
    rintro ⟨source', hsource', id', hid', hmem⟩
    refine ⟨source', hsource', id', hid', ?_⟩
    dsimp only at hmem
    by_cases hx : source' = source
    · subst hx
      rw [update_self, (hperm.map Prod.fst).mem_iff, List.map_cons, List.mem_cons] at hmem
      refine hmem.resolve_left ?_
      rintro rfl
      exact hfresh hc hsource' hid'
    · rwa [update_of_ne hx] at hmem

omit [DecidableEq C] in
/-- The map has lost the id of the copy. -/
theorem removeObserver_inUse {w : World C S N} {c : C} {source : S} {copy : Copy S}
    (h : (w.removeObserver c source).InUse copy) :
    w.InUse copy ∧ (copy.token = some source → copy.observerId ≠ (w.copy c).observerId) := by
  obtain ⟨source', hsource', observerId, hid, hmem⟩ := h
  unfold World.removeObserver at hmem
  cases hown : (w.copy c).observerId with
  | none =>
    rw [hown] at hmem
    exact ⟨⟨source', hsource', observerId, hid, hmem⟩, fun _ hnone => by rw [hnone] at hid; cases hid⟩
  | some removed =>
    rw [hown] at hmem
    dsimp only at hmem
    by_cases hx : source' = source
    · subst hx
      rw [update_self] at hmem
      unfold Cancellation.removeObserver at hmem
      obtain ⟨e, he, rfl⟩ := List.mem_map.1 hmem
      obtain ⟨hmem, hne⟩ := List.mem_filter.1 he
      refine ⟨⟨source', hsource', e.1, hid, List.mem_map_of_mem hmem⟩, fun _ heq => ?_⟩
      rw [heq] at hid
      exact of_decide_eq_true hne (Option.some.inj hid).symm
    · rw [update_of_ne hx] at hmem
      refine ⟨⟨source', hsource', observerId, hid, hmem⟩, fun htoken => ?_⟩
      exact absurd (Option.some.inj (hsource'.symm.trans htoken)) hx

theorem World.Owned.removeObserver {w : World C S N} {c c' : C} {source : S} (htoken : (w.copy c).token = some source)
    (ho : c' ≠ c → w.Owned c') : ((w.removeObserver c source).forget c).Owned c' := by
  have hsame : (w.removeObserver c source).copy = w.copy ∧ (w.removeObserver c source).wanted = w.wanted := by
    unfold World.removeObserver
    split <;> exact ⟨rfl, rfl⟩
  by_cases hc : c' = c
  · rw [hc]
    refine .of_none (update_self ..) fun hin => ?_
    have hcopy : ((w.removeObserver c source).forget c).copy c = w.copy c := congrFun hsame.1 c
    rw [hcopy] at hin
    exact (removeObserver_inUse hin).2 htoken rfl
  · refine (ho hc).of_eq (congrFun hsame.1 c') ?_ fun hin => (removeObserver_inUse hin).1
    exact (update_of_ne hc ..).trans (congrFun hsame.2 c')

/-! ## Steps -/

/-- The invariant. -/
structure World.Tidy (w : World C S N) : Prop where
  kept : w.Kept
  owned : ∀ c ∈ w.alive, w.Owned c

omit [DecidableEq C] [DecidableEq S] in
/-- An id that no other copy of the token remembers is not in use. -/
theorem World.Tidy.id_free {w : World C S N} (h : w.Tidy) {c : C} {source : S} {observerId : ℕ}
    (hnone : w.wanted c = none)
    (hfresh : ∀ c' ∈ w.alive, c' ≠ c → (w.copy c').token = some source → (w.copy c').observerId ≠ some observerId) :
    observerId ∉ (w.token source).observers.map Prod.fst := by
  intro hmem
  obtain ⟨e, he, rfl⟩ := List.mem_map.1 hmem
  obtain ⟨c', htoken, hwanted⟩ := h.kept.owned source e he
  have halive : c' ∈ w.alive := by
    by_contra hdead
    rw [h.kept.dead c' hdead] at hwanted
    cases hwanted
  have hne : c' ≠ c := by
    rintro rfl
    rw [hnone] at hwanted
    cases hwanted
  exact hfresh c' halive hne htoken ((h.owned c' halive).own e hwanted).1

theorem World.Tidy.step {op : Op C S N} {w w' : World C S N} (h : w.Tidy) (hcareful : Careful op w)
    (hs : w.step op = some w') : w'.Tidy := by
  have howned : ∀ {c c' : C}, c ∉ w.alive → c' ∈ c :: w.alive → c' ≠ c → w.Owned c' := fun _ hmem hne =>
    h.owned _ ((List.mem_cons.1 hmem).resolve_left hne)
  unfold World.step at hs
  cases op with
  | fromSource c source =>
    dsimp only at hs
    split_ifs at hs with hc
    obtain rfl := Option.some.inj hs
    obtain ⟨hkept, -, hnone⟩ := h.kept.construct hc
    refine ⟨hkept.setToken hnone _, fun c' hc' => ?_⟩
    by_cases heq : c' = c
    · rw [heq]
      refine .of_none hnone ?_
      unfold World.construct
      dsimp only
      rw [update_self, update_self]
      exact hcareful
    · exact (World.Owned.construct fun hne => howned hc hc' hne).of_eq (update_of_ne heq ..) rfl id
  -- a constructed copy has no notifier yet, so the assignment loses none
  | copyConstruct c rhs =>
    obtain ⟨⟨hc, hrhs⟩, hs⟩ := Option.ite_none_right_eq_some.1 hs
    obtain rfl := Option.some.inj hs
    obtain ⟨hkept, -, hnone⟩ := h.kept.construct hc
    have hne : rhs ≠ c := by
      rintro rfl
      exact hc hrhs
    refine ⟨hkept.copyAssign (.inr hnone), fun c' hc' => ?_⟩
    refine World.Owned.copyAssign (.construct fun hne' => howned hc hc' hne') (.inr ?_)
    unfold World.construct
    dsimp only
    rw [update_self, update_of_ne hne]
    exact hcareful
  | moveConstruct c rhs =>
    obtain ⟨⟨hc, hrhs⟩, hs⟩ := Option.ite_none_right_eq_some.1 hs
    obtain rfl := Option.some.inj hs
    obtain ⟨hkept, halive, hnone⟩ := h.kept.construct hc
    refine ⟨hkept.moveAssign halive hnone, fun c' hc' => ?_⟩
    exact .moveAssign hnone (.construct fun _ => h.owned rhs hrhs) fun hne =>
      .construct fun hne' => howned hc hc' hne'
  | copyAssign c rhs =>
    obtain ⟨⟨hc, -⟩, hs⟩ := Option.ite_none_right_eq_some.1 hs
    obtain rfl := Option.some.inj hs
    have hnone := hcareful.imp_right fun hfree => (h.owned c hc).wanted_none h.kept hfree.1
    refine ⟨h.kept.copyAssign hnone, fun c' hc' => ?_⟩
    exact (h.owned c' hc').copyAssign (hcareful.imp_right And.right)
  | moveAssign c rhs =>
    obtain ⟨⟨hc, hrhs⟩, hs⟩ := Option.ite_none_right_eq_some.1 hs
    obtain rfl := Option.some.inj hs
    have hnone := (h.owned c hc).wanted_none h.kept hcareful
    refine ⟨h.kept.moveAssign hc hnone, fun c' hc' => ?_⟩
    exact .moveAssign hnone (h.owned rhs hrhs) fun _ => h.owned c' hc'
  | addNotifier c f =>
    obtain ⟨hc, hs⟩ := Option.ite_none_right_eq_some.1 hs
    obtain ⟨source, htoken, rfl⟩ := Option.map_eq_some_iff.1 hs
    obtain ⟨hfree, hfresh⟩ := hcareful
    have hnone := (h.owned c hc).wanted_none h.kept hfree
    have hnew := h.id_free hnone (hfresh source htoken)
    refine ⟨h.kept.addNotifier hc hnone htoken hnew, fun c' hc' => ?_⟩
    obtain ⟨hid, -, hperm⟩ := addObserver_perm f (h.kept.canceled source) hnew
    dsimp only
    rw [hid, Option.map_some]
    exact .addNotifier htoken hperm (fun _ => h.owned c' hc') fun hne => hfresh source htoken c' hc' hne
  | removeNotifier c =>
    obtain ⟨hc, hs⟩ := Option.ite_none_right_eq_some.1 hs
    split at hs
    case h_1 source htoken =>
      obtain rfl := Option.some.inj hs
      have halive : ((w.removeObserver c source).forget c).alive = w.alive := by
        unfold World.removeObserver
        split <;> rfl
      refine ⟨h.kept.removeObserver (h.owned c hc) htoken, fun c' hc' => ?_⟩
      rw [halive] at hc'
      exact .removeObserver htoken fun _ => h.owned c' hc'
    case h_2 =>
      obtain ⟨-, hs⟩ := Option.ite_none_right_eq_some.1 hs
      obtain rfl := Option.some.inj hs
      exact h
  | destroy c =>
    obtain ⟨hc, hs⟩ := Option.ite_none_right_eq_some.1 hs
    obtain rfl := Option.some.inj hs
    split
    case h_1 source htoken =>
      have halive : (w.removeObserver c source).alive = w.alive := by
        unfold World.removeObserver
        split <;> rfl
      refine ⟨(h.kept.removeObserver (h.owned c hc) htoken).destroy, fun c' hc' => ?_⟩
      dsimp only at hc'
      rw [halive] at hc'
      have hold := World.Owned.removeObserver htoken fun _ : c' ≠ c => h.owned c' (List.mem_of_mem_erase hc')
      exact ⟨hold.own, hold.nobody⟩
    case h_2 htoken =>
      refine ⟨(h.kept.forget htoken).destroy, fun c' hc' => ?_⟩
      have hne : c' ≠ c := fun heq => List.Nodup.not_mem_erase h.kept.nodup (heq ▸ hc')
      exact (h.owned c' (List.mem_of_mem_erase hc')).of_eq rfl (update_of_ne hne ..) id

/-- **What is invoked**: in every run of careful operations, to cancel a source invokes, once each, the notifiers that
the copies of its token should have. -/
theorem cancel_perm {w : World C S N} (h : Reaches World.step Careful World.new w) (source : S) :
    (cancel (w.token source)).2.Perm (w.expected source) := by
  have htidy : w.Tidy := by
    refine h.invariant (fun _ _ _ ht hc hs => ht.step hc hs)
      ⟨⟨List.nodup_nil, fun _ _ => rfl, fun _ => rfl, fun _ => ?_, nofun, nofun, nofun⟩, nofun⟩
    exact List.nodup_nil
  exact htidy.kept.invoked_perm source

/-- A copy and a copy of it add a notifier each; the first removes its own. -/
theorem cancel_perm_two : ∃ w : World ℕ Unit ℕ, Reaches World.step Careful World.new w ∧ w.expected () = [20] ∧
    (cancel (w.token ())).2.Perm (w.expected ()) := by
  obtain ⟨w, hreach, hexpected⟩ : ∃ w : World ℕ Unit ℕ, Reaches World.step Careful World.new w ∧ w.expected () = [20] :=
    exists_of_checked [.fromSource 0 (), .copyConstruct 1 0, .addNotifier 0 10, .addNotifier 1 20, .removeNotifier 0]
      (by decide +kernel)
  exact ⟨w, hreach, hexpected, cancel_perm hreach ()⟩

/-- **A second notifier does not replace the first**: both are invoked. -/
theorem second_added : ¬∀ w : World ℕ Unit ℕ, Reaches World.step Free World.new w →
    ∀ source, (cancel (w.token source)).2.Perm (w.expected source) := by
  intro hall
  obtain ⟨w, hreach, hnot⟩ : ∃ w : World ℕ Unit ℕ, Reaches World.step Free World.new w ∧
      ¬(cancel (w.token ())).2.Perm (w.expected ()) :=
    exists_of_events [.fromSource 0 (), .addNotifier 0 10, .addNotifier 0 20] (by decide +kernel)
  exact hnot (hall w hreach ())

end Libtarp.Cancellation
