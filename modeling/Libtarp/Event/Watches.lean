import Libtarp.Event.PumpRuns
import Libtarp.Lib.Run

/-!
# Watches for user events (`event.c`)

The pump has a slot for each event type, and each watch a flag. `Evp_register_uev_watch` tests the event type
where it is to test the slot: a watch of any type but 0 is refused, and one of type 0 takes the slot from the
watch that has it.

* `WatchCall.right_iff`: the call is right exactly if it registers a watch of type 0 in an empty slot, or changes
  nothing, or unregisters a watch.
* `watches_right_iff`: the same over runs.
-/

namespace Libtarp.Event

open Function Lib

variable {T F W D : Type} [DecidableEq W] (c : Client F W)

inductive WatchCall (W : Type)
  | register (uev : W)
  | unregister (uev : W)

/-- A call on the pump, with what it returns. -/
def watchCall (call : WatchCall W) (s : Pump T F W D) : Except Empty (Pump T F W D × Option Rc) :=
  match call with
  | .register uev => .ok ((registerUevWatch c s uev).1, some (registerUevWatch c s uev).2)
  | .unregister uev => .ok (unregisterUevWatch c s uev, none)

/-- A watch is registered exactly if the slot of its event type points to it. -/
def Pump.Slotted (s : Pump T F W D) : Prop := ∀ w, s.watchRegistered w = true ↔ s.watch (c.eventType w) = some w

/-- Another watch is registered for the event type of this one. -/
def Pump.Taken (s : Pump T F W D) (uev : W) : Prop :=
  ∃ w, w ≠ uev ∧ s.watchRegistered w = true ∧ c.eventType w = c.eventType uev

/-- What a call is to do: the slots and the flags agree after it; an unregistered watch is registered if no other has
its slot, and nothing changes when one is refused; a watch that is unregistered leaves the slots of the others alone. -/
def WatchCall.Right (call : WatchCall W) (s : Pump T F W D) (outcome : Except Empty (Pump T F W D × Option Rc)) : Prop :=
  ∃ s' r, outcome = .ok (s', r) ∧ s'.Slotted c ∧
    match call with
    | .register uev =>
      (s.watchRegistered uev = false → (r = some .success ↔ ¬s.Taken c uev)) ∧ (r ≠ some .success → s' = s)
    | .unregister uev => ∀ t w, w ≠ uev → s.watch t = some w → s'.watch t = some w

/-- The guard asks what it is to ask: an unregistered watch is of type 0, and no other one is registered for it. -/
def WatchCall.Fits (call : WatchCall W) (s : Pump T F W D) : Prop :=
  match call with
  | .register uev => s.watchRegistered uev = false → c.eventType uev = 0 ∧ ¬s.Taken c uev
  | .unregister _ => True

/-- The invariant: no watch of another type than 0 has ever been registered. -/
structure Pump.WatchInv (s : Pump T F W D) : Prop where
  slotted : s.Slotted c
  zero : ∀ w, s.watchRegistered w = true → c.eventType w = 0

variable {c} {s : Pump T F W D} {uev : W}

/-! ## One call -/

/-- A watch of type 0 is registered, whoever has its slot. -/
theorem register_zero (hfree : s.watchRegistered uev = false) (hzero : c.eventType uev = 0) :
    registerUevWatch c s uev = ({ s with
      watch := update s.watch 0 (some uev)
      watchRegistered := update s.watchRegistered uev true }, .success) := by
  unfold registerUevWatch
  rw [hfree, hzero]
  rfl

theorem register_other (hfree : s.watchRegistered uev = false) (hother : c.eventType uev ≠ 0) :
    registerUevWatch c s uev = (s, .error .conflict) := by
  unfold registerUevWatch
  rw [hfree, if_neg (by decide), if_pos hother]

theorem register_again (hagain : s.watchRegistered uev = true) :
    registerUevWatch c s uev = (s, .error .invalidValue) := by
  unfold registerUevWatch
  rw [if_pos hagain]

/-- The slot of type 0 was empty. -/
theorem Pump.WatchInv.register (h : s.WatchInv c) (hzero : c.eventType uev = 0) (hfree : ¬s.Taken c uev) :
    ({ s with
      watch := update s.watch 0 (some uev)
      watchRegistered := update s.watchRegistered uev true } : Pump T F W D).WatchInv c := by
  have hother : ∀ w, w ≠ uev → s.watchRegistered w = false := by
    intro w hw
    apply Bool.eq_false_of_not_eq_true
    intro hregistered
    exact hfree ⟨w, hw, hregistered, (h.zero w hregistered).trans hzero.symm⟩
  refine ⟨?_, ?_⟩
  · intro w
    dsimp only
    by_cases hw : w = uev
    · subst hw
      rw [update_self, hzero, update_self]
      exact ⟨fun _ => rfl, fun _ => rfl⟩
    · rw [update_of_ne hw, hother w hw]
      refine ⟨fun hflag => absurd hflag Bool.false_ne_true, ?_⟩
      intro hslot
      by_cases ht : c.eventType w = 0
      · rw [ht, update_self] at hslot
        exact absurd (Option.some.inj hslot).symm hw
      · rw [update_of_ne ht] at hslot
        rw [← hother w hw]
        exact (h.slotted w).2 hslot
  · intro w hregistered
    by_cases hw : w = uev
    · rw [hw]
      exact hzero
    · dsimp only at hregistered
      rw [update_of_ne hw] at hregistered
      exact h.zero w hregistered

/-- The slot of a registered watch is its own. -/
theorem Pump.Slotted.unregister (h : s.Slotted c) (uev : W) :
    (unregisterUevWatch c s uev).Slotted c ∧
      ∀ t w, w ≠ uev → s.watch t = some w → (unregisterUevWatch c s uev).watch t = some w := by
  unfold unregisterUevWatch
  split_ifs with hregistered
  · have hslot := (h uev).1 hregistered
    refine ⟨?_, ?_⟩
    · intro w
      dsimp only
      by_cases hw : w = uev
      · subst hw
        rw [update_self, update_self]
        exact ⟨fun hflag => absurd hflag Bool.false_ne_true, fun hnone => absurd hnone (Option.some_ne_none w).symm⟩
      · rw [update_of_ne hw, h w]
        by_cases ht : c.eventType w = c.eventType uev
        · rw [ht, update_self, hslot]
          exact ⟨fun hsome => absurd (Option.some.inj hsome).symm hw,
            fun hnone => absurd hnone (Option.some_ne_none w).symm⟩
        · rw [update_of_ne ht]
    · intro t w hw hsome
      dsimp only
      rw [update_of_ne ?_]
      · exact hsome
      · rintro rfl
        rw [hslot] at hsome
        exact hw (Option.some.inj hsome).symm
  · exact ⟨h, fun _ _ _ hsome => hsome⟩

theorem Pump.WatchInv.unregister (h : s.WatchInv c) (uev : W) : (unregisterUevWatch c s uev).WatchInv c := by
  refine ⟨(h.slotted.unregister uev).1, ?_⟩
  intro w hregistered
  apply h.zero w
  unfold unregisterUevWatch at hregistered
  split_ifs at hregistered
  · dsimp only at hregistered
    by_cases hw : w = uev
    · rw [hw, update_self] at hregistered
      cases hregistered
    · rwa [update_of_ne hw] at hregistered
  · exact hregistered

/-- **One call is right exactly if it fits**, and what fits keeps the invariant. -/
theorem WatchCall.right_iff (h : s.WatchInv c) (call : WatchCall W) :
    (call.Right c s (watchCall c call s) ↔ call.Fits c s) ∧
      (call.Fits c s → ∀ s' r, watchCall c call s = .ok (s', r) → s'.WatchInv c) := by
  cases call with
  | unregister uev =>
    refine ⟨⟨fun _ => trivial, fun _ => ⟨_, _, rfl, h.slotted.unregister uev⟩⟩, ?_⟩
    intro _ s' r he
    obtain ⟨rfl, -⟩ := Prod.mk.inj (Except.ok.inj he)
    exact h.unregister uev
  | register uev =>
    unfold watchCall WatchCall.Right WatchCall.Fits
    dsimp only
    cases hflag : s.watchRegistered uev with
    | true =>
      rw [register_again hflag]
      have hnot : ¬true = false := Bool.noConfusion
      refine ⟨⟨fun _ hfree => absurd hfree hnot, fun _ => ?_⟩, ?_⟩
      · exact ⟨s, _, rfl, h.slotted, fun hfree => absurd hfree hnot, fun _ => rfl⟩
      · intro _ s' r he
        obtain ⟨rfl, -⟩ := Prod.mk.inj (Except.ok.inj he)
        exact h
    | false =>
      by_cases hzero : c.eventType uev = 0
      · rw [register_zero hflag hzero]
        refine ⟨⟨?_, ?_⟩, ?_⟩
        · rintro ⟨s', r, he, -, hsuccess, -⟩ _
          obtain ⟨-, rfl⟩ := Prod.mk.inj (Except.ok.inj he)
          exact ⟨hzero, (hsuccess rfl).1 rfl⟩
        · intro hfits
          obtain ⟨-, hfree⟩ := hfits rfl
          exact ⟨_, _, rfl, (h.register hzero hfree).slotted, fun _ => ⟨fun _ => hfree, fun _ => rfl⟩,
            fun hrefused => absurd rfl hrefused⟩
        · intro hfits s' r he
          obtain ⟨rfl, -⟩ := Prod.mk.inj (Except.ok.inj he)
          exact h.register hzero (hfits rfl).2
      · rw [register_other hflag hzero]
        -- nobody can have the slot, and the watch is refused all the same
        have hfree : ¬s.Taken c uev := by
          rintro ⟨w, -, hregistered, htype⟩
          exact hzero (htype ▸ h.zero w hregistered)
        refine ⟨⟨?_, ?_⟩, ?_⟩
        · rintro ⟨s', r, he, -, hsuccess, -⟩ _
          obtain ⟨-, rfl⟩ := Prod.mk.inj (Except.ok.inj he)
          exact absurd ((hsuccess rfl).2 hfree) (by simp)
        · intro hfits
          exact absurd (hfits rfl).1 hzero
        · intro hfits
          exact absurd (hfits rfl).1 hzero

/-! ## Runs -/

variable (c) in
/-- **The watches of a run** are in their slots, and none takes the slot of another, exactly if every unregistered
watch that is to be registered is of type 0, with no other one registered for it. -/
theorem watches_right_iff (tspec : T → Timespec) (calls : List (WatchCall W)) :
    Always (watchCall c) (WatchCall.Right c) calls (World.new tspec : World T F W D).pump ↔
      Meets (watchCall c) (WatchCall.Fits c) calls (World.new tspec : World T F W D).pump := by
  apply always_iff_meets (Pump.WatchInv c)
  · intro call s h
    exact WatchCall.right_iff h call
  · refine ⟨?_, ?_⟩
    · intro w
      exact ⟨fun hflag => absurd hflag Bool.false_ne_true, fun hslot => absurd hslot (Option.some_ne_none w).symm⟩
    · intro w hflag
      exact absurd hflag Bool.false_ne_true

/-- One watch of type 1. -/
def typeOne : Client Unit Unit where
  fd _ := 3
  eventType _ := 1
  bound _ := by decide

/-- Two watches of type 0. -/
def typeZero : Client Unit Bool where
  fd _ := 3
  eventType _ := 0
  bound _ := by decide

/-- **The only watch is refused**, since its type is 1; of two of type 0 the second takes the slot of the first. -/
theorem watches_wrong :
    ¬Always (watchCall typeOne) (WatchCall.Right typeOne) [.register ()]
        (World.new fun _ : Unit => seconds 0 : World Unit Unit Unit Unit).pump ∧
      ¬Always (watchCall typeZero) (WatchCall.Right typeZero) [.register false, .register true]
        (World.new fun _ : Unit => seconds 0 : World Unit Unit Bool Unit).pump := by
  refine ⟨?_, ?_⟩
  · intro hall
    obtain ⟨s', r, he, -, hsuccess, -⟩ := hall [] _ _ _ (List.prefix_rfl) rfl
    obtain ⟨-, rfl⟩ := Prod.mk.inj (Except.ok.inj he)
    have hfree := (hsuccess rfl).2 (by
      rintro ⟨w, hw, -⟩
      exact hw rfl)
    exact absurd hfree (by decide)
  · intro hall
    obtain ⟨s', r, he, hslotted, -⟩ := hall [.register false] _ _ _ (List.prefix_rfl) rfl
    obtain ⟨rfl, -⟩ := Prod.mk.inj (Except.ok.inj he)
    exact absurd ((hslotted false).1 rfl) (by decide)

end Libtarp.Event
