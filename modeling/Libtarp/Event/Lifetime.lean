import Libtarp.Lib.Transition

/-!
# The life of a callback object (`event.cxx`, `event.txx`, `event.c`)

One callback object of an event pump, with its handle. The pump's map has a shared pointer to the object while it is
tracked, others have some, and its own function may hold one that it has captured: the object is freed with the last of
these. The handle is freed when the object dies, which is when its function returns false or the pump is destroyed.

The events are calls of the user, from the function too, and what the pump does. `call` is left to the pump, and `die`,
which `event.hxx` keeps from users; the function of an object does not throw, set that function, run the pump or destroy
it; and the events of at most two descriptors are there at once, so that `pump_os_events` reads what was reported.

* `die`, `activate`, `deactivate`, `dispatch`, `returns`, `destroyPump`: the code.
* `Safe`: the only accesses to freed memory are those after a call of a descriptor's function that returns false.
* `Closed`: an object that has died is freed when nobody else refers to it.
* `accesses_known`: so it is in every run.
-/

namespace Libtarp.Event

open Lib

/-- `TimerEventCallback`, `FdEventCallback` and `UserEventCallback`. -/
inductive CallbackKind
  | timer
  | fd
  | user
  deriving DecidableEq

/-- A callback object, what is known of it to the pump and to others, and what has been accessed. -/
structure CallbackObject where
  kind : CallbackKind
  /-- `m_func`, and whether it holds a pointer to the object. -/
  func : Option Bool
  isActive : Bool
  isDead : Bool
  /-- The handle is there, and registered with the pump. -/
  handle : Bool
  registered : Bool
  /-- The handle is in the queue of what is to be dispatched. -/
  queued : Bool
  /-- The object is in `m_callbacks`. -/
  tracked : Bool
  /-- The pump is there. -/
  pump : Bool
  /-- The pointers of others. -/
  references : ℕ
  /-- The function is being called. -/
  calling : Bool
  /-- How often the object was freed. -/
  frees : ℕ
  /-- How many pointers others had when the function returned false. -/
  ended : Option ℕ
  /-- A freed object, or handle, was accessed. -/
  badObject : Bool
  badHandle : Bool
  deriving DecidableEq

inductive LifeEvent
  /-- Someone copies a pointer to the object, or lets one go. -/
  | copy
  | drop
  /-- `set_func`; whether the function holds a pointer to the object. -/
  | setFunc (holds : Bool)
  /-- `activate`, and whether the operating system or the clock would let it. -/
  | activate (ok : Bool)
  | deactivate
  /-- `pump_os_events` queues the handle. -/
  | ready
  /-- The pump calls the object. -/
  | dispatch
  /-- The function returns, and whether a timer can be activated then. -/
  | returns (again ok : Bool)
  | destroyPump
  deriving DecidableEq

namespace CallbackObject

/-- What `set_timer_callback` and its siblings leave where they succeed, and what `make_explicit_timer_callback` and its
siblings return. -/
def new (kind : CallbackKind) (isExplicit : Bool) : CallbackObject where
  kind := kind
  func := if isExplicit then none else some false
  isActive := !isExplicit
  isDead := false
  handle := true
  registered := !isExplicit
  queued := false
  tracked := true
  pump := true
  references := if isExplicit then 1 else 0
  calling := false
  frees := 0
  ended := none
  badObject := false
  badHandle := false

/-- The shared pointers to the object. -/
def owners (s : CallbackObject) : ℕ :=
  s.references + (if s.tracked then 1 else 0) + if s.func = some true then 1 else 0

def touchObject (s : CallbackObject) : CallbackObject := { s with badObject := s.badObject || decide (0 < s.frees) }

def touchHandle (s : CallbackObject) : CallbackObject := { s with badHandle := s.badHandle || !s.handle }

/-- `deactivate`. -/
def deactivate (s : CallbackObject) : CallbackObject :=
  if s.isActive ∧ s.pump then { s.touchHandle with registered := false, isActive := false } else s

/-- `die`, of an object that is not dead. -/
def kill (s : CallbackObject) : CallbackObject :=
  let s := s.deactivate
  { s with handle := false, isDead := true, func := none, tracked := s.tracked && !s.pump }

/-- The destructor is called when the last pointer has gone. It calls `die`. -/
def release (s : CallbackObject) : CallbackObject :=
  if s.owners = 0 then
    let s := if s.isDead then s else s.kill
    { s with frees := s.frees + 1 }
  else s

/-- `die`. -/
def die (s : CallbackObject) : CallbackObject := if s.isDead then s else s.kill.release

/-- `activate`. Without a function it throws. -/
def activate (ok : Bool) (s : CallbackObject) : CallbackObject :=
  if s.isDead ∨ s.pump = false ∨ s.func = none then s
  else
    let s := s.touchHandle
    if s.registered = false ∧ ok then { s with registered := true, isActive := true } else s

/-- `dispatch_events` comes to the object. A timer has been taken out of the queue of timers, a descriptor out of that
of the events. -/
def dispatch (s : CallbackObject) : CallbackObject :=
  let s := s.touchHandle.touchObject
  let s := { s with calling := s.func.isSome }
  match s.kind with
  | .timer => { s with registered := false }
  | .fd => { s with queued := false }
  | .user => s

/-- The rest of `call`, and of `dispatch_events`. -/
def rest (kind : CallbackKind) (again ok : Bool) (s : CallbackObject) : CallbackObject :=
  match kind with
  | .timer => if again then s.activate ok else s.die
  -- `m_revents = 0`, and then `fdev->revents = 0`
  | .fd => (if again then s else s.die).touchObject.touchHandle
  | .user => if again then s else s.die

/-- The function has returned. -/
def returns (again ok : Bool) (s : CallbackObject) : CallbackObject :=
  { ({ s.touchObject with calling := false } : CallbackObject).rest s.kind again ok with
    ended := if again then s.ended else some s.references }

/-- The destructor of the pump. `Evp_destroy` clears the queue, of which it accesses no handle. -/
def destroyPump (s : CallbackObject) : CallbackObject :=
  if s.tracked then { ({ s with pump := false } : CallbackObject).die with queued := false, tracked := false }.release
  else { s with pump := false, queued := false }

/-- Someone has a pointer. -/
def Held (s : CallbackObject) : Prop := 0 < s.references ∨ s.calling = true ∧ s.func = some true

instance (s : CallbackObject) : Decidable s.Held := inferInstanceAs (Decidable (_ ∨ _))

/-- A timer has expired, an event of a descriptor is next in the queue, or one of the user's is. -/
def pending (s : CallbackObject) : Bool :=
  match s.kind with
  | .timer | .user => s.registered
  | .fd => s.queued

/-- The pump is about to call the object. -/
def Called (s : CallbackObject) : Prop := s.pump = true ∧ s.calling = false ∧ s.pending = true

instance (s : CallbackObject) : Decidable s.Called := inferInstanceAs (Decidable (_ ∧ _))

def step (e : LifeEvent) (s : CallbackObject) : Option CallbackObject :=
  match e with
  | .copy => if s.Held then some { s with references := s.references + 1 } else none
  | .drop => if 0 < s.references then some { s with references := s.references - 1 }.release else none
  | .setFunc holds => if 0 < s.references ∧ s.calling = false then some { s with func := some holds } else none
  | .activate ok => if s.Held then some (s.activate ok) else none
  | .deactivate => if s.Held then some s.deactivate else none
  | .ready =>
    if s.kind = .fd ∧ s.pump ∧ s.registered ∧ s.queued = false ∧ s.calling = false then some { s with queued := true }
    else none
  | .dispatch => if s.Called then some s.dispatch else none
  | .returns again ok => if s.calling then some (s.returns again ok) else none
  | .destroyPump => if s.pump ∧ s.calling = false then some s.destroyPump else none

/-! ## What is to hold -/

/-- **What is accessed.** The pump calls objects that are alive, an object is freed once, with the last pointer to it,
and what is freed is not accessed but after the function of a descriptor has returned false: the handle then always is,
and the object is where nobody else had a pointer to it. -/
structure Safe (s : CallbackObject) : Prop where
  called : s.Called → s.isDead = false ∧ s.handle = true ∧ s.frees = 0 ∧ s.func ≠ none
  frees : s.frees = if s.owners = 0 then 1 else 0
  handle : s.badHandle = true ↔ s.kind = .fd ∧ s.ended ≠ none
  object : s.badObject = true ↔ s.kind = .fd ∧ s.ended = some 0

/-- No function is set for an object that has died. -/
def Final (e : LifeEvent) (s : CallbackObject) : Prop := ∀ holds, e = .setFunc holds → s.isDead = false

/-- **Nothing is left over** of an object that has died, or whose pump is gone, when the others let it go. -/
def Closed (s : CallbackObject) : Prop :=
  s.isDead = true ∨ s.pump = false → s.func = none ∧ s.tracked = false ∧ s.handle = false ∧
    (s.frees = 1 ↔ s.references = 0)

/-! ## What is kept -/

variable {s s' : CallbackObject}

/-- The invariant. -/
structure Kept (s : CallbackObject) : Prop where
  alive : s.isDead = false → s.pump = true ∧ s.tracked = true ∧ s.handle = true
  dead : s.isDead = true → s.tracked = false ∧ s.handle = false ∧ s.queued = false ∧ s.calling = false ∧
    (s.pump = true → s.registered = false ∧ s.isActive = false)
  active : s.registered = true → s.isActive = true
  func : s.isDead = false → s.registered = true ∨ s.queued = true ∨ s.calling = true → s.func ≠ none
  queue : s.queued = true → s.kind = .fd ∧ s.calling = false
  frees : s.frees = if s.owners = 0 then 1 else 0
  ended : s.ended ≠ none → s.isDead = true
  handle : s.badHandle = true ↔ s.kind = .fd ∧ s.ended ≠ none
  object : s.badObject = true ↔ s.kind = .fd ∧ s.ended = some 0

theorem kept_new (kind : CallbackKind) (isExplicit : Bool) : Kept (new kind isExplicit) := by
  refine ⟨fun _ => ⟨rfl, rfl, rfl⟩, fun hno => absurd hno.symm Bool.true_eq_false.mp, ?_, ?_, ?_, ?_, ?_, ?_, ?_⟩
  all_goals cases isExplicit <;> simp [new, owners]

theorem Kept.frees_eq (h : Kept s) (hd : s.isDead = false) : s.frees = 0 := by
  have hone : s.owners ≠ 0 := by
    unfold owners
    rw [if_pos (h.alive hd).2.1]
    omega
  rw [h.frees, if_neg hone]

theorem touchObject_eq (h : s.frees = 0) : s.touchObject = s := by
  have hgood : (s.badObject || decide (0 < s.frees)) = s.badObject := by
    rw [h]
    exact Bool.or_false _
  unfold touchObject
  rw [hgood]

theorem touchHandle_eq (h : s.handle = true) : s.touchHandle = s := by
  have hgood : (s.badHandle || !s.handle) = s.badHandle := by
    rw [h]
    exact Bool.or_false _
  unfold touchHandle
  rw [hgood]

/-- Where the object was active, the pump lets go of the handle. -/
theorem Kept.deactivate_eq (h : Kept s) (hd : s.isDead = false) :
    s.deactivate = { s with registered := false, isActive := false } := by
  obtain ⟨hpump, -, hhandle⟩ := h.alive hd
  unfold deactivate
  by_cases hactive : s.isActive = true
  · rw [if_pos ⟨hactive, hpump⟩, touchHandle_eq hhandle]
  · have hreg : s.registered = false := Bool.eq_false_iff.2 fun hr => hactive (h.active hr)
    have hidle : s.isActive = false := Bool.eq_false_iff.2 hactive
    rw [if_neg fun hno => hactive hno.1]
    cases s
    cases hreg
    cases hidle
    rfl

/-- **An object dies.** -/
theorem Kept.die_eq (h : Kept s) (hd : s.isDead = false) : s.die =
    { s with
      registered := false
      isActive := false
      handle := false
      isDead := true
      func := none
      tracked := false
      frees := if s.references = 0 then 1 else 0 } := by
  have hfrees := h.frees_eq hd
  unfold die kill
  rw [if_neg (hd ▸ Bool.false_ne_true), h.deactivate_eq hd]
  unfold release owners
  dsimp only
  rw [(h.alive hd).1]
  by_cases hnone : s.references = 0 <;> simp [hnone, hfrees]

theorem Called.busy (hc : s.Called) : s.registered = true ∨ s.queued = true := by
  obtain ⟨-, -, hpending⟩ := hc
  unfold pending at hpending
  split at hpending
  · exact .inl hpending
  · exact .inl hpending
  · exact .inr hpending

theorem Kept.not_dead (h : Kept s) (hc : s.calling = true ∨ s.Called) : s.isDead = false := by
  rw [Bool.eq_false_iff]
  intro hd
  obtain ⟨-, -, hqueued, hcalling, hreg⟩ := h.dead hd
  rcases hc with hc | hc
  · exact absurd (hcalling.symm.trans hc) Bool.false_ne_true
  · rcases hc.busy with hr | hq
    · exact absurd ((hreg hc.1).1.symm.trans hr) Bool.false_ne_true
    · exact absurd (hqueued.symm.trans hq) Bool.false_ne_true

theorem Kept.func_of_called (h : Kept s) (hc : s.Called) : s.func ≠ none :=
  h.func (h.not_dead (.inr hc)) (hc.busy.imp_right .inl)

theorem Kept.deactivate (h : Kept s) : Kept s.deactivate := by
  cases hd : s.isDead with
  | false =>
    rw [h.deactivate_eq hd]
    refine ⟨h.alive, fun hno => absurd (hd.symm.trans hno) Bool.false_ne_true, ?_, ?_, h.queue, h.frees, h.ended,
      h.handle, h.object⟩
    · exact fun hno => absurd hno Bool.false_ne_true
    · rintro hd (hno | hbusy)
      · exact absurd hno Bool.false_ne_true
      · exact h.func hd (.inr hbusy)
  | true =>
    have hsame : s.deactivate = s := by
      unfold CallbackObject.deactivate
      rw [if_neg]
      rintro ⟨hactive, hpump⟩
      exact absurd (((h.dead hd).2.2.2.2 hpump).2.symm.trans hactive) Bool.false_ne_true
    rw [hsame]
    exact h

/-- `activate` does nothing, or registers the handle of a live object that has a function. -/
theorem Kept.activate_cases (h : Kept s) (ok : Bool) : s.activate ok = s ∨ s.isDead = false ∧ s.func ≠ none ∧
    s.activate ok = { s with registered := true, isActive := true } := by
  unfold activate
  by_cases hno : s.isDead ∨ s.pump = false ∨ s.func = none
  · rw [if_pos hno]
    exact .inl rfl
  · rw [not_or, not_or] at hno
    have hd : s.isDead = false := Bool.eq_false_iff.2 hno.1
    rw [if_neg (by rw [not_or, not_or]; exact hno), touchHandle_eq (h.alive hd).2.2]
    dsimp only
    split_ifs
    · exact .inr ⟨hd, hno.2.2, rfl⟩
    · exact .inl rfl

theorem Kept.activate (h : Kept s) (ok : Bool) : Kept (s.activate ok) := by
  rcases h.activate_cases ok with heq | ⟨hd, hfunc, heq⟩
  · rw [heq]
    exact h
  · rw [heq]
    exact ⟨h.alive, fun hno => absurd (hd.symm.trans hno) Bool.false_ne_true, fun _ => rfl, fun _ _ => hfunc, h.queue,
      h.frees, h.ended, h.handle, h.object⟩

theorem dispatch_eq (hfrees : s.frees = 0) (hhandle : s.handle = true) : s.dispatch =
    { s with
      calling := s.func.isSome
      registered := s.registered && decide (s.kind ≠ .timer)
      queued := s.queued && decide (s.kind ≠ .fd) } := by
  unfold dispatch
  rw [touchHandle_eq hhandle, touchObject_eq hfrees]
  obtain ⟨kind⟩ := s
  cases kind <;> simp

/-- **An object is called.** -/
theorem Kept.dispatch (h : Kept s) (hc : s.Called) : Kept s.dispatch := by
  have hd := h.not_dead (.inr hc)
  have hfunc := h.func_of_called hc
  rw [dispatch_eq (h.frees_eq hd) (h.alive hd).2.2]
  refine ⟨h.alive, fun hno => absurd (hd.symm.trans hno) Bool.false_ne_true, fun hr => ?_, fun _ _ => hfunc,
    fun hq => ?_, h.frees, h.ended, h.handle, h.object⟩
  · exact h.active (Bool.and_eq_true_iff.1 hr).1
  · -- an event of a descriptor has been taken out of the queue
    obtain ⟨hq, hno⟩ := Bool.and_eq_true_iff.1 hq
    exact absurd (h.queue hq).1 (of_decide_eq_true hno)

/-- Where the function returns true, the object is as it was. -/
theorem Kept.uncalled (h : Kept s) (hd : s.isDead = false) : Kept { s with calling := false } := by
  refine ⟨h.alive, fun hno => absurd (hd.symm.trans hno) Bool.false_ne_true, h.active, fun hd hbusy => h.func hd ?_,
    fun hq => ⟨(h.queue hq).1, rfl⟩, h.frees, h.ended, h.handle, h.object⟩
  rcases hbusy with hbusy | hbusy | hno
  · exact .inl hbusy
  · exact .inr (.inl hbusy)
  · exact absurd hno Bool.false_ne_true

theorem Kept.rest_true (h : Kept s) (hd : s.isDead = false) (kind : CallbackKind) (ok : Bool) :
    Kept (s.rest kind true ok) ∧ (s.rest kind true ok).ended = s.ended ∧
      (s.rest kind true ok).isDead = s.isDead := by
  cases kind with
  | timer =>
    refine ⟨h.activate ok, ?_⟩
    show (s.activate ok).ended = s.ended ∧ (s.activate ok).isDead = s.isDead
    rcases h.activate_cases ok with heq | ⟨-, -, heq⟩ <;> rw [heq] <;> exact ⟨rfl, rfl⟩
  | fd =>
    show Kept s.touchObject.touchHandle ∧ s.touchObject.touchHandle.ended = s.ended ∧
      s.touchObject.touchHandle.isDead = s.isDead
    rw [touchObject_eq (h.frees_eq hd), touchHandle_eq (h.alive hd).2.2]
    exact ⟨h, rfl, rfl⟩
  | user => exact ⟨h, rfl, rfl⟩

/-- **Where it returns false, the object dies**, and what is freed is written to if it was called for a descriptor. -/
theorem Kept.rest_false (h : Kept s) (hd : s.isDead = false) (kind : CallbackKind) (ok : Bool) :
    s.rest kind false ok =
      { s.die with
        badObject := s.badObject || decide (kind = .fd ∧ s.references = 0)
        badHandle := s.badHandle || decide (kind = .fd) } := by
  have hdie := h.die_eq hd
  unfold rest touchObject touchHandle
  cases kind <;> rw [hdie] <;> by_cases hnone : s.references = 0 <;> simp [hnone]

/-- **A function has returned.** -/
theorem Kept.returns (h : Kept s) (hc : s.calling = true) (again ok : Bool) : Kept (s.returns again ok) := by
  have hd := h.not_dead (.inl hc)
  have hback := h.uncalled hd
  unfold CallbackObject.returns
  rw [touchObject_eq (h.frees_eq hd)]
  cases again with
  | true =>
    obtain ⟨hkept, hended, -⟩ := hback.rest_true hd s.kind ok
    rw [if_pos rfl, show s.ended = _ from hended.symm]
    exact hkept
  | false =>
    have hnot : s.ended = none := by
      by_contra hno
      exact absurd (hd.symm.trans (h.ended hno)) Bool.false_ne_true
    have hqueued : s.queued = false := by
      rw [Bool.eq_false_iff]
      exact fun hq => absurd ((h.queue hq).2.symm.trans hc) Bool.false_ne_true
    have hobject : s.badObject = false := by
      rw [Bool.eq_false_iff, ne_eq, h.object, hnot]
      exact fun hno => absurd hno.2 nofun
    have hhandle : s.badHandle = false := by
      rw [Bool.eq_false_iff, ne_eq, h.handle, hnot]
      exact fun hno => hno.2 rfl
    rw [hback.rest_false hd, hback.die_eq hd]
    refine ⟨nofun, fun _ => ⟨rfl, rfl, hqueued, rfl, fun _ => ⟨rfl, rfl⟩⟩, nofun, nofun, fun hq => ?_, rfl,
      fun _ => rfl, ?_, ?_⟩
    · exact absurd (hqueued.symm.trans hq) Bool.false_ne_true
    · simp [hhandle]
    · simp [hobject]

/-- A pointer to the object has gone, which was not the pump's. -/
theorem Kept.drop (h : Kept s) (hr : 0 < s.references) : Kept { s with references := s.references - 1 }.release := by
  have hfrees : s.frees = 0 := by
    rw [h.frees, if_neg]
    unfold owners
    omega
  unfold release
  by_cases hnone : ({ s with references := s.references - 1 } : CallbackObject).owners = 0
  · -- what has no owner is not tracked, so it has died
    have hd : s.isDead = true := by
      by_contra hno
      have htracked := (h.alive (Bool.eq_false_iff.2 hno)).2.1
      unfold owners at hnone
      dsimp only at hnone
      rw [if_pos htracked] at hnone
      omega
    rw [if_pos hnone]
    dsimp only
    rw [if_pos hd]
    refine ⟨h.alive, h.dead, h.active, h.func, h.queue, ?_, h.ended, h.handle, h.object⟩
    show s.frees + 1 = if ({ s with references := s.references - 1 } : CallbackObject).owners = 0 then 1 else 0
    rw [if_pos hnone, hfrees]
  · rw [if_neg hnone]
    refine ⟨h.alive, h.dead, h.active, h.func, h.queue, ?_, h.ended, h.handle, h.object⟩
    show s.frees = _
    rw [if_neg hnone, hfrees]

/-- Where the pump is gone, nothing is deregistered or untracked. -/
theorem kill_of_gone (hpump : s.pump = false) : s.kill = { s with handle := false, isDead := true, func := none } := by
  have hidle : s.deactivate = s := by
    unfold CallbackObject.deactivate
    rw [if_neg]
    exact fun hno => absurd (hpump.symm.trans hno.2) Bool.false_ne_true
  unfold kill
  rw [hidle]
  dsimp only
  rw [hpump, Bool.not_false, Bool.and_true]

theorem die_of_gone (hpump : s.pump = false) (hd : s.isDead = false) (htracked : s.tracked = true) :
    s.die = { s with handle := false, isDead := true, func := none } := by
  unfold die release
  rw [if_neg (hd ▸ Bool.false_ne_true), kill_of_gone hpump, if_neg]
  unfold owners
  dsimp only
  rw [if_pos htracked]
  omega

theorem Kept.destroyPump_eq (h : Kept s) (hd : s.isDead = false) : s.destroyPump =
    { s with
      pump := false
      handle := false
      isDead := true
      func := none
      queued := false
      tracked := false
      frees := if s.references = 0 then 1 else 0 } := by
  have htracked := (h.alive hd).2.1
  have hfrees := h.frees_eq hd
  have hdie : ({ s with pump := false } : CallbackObject).die =
      { s with pump := false, handle := false, isDead := true, func := none } := die_of_gone rfl hd htracked
  unfold CallbackObject.destroyPump
  rw [if_pos htracked, hdie]
  unfold release owners
  by_cases hnone : s.references = 0 <;> simp [hnone, hfrees]

/-- **The pump is destroyed**, and with it the objects that it tracks die. -/
theorem Kept.destroyPump (h : Kept s) (hc : s.calling = false) : Kept s.destroyPump := by
  cases hd : s.isDead with
  | true =>
    obtain ⟨htracked, hhandle, -⟩ := h.dead hd
    unfold CallbackObject.destroyPump
    rw [if_neg (by rw [htracked]; exact Bool.false_ne_true)]
    exact ⟨fun hno => absurd (hd.symm.trans hno) nofun,
      fun _ => ⟨htracked, hhandle, rfl, hc, fun hno => absurd hno Bool.false_ne_true⟩, h.active,
      fun hno => absurd (hd.symm.trans hno) nofun, nofun, h.frees, h.ended, h.handle, h.object⟩
  | false =>
    rw [h.destroyPump_eq hd]
    exact ⟨nofun, fun _ => ⟨rfl, rfl, rfl, hc, fun hno => absurd hno Bool.false_ne_true⟩, h.active, nofun, nofun, rfl,
      fun _ => rfl, h.handle, h.object⟩

/-- Someone who has a pointer owns the object. -/
theorem Kept.frees_of_held (h : Kept s) (hheld : s.Held) : s.frees = 0 := by
  rw [h.frees, if_neg]
  unfold owners
  rcases hheld with hr | ⟨-, hfunc⟩
  · omega
  · rw [if_pos hfunc]
    omega

theorem Kept.step {e : LifeEvent} (h : Kept s) (hs : step e s = some s') : Kept s' := by
  unfold CallbackObject.step at hs
  cases e with
  | copy =>
    obtain ⟨hheld, hs⟩ := Option.ite_none_right_eq_some.1 hs
    obtain rfl := Option.some.inj hs
    refine ⟨h.alive, h.dead, h.active, h.func, h.queue, ?_, h.ended, h.handle, h.object⟩
    show s.frees = _
    rw [h.frees_of_held hheld, if_neg]
    unfold owners
    dsimp only
    omega
  | drop =>
    obtain ⟨hr, hs⟩ := Option.ite_none_right_eq_some.1 hs
    obtain rfl := Option.some.inj hs
    exact h.drop hr
  | setFunc holds =>
    obtain ⟨⟨hr, -⟩, hs⟩ := Option.ite_none_right_eq_some.1 hs
    obtain rfl := Option.some.inj hs
    refine ⟨h.alive, h.dead, h.active, fun _ _ => nofun, h.queue, ?_, h.ended, h.handle, h.object⟩
    show s.frees = _
    rw [h.frees_of_held (.inl hr), if_neg]
    unfold owners
    dsimp only
    omega
  | activate ok =>
    obtain ⟨-, hs⟩ := Option.ite_none_right_eq_some.1 hs
    obtain rfl := Option.some.inj hs
    exact h.activate ok
  | deactivate =>
    obtain ⟨-, hs⟩ := Option.ite_none_right_eq_some.1 hs
    obtain rfl := Option.some.inj hs
    exact h.deactivate
  | ready =>
    obtain ⟨⟨hkind, hpump, hreg, -, hcalling⟩, hs⟩ := Option.ite_none_right_eq_some.1 hs
    obtain rfl := Option.some.inj hs
    refine ⟨h.alive, fun hd => ?_, h.active, fun hd _ => h.func hd (.inl hreg), fun _ => ⟨hkind, hcalling⟩, h.frees,
      h.ended, h.handle, h.object⟩
    -- what is dead is not registered
    exact absurd (((h.dead hd).2.2.2.2 hpump).1.symm.trans hreg) Bool.false_ne_true
  | dispatch =>
    obtain ⟨hc, hs⟩ := Option.ite_none_right_eq_some.1 hs
    obtain rfl := Option.some.inj hs
    exact h.dispatch hc
  | returns again ok =>
    obtain ⟨hc, hs⟩ := Option.ite_none_right_eq_some.1 hs
    obtain rfl := Option.some.inj hs
    exact h.returns hc again ok
  | destroyPump =>
    obtain ⟨⟨-, hc⟩, hs⟩ := Option.ite_none_right_eq_some.1 hs
    obtain rfl := Option.some.inj hs
    exact h.destroyPump hc

/-! ## Runs -/

theorem Kept.safe (h : Kept s) : s.Safe where
  called hc := by
    have hd := h.not_dead (.inr hc)
    exact ⟨hd, (h.alive hd).2.2, h.frees_eq hd, h.func_of_called hc⟩
  frees := h.frees
  handle := h.handle
  object := h.object

/-- A function that has died with its object. -/
def Buried (s : CallbackObject) : Prop := s.isDead = true → s.func = none

theorem Kept.closed (h : Kept s) (hb : s.Buried) : s.Closed := by
  intro hor
  have hd : s.isDead = true := by
    by_contra hno
    rcases hor with hd | hpump
    · exact hno hd
    · exact absurd (hpump.symm.trans (h.alive (Bool.eq_false_iff.2 hno)).1) Bool.false_ne_true
  obtain ⟨htracked, hhandle, -⟩ := h.dead hd
  have hfunc := hb hd
  have howners : s.owners = s.references := by
    unfold owners
    rw [htracked, hfunc]
    rfl
  refine ⟨hfunc, htracked, hhandle, ?_⟩
  rw [h.frees, howners]
  split_ifs <;> simp [*]

theorem Kept.buried {e : LifeEvent} (h : Kept s) (hb : s.Buried) (hf : Final e s)
    (hs : CallbackObject.step e s = some s') : s'.Buried := by
  unfold CallbackObject.step at hs
  cases e with
  | copy =>
    obtain ⟨-, hs⟩ := Option.ite_none_right_eq_some.1 hs
    obtain rfl := Option.some.inj hs
    exact hb
  | drop =>
    obtain ⟨-, hs⟩ := Option.ite_none_right_eq_some.1 hs
    obtain rfl := Option.some.inj hs
    unfold release
    split_ifs
    · exact hb
    · exact fun _ => rfl
    · exact hb
  | setFunc holds =>
    obtain ⟨-, hs⟩ := Option.ite_none_right_eq_some.1 hs
    obtain rfl := Option.some.inj hs
    exact fun hd => absurd ((hf holds rfl).symm.trans hd) Bool.false_ne_true
  | activate ok =>
    obtain ⟨-, hs⟩ := Option.ite_none_right_eq_some.1 hs
    obtain rfl := Option.some.inj hs
    rcases h.activate_cases ok with heq | ⟨-, -, heq⟩ <;> rw [heq] <;> exact hb
  | deactivate =>
    obtain ⟨-, hs⟩ := Option.ite_none_right_eq_some.1 hs
    obtain rfl := Option.some.inj hs
    unfold CallbackObject.deactivate
    split_ifs <;> exact hb
  | ready =>
    obtain ⟨-, hs⟩ := Option.ite_none_right_eq_some.1 hs
    obtain rfl := Option.some.inj hs
    exact hb
  | dispatch =>
    obtain ⟨hc, hs⟩ := Option.ite_none_right_eq_some.1 hs
    obtain rfl := Option.some.inj hs
    have hd := h.not_dead (.inr hc)
    rw [dispatch_eq (h.frees_eq hd) (h.alive hd).2.2]
    exact hb
  | returns again ok =>
    obtain ⟨hc, hs⟩ := Option.ite_none_right_eq_some.1 hs
    obtain rfl := Option.some.inj hs
    have hd := h.not_dead (.inl hc)
    have hback := h.uncalled hd
    unfold CallbackObject.returns
    rw [touchObject_eq (h.frees_eq hd)]
    cases again with
    | true => exact fun hno => absurd ((hback.rest_true hd s.kind ok).2.2.trans hd ▸ hno) Bool.false_ne_true
    | false =>
      rw [hback.rest_false hd, hback.die_eq hd]
      exact fun _ => rfl
  | destroyPump =>
    obtain ⟨-, hs⟩ := Option.ite_none_right_eq_some.1 hs
    obtain rfl := Option.some.inj hs
    cases hd : s.isDead with
    | true =>
      unfold CallbackObject.destroyPump
      rw [if_neg (by rw [(h.dead hd).1]; exact Bool.false_ne_true)]
      exact hb
    | false =>
      rw [h.destroyPump_eq hd]
      exact fun _ => rfl

/-- **Which freed memory is accessed**, in every run of calls of the pump and its users, for an object of each kind: the
handle of a descriptor's callback whose function returns false, and the object too where the pump has the last pointer
to it. Nothing is freed twice; and what has died is not kept by a pointer to itself, unless it is given a function
then. -/
theorem accesses_known (kind : CallbackKind) (isExplicit : Bool) :
    (∀ s, Reaches step Free (new kind isExplicit) s → s.Safe) ∧
      ∀ s, Reaches step Final (new kind isExplicit) s → s.Closed := by
  constructor
  · intro s h
    have hkept : Kept s := h.invariant (fun _ _ _ hk _ hs => hk.step hs) (kept_new kind isExplicit)
    exact hkept.safe
  · intro s h
    have hboth : Kept s ∧ s.Buried := by
      refine h.invariant (I := fun s => Kept s ∧ s.Buried) ?_ ⟨kept_new kind isExplicit, nofun⟩
      exact fun _ _ _ hk hf hs => ⟨hk.1.step hs, hk.1.buried hk.2 hf hs⟩
    exact hboth.1.closed hboth.2

end CallbackObject

end Libtarp.Event
