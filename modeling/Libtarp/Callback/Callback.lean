import Libtarp.Lib.Owned
import Libtarp.Lib.Run

/-!
# The callback container (`callback.hxx`)

A `Callback` is a context pointer and a function pointer. Only a callable is put in a box on the heap, and
then the context is that box and the function is `invoke_erased`, by which a callback knows that the box is
its own to delete. Functions and methods stay in what they are called with.

What a callable, a function or a method does is up to the user: it acts on a world `ω` that holds no
callback. A callable is in its box as the user passed it, an lvalue by reference. Allocation does not fail.

* `exec`: one call on one of any number of objects.
* `spec`: what the callbacks are for, which are values there.
-/

namespace Libtarp.Callbacks

open Function Lib

variable {ι γ φ μ κ ω α ρ : Type}

/-- A `void *`: the callers' pointers `κ`, or the address of a box. -/
inductive Context (κ : Type) where
  | null
  | object (obj : κ)
  | box (a : ℕ)
deriving DecidableEq

/-- A pointer the caller can pass. -/
def Context.user : Option κ → Context κ
  | none => .null
  | some obj => .object obj

/-- A `FuncPtr`: `base_box::invoke_erased`, a function of the caller or the lambda that calls `Method`. -/
inductive FuncPtr (φ μ : Type) where
  | invokeErased
  | function (func : φ)
  | method (m : μ)
deriving DecidableEq

/-- `class Callback`. -/
structure Callback (φ μ κ : Type) where
  context : Context κ
  function : Option (FuncPtr φ μ)
deriving DecidableEq

inductive Fault where
  /-- there is no such object, or there is one already -/
  | noObject
  /-- a null pointer is called -/
  | nullCall
  /-- a box is deleted or used that is not there -/
  | badBox
deriving DecidableEq

/-- What callables, functions and methods do. -/
structure Code (γ φ μ κ ω α ρ : Type) where
  callable : γ → α → ω → ω × ρ
  function : φ → Option κ → α → ω → ω × ρ
  method : μ → Option κ → α → ω → ω × ρ

/-! ## The members -/

def Callback.empty : Callback φ μ κ := ⟨.null, none⟩

/-- `reset`. Deleting a null pointer is nothing. -/
def reset (h : Store γ) (this : Callback φ μ κ) : Except Fault (Store γ × Callback φ μ κ) :=
  match this.function with
  | some .invokeErased =>
    match this.context with
    | .null => .ok (h, .empty)
    | .object _ => .error .badBox
    | .box a =>
      match h.release a with
      | none => .error .badBox
      | some h' => .ok (h', .empty)
  | _ => .ok (h, .empty)

/-- `bind`, of a callable. -/
def bindCallable (h : Store γ) (this : Callback φ μ κ) (g : γ) : Except Fault (Store γ × Callback φ μ κ) :=
  match reset h this with
  | .error e => .error e
  | .ok (h', _) => .ok (h'.alloc g, ⟨.box h'.next, some .invokeErased⟩)

/-- `bind`, of a function and what it is called with. -/
def bindFunction (h : Store γ) (this : Callback φ μ κ) (obj : Option κ) (func : φ) :
    Except Fault (Store γ × Callback φ μ κ) :=
  match reset h this with
  | .error e => .error e
  | .ok (h', _) => .ok (h', ⟨.user obj, some (.function func)⟩)

/-- `bind<Method>`. -/
def bindMethod (h : Store γ) (this : Callback φ μ κ) (obj : Option κ) (m : μ) :
    Except Fault (Store γ × Callback φ μ κ) :=
  match reset h this with
  | .error e => .error e
  | .ok (h', _) => .ok (h', ⟨.user obj, some (.method m)⟩)

/-- Copy assignment from another object. -/
def copyAssign (h : Store γ) (this other : Callback φ μ κ) : Except Fault (Store γ × Callback φ μ κ) :=
  match reset h this with
  | .error e => .error e
  | .ok (h', _) =>
    match other.function with
    | some .invokeErased =>
      match other.context with
      | .box a =>
        match h'.read a with
        | none => .error .badBox
        | some g => .ok (h'.alloc g, ⟨.box h'.next, other.function⟩)
      | _ => .error .badBox
    | f => .ok (h', ⟨other.context, f⟩)

/-- Move assignment from another object, which is emptied. -/
def moveAssign (h : Store γ) (this other : Callback φ μ κ) :
    Except Fault (Store γ × Callback φ μ κ × Callback φ μ κ) :=
  match reset h this with
  | .error e => .error e
  | .ok (h', _) => .ok (h', ⟨other.context, other.function⟩, .empty)

/-- The pointer as a function of the caller takes it. -/
def Context.toUser : Context κ → Option κ
  | .object obj => some obj
  | _ => none

/-- `operator()`. -/
def invoke (code : Code γ φ μ κ ω α ρ) (h : Store γ) (this : Callback φ μ κ) (args : α) (w : ω) :
    Except Fault (ω × ρ) :=
  match this.function with
  | none => .error .nullCall
  | some .invokeErased =>
    match this.context with
    | .box a =>
      match h.read a with
      | none => .error .badBox
      | some g => .ok (code.callable g args w)
    | _ => .error .badBox
  | some (.function func) => .ok (code.function func this.context.toUser args w)
  | some (.method m) => .ok (code.method m this.context.toUser args w)

/-! ## Any number of objects -/

structure State (ι γ φ μ κ ω : Type) where
  heap : Store γ
  objs : ι → Option (Callback φ μ κ)
  world : ω

inductive Call (ι γ φ μ κ α : Type) where
  | construct (i : ι)
  | copyConstruct (i other : ι)
  | moveConstruct (i other : ι)
  | bindCallable (i : ι) (g : γ)
  | bindFunction (i : ι) (obj : Option κ) (func : φ)
  | bindMethod (i : ι) (obj : Option κ) (m : μ)
  | reset (i : ι)
  | copyAssign (i other : ι)
  | moveAssign (i other : ι)
  | destroy (i : ι)
  /-- `operator bool` -/
  | toBool (i : ι)
  | call (i : ι) (args : α)

inductive Answer (ρ : Type) where
  | done
  | bool (b : Bool)
  | returned (r : ρ)
deriving DecidableEq

variable [DecidableEq ι]

/-- The member of one object. -/
def State.on (s : State ι γ φ μ κ ω) (i : ι)
    (f : Callback φ μ κ → Except Fault (Store γ × Callback φ μ κ)) : Except Fault (State ι γ φ μ κ ω × Answer ρ) :=
  match s.objs i with
  | none => .error .noObject
  | some this =>
    match f this with
    | .error e => .error e
    | .ok (h, this') => .ok ({ s with heap := h, objs := update s.objs i (some this') }, .done)

/-- The copy constructor assigns to an empty object. -/
def exec (code : Code γ φ μ κ ω α ρ) :
    Call ι γ φ μ κ α → State ι γ φ μ κ ω → Except Fault (State ι γ φ μ κ ω × Answer ρ)
  | .construct i, s =>
    match s.objs i with
    | some _ => .error .noObject
    | none => .ok ({ s with objs := update s.objs i (some .empty) }, .done)
  | .copyConstruct i j, s =>
    match s.objs i, s.objs j with
    | none, some other =>
      match copyAssign s.heap .empty other with
      | .error e => .error e
      | .ok (h, this) => .ok ({ s with heap := h, objs := update s.objs i (some this) }, .done)
    | _, _ => .error .noObject
  | .moveConstruct i j, s =>
    match s.objs i, s.objs j with
    | none, some other =>
      .ok ({ s with objs := update (update s.objs i (some ⟨other.context, other.function⟩)) j (some .empty) }, .done)
    | _, _ => .error .noObject
  | .bindCallable i g, s => s.on i fun this => bindCallable s.heap this g
  | .bindFunction i obj func, s => s.on i fun this => bindFunction s.heap this obj func
  | .bindMethod i obj m, s => s.on i fun this => bindMethod s.heap this obj m
  | .reset i, s => s.on i fun this => reset s.heap this
  | .copyAssign i j, s =>
    match s.objs i, s.objs j with
    | some this, some other =>
      if i = j then .ok (s, .done)
      else
        match copyAssign s.heap this other with
        | .error e => .error e
        | .ok (h, this') => .ok ({ s with heap := h, objs := update s.objs i (some this') }, .done)
    | _, _ => .error .noObject
  | .moveAssign i j, s =>
    match s.objs i, s.objs j with
    | some this, some other =>
      if i = j then .ok (s, .done)
      else
        match moveAssign s.heap this other with
        | .error e => .error e
        | .ok (h, this', other') =>
          .ok ({ s with heap := h, objs := update (update s.objs i (some this')) j (some other') }, .done)
    | _, _ => .error .noObject
  | .destroy i, s =>
    match s.objs i with
    | none => .error .noObject
    | some this =>
      match reset s.heap this with
      | .error e => .error e
      | .ok (h, _) => .ok ({ s with heap := h, objs := update s.objs i none }, .done)
  | .toBool i, s =>
    match s.objs i with
    | none => .error .noObject
    | some this => .ok (s, .bool this.function.isSome)
  | .call i args, s =>
    match s.objs i with
    | none => .error .noObject
    | some this =>
      match invoke code s.heap this args s.world with
      | .error e => .error e
      | .ok (w, r) => .ok ({ s with world := w }, .returned r)

theorem exec_construct (code : Code γ φ μ κ ω α ρ) {s : State ι γ φ μ κ ω} {i : ι} (hi : s.objs i = none) :
    exec code (.construct i) s = .ok ({ s with objs := update s.objs i (some .empty) }, .done) := by
  simp only [exec, hi]

omit [DecidableEq ι] in
/-- No object, and an empty heap. -/
def start (w : ω) : State ι γ φ μ κ ω := ⟨.empty, fun _ => none, w⟩

/-! ## Callbacks as values -/

/-- What a callback is bound to. -/
inductive Bound (γ φ μ κ : Type) where
  | callable (g : γ)
  | function (obj : Option κ) (func : φ)
  | method (obj : Option κ) (m : μ)
deriving DecidableEq

def Bound.run (code : Code γ φ μ κ ω α ρ) : Bound γ φ μ κ → α → ω → ω × ρ
  | .callable g => code.callable g
  | .function obj func => code.function func obj
  | .method obj m => code.method m obj

/-- The objects that there are, each bound or not. -/
structure Values (ι γ φ μ κ ω : Type) where
  bound : ι → Option (Option (Bound γ φ μ κ))
  world : ω

def Values.set (t : Values ι γ φ μ κ ω) (i : ι) (b : Option (Option (Bound γ φ μ κ))) : Values ι γ φ μ κ ω :=
  { t with bound := update t.bound i b }

/-- What callbacks are for: copying copies what is bound, moving leaves the source unbound. -/
def spec (code : Code γ φ μ κ ω α ρ) :
    Call ι γ φ μ κ α → Values ι γ φ μ κ ω → Except Fault (Values ι γ φ μ κ ω × Answer ρ)
  | .construct i, t =>
    match t.bound i with
    | some _ => .error .noObject
    | none => .ok (t.set i (some none), .done)
  | .copyConstruct i j, t =>
    match t.bound i, t.bound j with
    | none, some b => .ok (t.set i (some b), .done)
    | _, _ => .error .noObject
  | .moveConstruct i j, t =>
    match t.bound i, t.bound j with
    | none, some b => .ok ((t.set i (some b)).set j (some none), .done)
    | _, _ => .error .noObject
  | .bindCallable i g, t => if (t.bound i).isNone then .error .noObject else .ok (t.set i (some (some (.callable g))), .done)
  | .bindFunction i obj func, t =>
    if (t.bound i).isNone then .error .noObject else .ok (t.set i (some (some (.function obj func))), .done)
  | .bindMethod i obj m, t =>
    if (t.bound i).isNone then .error .noObject else .ok (t.set i (some (some (.method obj m))), .done)
  | .reset i, t => if (t.bound i).isNone then .error .noObject else .ok (t.set i (some none), .done)
  | .copyAssign i j, t =>
    match t.bound i, t.bound j with
    | some _, some b => .ok (t.set i (some b), .done)
    | _, _ => .error .noObject
  | .moveAssign i j, t =>
    match t.bound i, t.bound j with
    | some _, some b => .ok (if i = j then t else (t.set i (some b)).set j (some none), .done)
    | _, _ => .error .noObject
  | .destroy i, t => if (t.bound i).isNone then .error .noObject else .ok (t.set i none, .done)
  | .toBool i, t =>
    match t.bound i with
    | none => .error .noObject
    | some b => .ok (t, .bool b.isSome)
  | .call i args, t =>
    match t.bound i with
    | none => .error .noObject
    | some none => .error .nullCall
    | some (some b) => .ok ({ t with world := (b.run code args t.world).1 }, .returned (b.run code args t.world).2)

theorem spec_construct (code : Code γ φ μ κ ω α ρ) {t : Values ι γ φ μ κ ω} {i : ι} (hi : t.bound i = none) :
    spec code (.construct i) t = .ok (t.set i (some none), .done) := by
  simp only [spec, hi]

end Libtarp.Callbacks
