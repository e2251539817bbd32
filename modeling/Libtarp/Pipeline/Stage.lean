import Mathlib.Data.List.Basic

/-!
# Stages and pipelines (`pipeline.hxx`)

A stage takes one value after the other. `process_input` may leave its result unset, and then the stage puts nothing
out. The stages that follow are connected to the signal `output`; what they do with a value is not part of the stage.

A stage that joins another is one more slot of the signal `output` of that one, and it has a signal of its own. A value
goes through a pipeline depth first: a stage emits to its slots in the order they joined, and each of these emits to its
own before the next one gets the value. A stage joins one other at most, so that a pipeline is a tree. The value that is
emitted is moved into one slot after the other, so that each gets what the moves into those before it left.

* `outputs`: what a stage puts out for each value of a sequence, if anything.
* `outputs_eq_of_step`: what one value tells about a stage whose state depends on the values before it, for a sequence.
* `Slots.emit`, `Slots.feed`: one value and a sequence of values through a pipeline.
* `Slots.through`: the same pipeline, where each stage takes all of its values before the next one takes any.
* `Slots.alone`: the same, where nothing is moved from. That is so for values that moving leaves as they are.
* `emit_through`: value by value or stage by stage comes to the same.
-/

namespace Libtarp.Pipeline

variable {σ ι ω : Type}

/-- `PipelineStage`, over the state of the class that extends it. -/
structure Stage (σ : Type) where
  state : σ
  isTerminal : Bool

/-- The constructor of `PipelineStage`. -/
def Stage.new (state : σ) : Stage σ where
  state := state
  isTerminal := false

/-- `make_terminal`. -/
def Stage.makeTerminal (s : Stage σ) : Stage σ := { s with isTerminal := true }

/-- `process`, with what it emits. -/
def Stage.process (processInput : ι → σ → σ × Option ω) (value : ι) (s : Stage σ) : Stage σ × Option ω :=
  match processInput value s.state with
  | (state, none) => ({ s with state := state }, none)
  | (state, some result) => ({ s with state := state }, if s.isTerminal then none else some result)

/-- What is emitted for each of the values. -/
def outputs (processInput : ι → σ → σ × Option ω) : List ι → Stage σ → List (Option ω)
  | [], _ => []
  | value :: values, s =>
    (s.process processInput value).2 :: outputs processInput values (s.process processInput value).1

variable {processInput : ι → σ → σ × Option ω}

/-- A stage that is not terminal emits what `process_input` sets. -/
theorem process_eq (value : ι) (state : σ) :
    (Stage.new state).process processInput value =
      (Stage.new (processInput value state).1, (processInput value state).2) := by
  unfold Stage.process Stage.new
  dsimp only
  rcases processInput value state with ⟨state', _ | result⟩
  · rfl
  · rfl

/-- A terminal stage is silent. -/
theorem process_terminal (processInput : ι → σ → σ × Option ω) (value : ι) {s : Stage σ} (h : s.isTerminal = true) :
    (s.process processInput value).2 = none ∧ (s.process processInput value).1.isTerminal = true := by
  unfold Stage.process
  rcases processInput value s.state with ⟨state', _ | result⟩
  · exact ⟨rfl, h⟩
  · exact ⟨if_pos h, h⟩

theorem outputs_terminal (values : List ι) (s : Stage σ) :
    outputs processInput values s.makeTerminal = List.replicate values.length none := by
  have hterminal : ∀ (values : List ι) (s : Stage σ), s.isTerminal = true →
      outputs processInput values s = List.replicate values.length none := by
    intro values
    induction values with
    | nil => exact fun _ _ => rfl
    | cons value values ih =>
      intro s hs
      obtain ⟨hnone, hnext⟩ := process_terminal processInput value hs
      rw [outputs, hnone, ih _ hnext, List.length_cons, List.replicate_succ]
  exact hterminal values _ rfl

/-- **The run of a stage.** `Inv past` is what holds of the state after the values `past`. -/
theorem outputs_eq_of_step (Inv : List ι → σ → Prop) (result : List ι → Option ω)
    (step : ∀ past value state, Inv past state →
      Inv (past ++ [value]) (processInput value state).1 ∧ (processInput value state).2 = result (past ++ [value]))
    {state : σ} (h0 : Inv [] state) (values : List ι) :
    outputs processInput values (Stage.new state) =
      (List.range values.length).map fun i => result (values.take (i + 1)) := by
  -- the induction is on the values to come, for any values that came before
  have run : ∀ (values past : List ι) (state : σ), Inv past state →
      outputs processInput values (Stage.new state) =
        (List.range values.length).map fun i => result (past ++ values.take (i + 1)) := by
    intro values
    induction values with
    | nil => exact fun _ _ _ => rfl
    | cons value values ih =>
      intro past state h
      obtain ⟨hnext, hresult⟩ := step past value state h
      rw [outputs, process_eq]
      dsimp only
      rw [ih _ _ hnext, hresult, List.length_cons, List.range_succ_eq_map, List.map_cons, List.map_map]
      congr 1
      apply List.map_congr_left
      intro i _
      rw [List.append_assoc]
      rfl
  exact run values [] state h0

/-! ## Pipelines -/

variable {α : Type}

/-- The slots of a signal of values `α`: each a stage with the slots of its own signal, and what it emitted. `moved` is
what moving leaves of a value of that signal. -/
inductive Slots : Type → Type 1
  | none {α : Type} : Slots α
  | join {σ α β : Type} (processInput : α → σ → σ × Option β) (stage : Stage σ) (emitted : List β) (moved : β → β)
      (output : Slots β) (next : Slots α) : Slots α

/-- `emit`, and the calls of `process` that it makes. The value is forwarded to each slot in turn. -/
def Slots.emit : {α : Type} → (α → α) → α → Slots α → Slots α
  | _, _, _, .none => .none
  | _, moved, value, .join processInput stage emitted moved' output next =>
    match stage.process processInput value with
    | (stage', Option.none) => .join processInput stage' emitted moved' output (next.emit moved (moved value))
    | (stage', some result) =>
      .join processInput stage' (emitted ++ [result]) moved' (output.emit moved' result)
        (next.emit moved (moved value))

/-- One value after the other. -/
def Slots.feed (moved : α → α) (values : List α) (slots : Slots α) : Slots α :=
  values.foldl (fun slots value => slots.emit moved value) slots

/-- A stage after a sequence of values. -/
def Stage.after (processInput : ι → σ → σ × Option ω) (values : List ι) (s : Stage σ) : Stage σ :=
  values.foldl (fun s value => (s.process processInput value).1) s

/-- What it emits for them. -/
def emissions (processInput : ι → σ → σ × Option ω) (values : List ι) (s : Stage σ) : List ω :=
  (outputs processInput values s).filterMap id

/-- Each stage takes all values that the one before it emits, as if it stood alone. Those before it in its signal have
been there first. -/
def Slots.through : {α : Type} → (α → α) → List α → Slots α → Slots α
  | _, _, _, .none => .none
  | _, moved, values, .join processInput stage emitted moved' output next =>
    .join processInput (stage.after processInput values) (emitted ++ emissions processInput values stage) moved'
      (output.through moved' (emissions processInput values stage)) (next.through moved (values.map moved))

/-- Each stage takes the values as the one before it emits them. -/
def Slots.alone : {α : Type} → List α → Slots α → Slots α
  | _, _, .none => .none
  | _, values, .join processInput stage emitted moved' output next =>
    .join processInput (stage.after processInput values) (emitted ++ emissions processInput values stage) moved'
      (output.alone (emissions processInput values stage)) (next.alone values)

/-- In every signal there is one slot at most, or moving leaves its values as they are. -/
def Slots.Unmoved : {α : Type} → (α → α) → Slots α → Prop
  | _, _, .none => True
  | _, moved, .join _ _ _ moved' output next =>
    (next = .none ∨ ∀ value, moved value = value) ∧ output.Unmoved moved' ∧ next.Unmoved moved

theorem after_concat (values : List ι) (value : ι) (s : Stage σ) :
    s.after processInput (values ++ [value]) = ((s.after processInput values).process processInput value).1 :=
  List.foldl_concat ..

theorem outputs_append (values more : List ι) (s : Stage σ) : outputs processInput (values ++ more) s =
    outputs processInput values s ++ outputs processInput more (s.after processInput values) := by
  induction values generalizing s with
  | nil => rfl
  | cons value values ih =>
    rw [List.cons_append, outputs, ih, outputs]
    rfl

theorem emissions_concat (values : List ι) (value : ι) (s : Stage σ) :
    emissions processInput (values ++ [value]) s =
      emissions processInput values s ++ ((s.after processInput values).process processInput value).2.toList := by
  unfold emissions
  rw [outputs_append, List.filterMap_append]
  unfold outputs
  cases ((s.after processInput values).process processInput value).2 <;> rfl

theorem through_nil (moved : α → α) (slots : Slots α) : slots.through moved [] = slots := by
  induction slots with
  | none => rfl
  | join processInput stage emitted moved' output next ih₁ ih₂ =>
    show Slots.join processInput stage (emitted ++ []) moved' (output.through moved' []) (next.through moved []) = _
    rw [ih₁, ih₂, List.append_nil]

/-- **One more value.** The stages before have taken all of theirs, and the value goes through depth first. -/
theorem emit_of_through (moved : α → α) (values : List α) (value : α) (slots : Slots α) :
    (slots.through moved values).emit moved value = slots.through moved (values ++ [value]) := by
  induction slots with
  | none => rfl
  | join processInput stage emitted moved' output next ih₁ ih₂ =>
    have hstage : stage.after processInput (values ++ [value]) = _ := after_concat values value stage
    have hemit : emissions processInput (values ++ [value]) stage = _ := emissions_concat values value stage
    unfold Slots.through Slots.emit
    rw [hstage, hemit, List.map_append, List.map_singleton]
    rcases (stage.after processInput values).process processInput value with ⟨stage', _ | result⟩
    · simp only [Option.toList_none, List.append_nil]
      rw [ih₂]
    · simp only [Option.toList_some]
      rw [ih₁, ih₂, List.append_assoc]

theorem feed_eq (moved : α → α) (values : List α) (slots : Slots α) :
    slots.feed moved values = slots.through moved values := by
  have run : ∀ (values past : List α), (slots.through moved past).feed moved values =
      slots.through moved (past ++ values) := by
    intro values
    induction values with
    | nil => exact fun past => by rw [List.append_nil]; rfl
    | cons value values ih =>
      intro past
      show ((slots.through moved past).emit moved value).feed moved values = _
      rw [emit_of_through, ih, List.append_assoc]
      rfl
  have hall := run values []
  rwa [through_nil, List.nil_append] at hall

/-- No stage finds a value that was moved from. -/
theorem through_of_unmoved (moved : α → α) (values : List α) {slots : Slots α} (h : slots.Unmoved moved) :
    slots.through moved values = slots.alone values := by
  induction slots with
  | none => rfl
  | join processInput stage emitted moved' output next ih₁ ih₂ =>
    obtain ⟨hmoved, houtput, hnext⟩ := h
    unfold Slots.through Slots.alone
    rw [ih₁ moved' _ houtput, ih₂ moved _ hnext]
    rcases hmoved with rfl | hfixed
    · rfl
    · rw [show moved = id from funext hfixed, List.map_id]

/-- **Value by value or stage by stage.** However a pipeline branches, every stage takes and emits what it would take
and emit if it stood alone behind the stage it joined. Of the other branches only the number of those that joined before
it makes a difference, since each of them moves the value, and none does where moving leaves the values as they are;
behind a stage that was made terminal nothing happens. -/
theorem emit_through (moved : α → α) (values : List α) (slots : Slots α) :
    slots.feed moved values = slots.through moved values ∧
    (slots.Unmoved moved → slots.feed moved values = slots.alone values) ∧
    ∀ {σ β : Type} (processInput : α → σ → σ × Option β) (stage : Stage σ) (emitted : List β) (moved' : β → β)
      (output : Slots β),
      (Slots.join processInput stage.makeTerminal emitted moved' output slots).feed moved values =
        .join processInput (stage.makeTerminal.after processInput values) emitted moved' output
          (slots.feed moved (values.map moved)) := by
  refine ⟨feed_eq moved values slots, fun h => (feed_eq moved values slots).trans (through_of_unmoved moved values h),
    fun processInput stage emitted moved' output => ?_⟩
  have hsilent : emissions processInput values stage.makeTerminal = [] := by
    unfold emissions
    rw [outputs_terminal, List.filterMap_eq_nil_iff]
    intro o ho
    exact List.eq_of_mem_replicate ho
  rw [feed_eq, feed_eq, Slots.through, hsilent, through_nil, List.append_nil]

end Libtarp.Pipeline
