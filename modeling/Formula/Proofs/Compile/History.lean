import Formula.Proofs.Compile.Memo

/-!
# The history of building a tree

What a tree is built to tells nothing of the states on the way: an attempt may narrow parameters and
fail, and what it has narrowed is undone before anything is returned. This module builds with a
history: every change of the state is recorded as a moment, together with the attempts that are under
way at that moment. Nothing else is changed, so the outcome and the last state are those of the
builder.

## Main definitions

* `Trial`, `Moment`, `History`: attempts, states with the attempts under way, and their sequence.
* `HistoryM`: building with a history.
* `TreeBuilder.recordedBuild`: builds a text, and records every change of the state.
* `HistoryM.Erases`: without its history, an action is a given one of the builder.

## Main results

* `TreeBuilder.erases_recordedWithin`: the recorded builder is the builder.
-/

namespace Formula

/-! ### Histories -/

/-- An attempt: the number of the moment at which it was entered, and the parameters at that moment. -/
structure Trial where
  number : Nat
  saved : List Parameter

/-- A state on the way, with the attempts under way, the innermost first. If the state comes from
undoing an attempt, it tells which one. -/
structure Moment where
  state : BuildState
  trials : List Trial := []
  undone : Option Trial := none

/-- What has happened so far: the latest moment, and those before it, the latest first. -/
structure History where
  latest : Moment
  past : List Moment := []

namespace History

/-- Nothing has been built. -/
def start (params : List Parameter) : History :=
  { latest := { state := { params } } }

/-- The moments in the order in which they came. -/
def moments (h : History) : List Moment :=
  (h.latest :: h.past).reverse

end History

/-- Building with a history. -/
abbrev HistoryM := ExceptT CompileFault (StateM History)

namespace HistoryM

variable {α β : Type}

/-- Goes on to the next moment. -/
def record (next : Moment → Moment) : HistoryM Unit :=
  modify fun h => { latest := next h.latest, past := h.latest :: h.past }

/-- The state at the latest moment. -/
def state : HistoryM BuildState :=
  return (← get).latest.state

/-- An action of the builder, as a single moment. -/
def step (m : BuildM α) : HistoryM α :=
  ExceptT.mk fun h =>
    let (outcome, state) := m.run h.latest.state
    (outcome, { latest := { h.latest with state, undone := none }, past := h.latest :: h.past })

/-- Builds, and gives the outcome as a value. -/
def observe (build : HistoryM α) : HistoryM (Except CompileFault α) :=
  ExceptT.mk do
    let outcome ← build.run
    return .ok outcome

/-- Enters an attempt. -/
def enter : HistoryM Trial := do
  let h ← get
  let trial : Trial := { number := h.past.length, saved := h.latest.state.params }
  record fun m => { m with trials := trial :: m.trials, undone := none }
  return trial

/-- Leaves the innermost attempt, with what it has built. -/
def leave : HistoryM Unit :=
  record fun m => { m with trials := m.trials.tail, undone := none }

/-- Leaves the innermost attempt, and restores the parameters. -/
def undo (trial : Trial) : HistoryM Unit :=
  record fun m =>
    { state := { m.state with params := trial.saved }
      trials := m.trials.tail
      undone := some trial }

end HistoryM

/-! ### The recorded builder -/

namespace TreeBuilder

open HistoryM

/-- Tries one way of building a text. A failure is undone, unless it ends the compilation. -/
def recordedAttempt (t : TreeBuilder) (text : Text) (way : HistoryM Node) :
    HistoryM (Option Node) := do
  step spendSplit
  let trial ← enter
  match ← observe way with
  | .ok node =>
    leave
    return some (node.fold t.registry (t.plain text))
  | .error .tooComplex => throw .tooComplex
  | .error _ =>
    undo trial
    return none

/-- The first of several ways of building a text that succeeds. -/
def recordedFirst (t : TreeBuilder) (text : Text) : List (HistoryM Node) → HistoryM (Option Node)
  | [] => return none
  | way :: ways => do
    match ← t.recordedAttempt text way with
    | some node => return some node
    | none => t.recordedFirst text ways

section Parts

variable (t : TreeBuilder) (build : Text → HistoryM Node)

/-- The ways of splitting a text at a binary operator. -/
def recordedBinaryWays (text : Text) : List (HistoryM Node) :=
  (t.candidates text).map fun s => do
    let left ← build (text.take s.place)
    let right ← build (text.drop (s.place + s.width))
    step (assemble (.binary s.op) [left, right])

/-- The ways of taking a unary operator off the front of a text. -/
def recordedUnaryWays (text : Text) : List (HistoryM Node) :=
  (t.leading text).map fun p => do
    let operand ← build p.2
    step (assemble (.unary p.1) [operand])

/-- Builds a call. -/
def recordedCall (text : Text) : HistoryM Node := do
  match t.splitCall? text with
  | none => throw (.unresolved text)
  | some (name, inner) =>
    let args := if inner = [] then [] else Text.splitAll t.tokens.separator inner
    match Function.lookup? (String.ofList name) args.length with
    | none => throw (.unknownFunction name args.length)
    | some f =>
      let operands ← args.mapM build
      let node ← step (assemble (.call f) operands)
      return node.fold t.registry (t.plain text)

/-- Builds a text that is no name. -/
def recordedComposite (text : Text) : HistoryM Node := do
  if (t.splitCall? text).isSome then t.recordedCall build text
  else
    match ← t.recordedFirst text (t.recordedBinaryWays build text) with
    | some node => return node
    | none =>
      match ← t.recordedFirst text (t.recordedUnaryWays build text) with
      | some node => return node
      | none => throw (.unresolved (t.tokens.markers.unmark text))

end Parts

/-- Builds a text once for each state of the parameters. -/
def recordedRemember (text : Text) (build : HistoryM Node) : HistoryM Node := do
  let s ← state
  let key : BuildKey := { text, masks := s.masks }
  match s.built[key]? with
  | some (.error fault) => throw fault
  | some (.ok (node, masks)) =>
    step (set (s.withMasks masks))
    return node
  | none =>
    let outcome ← observe build
    step (modify fun s =>
      { s with built := s.built.insert key (outcome.map fun node => (node, s.masks)) })
    match outcome with
    | .ok node => return node
    | .error fault => throw fault

/-- Builds what a name stands for, or a text, with `build` for its parts. -/
def recordedStep (t : TreeBuilder) (build : Text → HistoryM Node) (key : Text) :
    HistoryM Node := do
  match t.context.constant? key with
  | some constant => return .constant constant.value (String.ofList constant.text)
  | none =>
    match Context.parameterIndex? (← state).params key with
    | some id => return .parameter id
    | none =>
      match t.context.symbol? key with
      | some symbol =>
        if symbol.text = key then throw (.unresolved key)
        else if symbol.isCall then t.recordedCall build symbol.text
        else build symbol.text
      | none => recordedRemember key (t.recordedComposite build key)

/-- Builds what a name stands for, or a text; the first argument bounds the nesting. -/
def recordedWithin (t : TreeBuilder) : Nat → Text → HistoryM Node
  | 0, _ => throw .tooComplex
  | depth + 1, key => t.recordedStep (t.recordedWithin depth) key

/-- Builds what a name stands for, or a text. -/
def recordedBuild (t : TreeBuilder) (key : Text) : HistoryM Node :=
  t.recordedWithin t.depthBound key

end TreeBuilder

/-! ### Without the history -/

namespace HistoryM

variable {α β : Type}

theorem run_bind (r : HistoryM α) (f : α → HistoryM β) (h : History) :
    (r >>= f).run h =
      match r.run h with
      | (.ok a, h) => (f a).run h
      | (.error fault, h) => (.error fault, h) := by
  change ExceptT.bindCont f (r.run h).1 (r.run h).2 = _
  rcases r.run h with ⟨_ | _, _⟩ <;> rfl

/-- Without its history, a recorded action is an action of the builder. -/
def Erases (r : HistoryM α) (m : BuildM α) : Prop :=
  ∀ h, m.run h.latest.state = ((r.run h).1, (r.run h).2.latest.state)

theorem erases_pure (a : α) : Erases (pure a) (pure a) :=
  fun _ => rfl

theorem erases_throw (fault : CompileFault) : Erases (throw fault : HistoryM α) (throw fault) :=
  fun _ => rfl

theorem erases_bind {r : HistoryM α} {m : BuildM α} {f : α → HistoryM β} {g : α → BuildM β}
    (hr : Erases r m) (hf : ∀ a, Erases (f a) (g a)) : Erases (r >>= f) (m >>= g) := by
  intro h
  rw [run_bind, BuildM.run_bind, hr h]
  rcases r.run h with ⟨fault | a, h'⟩
  · rfl
  · exact hf a h'

theorem erases_step (m : BuildM α) : Erases (step m) m :=
  fun _ => rfl

theorem erases_observe {r : HistoryM α} {m : BuildM α} (hr : Erases r m) :
    Erases (observe r) (BuildM.observe m) := by
  intro h
  rw [BuildM.run_observe, hr h]
  rfl

theorem erases_state {f : BuildState → HistoryM β} {g : BuildState → BuildM β}
    (h : ∀ s, Erases (f s) (g s)) : Erases (state >>= f) (get >>= g) :=
  fun history => h history.latest.state history

theorem erases_mapM {γ : Type} {f : γ → HistoryM α} {g : γ → BuildM α} {l : List γ}
    (h : ∀ c ∈ l, Erases (f c) (g c)) : Erases (l.mapM f) (l.mapM g) := by
  induction l with
  | nil => exact erases_pure []
  | cons c l ih =>
    simp only [List.mapM_cons]
    refine erases_bind (h c (List.mem_cons_self ..)) fun a => ?_
    exact erases_bind (ih fun d hd => h d (List.mem_cons_of_mem _ hd)) fun results => erases_pure _

/-- What only the history knows of is left out. -/
theorem erases_enter {f : Trial → HistoryM β} {g : BuildState → BuildM β}
    (h : ∀ trial s, trial.saved = s.params → Erases (f trial) (g s)) :
    Erases (enter >>= f) (get >>= g) := by
  intro history
  let trial : Trial := { number := history.past.length, saved := history.latest.state.params }
  exact h trial history.latest.state rfl
    { latest := { history.latest with trials := trial :: history.latest.trials, undone := none }
      past := history.latest :: history.past }

theorem erases_leave {f : Unit → HistoryM β} {m : BuildM β} (h : Erases (f ()) m) :
    Erases (leave >>= f) m := by
  intro history
  exact h { latest := { history.latest with trials := history.latest.trials.tail, undone := none }
            past := history.latest :: history.past }

theorem erases_undo (trial : Trial) :
    Erases (undo trial) (modify fun s => { s with params := trial.saved }) :=
  fun _ => rfl

end HistoryM

namespace TreeBuilder

open HistoryM

variable {t : TreeBuilder}

theorem erases_attempt (text : Text) {r : HistoryM Node} {m : BuildM Node} (h : Erases r m) :
    Erases (t.recordedAttempt text r) (t.attempt text m) := by
  refine erases_bind (erases_step _) fun _ => erases_enter fun trial s hsaved => ?_
  refine erases_bind (erases_observe h) fun outcome => ?_
  cases outcome with
  | ok node => exact erases_leave (erases_pure _)
  | error fault =>
    rw [← hsaved]
    cases fault <;>
      first
        | exact erases_throw _
        | exact erases_bind (erases_undo trial) fun _ => erases_pure none

theorem erases_first (text : Text) {γ : Type} {l : List γ} {r : γ → HistoryM Node}
    {m : γ → BuildM Node} (h : ∀ c, Erases (r c) (m c)) :
    Erases (t.recordedFirst text (l.map r)) (t.firstSuccess text (l.map m)) := by
  induction l with
  | nil => exact erases_pure none
  | cons c l ih =>
    refine erases_bind (erases_attempt text (h c)) fun found => ?_
    cases found with
    | some node => exact erases_pure _
    | none => exact ih

section Parts

variable {r : Text → HistoryM Node} {m : Text → BuildM Node} (h : ∀ text, Erases (r text) (m text))
include h

theorem erases_binaryWays (text : Text) :
    Erases (t.recordedFirst text (t.recordedBinaryWays r text))
      (t.firstSuccess text (t.binaryWays m text)) :=
  erases_first text fun _ => erases_bind (h _) fun _ => erases_bind (h _) fun _ => erases_step _

theorem erases_unaryWays (text : Text) :
    Erases (t.recordedFirst text (t.recordedUnaryWays r text))
      (t.firstSuccess text (t.unaryWays m text)) := by
  rw [unaryWays_eq_map]
  exact erases_first text fun p => erases_bind (h p.2) fun _ => erases_step _

theorem erases_call (text : Text) : Erases (t.recordedCall r text) (t.buildCall m text) := by
  rw [recordedCall, buildCall]
  cases t.splitCall? text with
  | none => exact erases_throw _
  | some call =>
    dsimp only
    cases Function.lookup? (String.ofList call.1) (if call.2 = [] then []
      else Text.splitAll t.tokens.separator call.2).length with
    | none => exact erases_throw _
    | some f =>
      exact erases_bind (erases_mapM fun arg _ => h arg) fun operands =>
        erases_bind (erases_step _) fun node => erases_pure _

theorem erases_composite (text : Text) :
    Erases (t.recordedComposite r text) (t.buildComposite m text) := by
  rw [recordedComposite, buildComposite]
  split
  · exact erases_call h text
  · refine erases_bind (erases_binaryWays h text) fun found => ?_
    cases found with
    | some node => exact erases_pure node
    | none =>
      refine erases_bind (erases_unaryWays h text) fun found => ?_
      cases found with
      | some node => exact erases_pure node
      | none => exact erases_throw _

end Parts

theorem erases_remember (text : Text) {r : HistoryM Node} {m : BuildM Node} (h : Erases r m) :
    Erases (recordedRemember text r) (remember text m) := by
  refine erases_state fun s => ?_
  dsimp only
  cases s.built[({ text, masks := s.masks } : BuildKey)]? with
  | some entry =>
    cases entry with
    | error fault => exact erases_throw fault
    | ok built => exact erases_bind (erases_step _) fun _ => erases_pure _
  | none =>
    refine erases_bind (erases_observe h) fun outcome => erases_bind (erases_step _) fun _ => ?_
    cases outcome with
    | ok node => exact erases_pure node
    | error fault => exact erases_throw fault

/-- Without its history, the recorded builder is the builder. -/
theorem erases_recordedWithin (depth : Nat) (key : Text) :
    Erases (t.recordedWithin depth key) (t.buildWithin depth key) := by
  induction depth generalizing key with
  | zero => exact erases_throw _
  | succ depth ih =>
    rw [recordedWithin, buildWithin, recordedStep, buildStep]
    cases t.context.constant? key with
    | some constant => exact erases_pure _
    | none =>
      refine erases_state fun s => ?_
      cases Context.parameterIndex? s.params key with
      | some id => exact erases_pure _
      | none =>
        cases t.context.symbol? key with
        | none => exact erases_remember key (erases_composite ih key)
        | some symbol =>
          dsimp only
          split
          · exact erases_throw _
          · split
            · exact erases_call ih _
            · exact ih _

end TreeBuilder

end Formula
