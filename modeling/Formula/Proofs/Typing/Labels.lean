import Formula.Expression
import Formula.Proofs.Typing.Tables

/-!
# Texts and names say nothing about types

A constant of a tree carries the text it was read from, and a parameter its name. They show in the
wording of faults and nowhere else: what a tree can be made to produce, how it is determined, what it is
lowered to and what comes of an evaluation are the same without them. So every function on trees commutes
with taking the labels off.

## Main definitions

* `Node.unlabeled`, `Parameter.unnamed`, `TypeFault.unlabeled`: taking the labels off.

## Main results

* `Node.weaken_unlabeled`, `Node.strengthen_unlabeled`, `Node.assemble_unlabeled`: determination.
* `Node.lower_unlabeled`, `Node.unlabeled_fold`: lowering and folding.
* `Expression.outcome_evaluate_congr`: the outcome of an evaluation.
-/

namespace Formula

/-- The parameter without its name. -/
def Parameter.unnamed (p : Parameter) : Parameter :=
  { p with name := "" }

/-- The parameters without their names. -/
abbrev unnamed (params : List Parameter) : List Parameter :=
  params.map Parameter.unnamed

/-- The fault without the text of a constant or the name of a parameter. -/
def TypeFault.unlabeled : TypeFault → TypeFault
  | parameterExcluded _ mask => parameterExcluded "" mask
  | constantExcluded _ mask => constantExcluded "" mask
  | constantMismatch _ target => constantMismatch "" target
  | fault => fault

theorem getElem?_unnamed (params : List Parameter) (id : Nat) :
    (unnamed params)[id]? = params[id]?.map Parameter.unnamed :=
  List.getElem?_map ..

theorem narrow_unnamed (params : List Parameter) (id : Nat) (mask : TypeMask) :
    narrow (unnamed params) id mask =
      ((narrow params id mask).mapError TypeFault.unlabeled).map unnamed := by
  rw [narrow, narrow, getElem?_unnamed]
  cases params[id]? with
  | none => rfl
  | some param =>
    dsimp only [Option.map, Parameter.unnamed]
    split
    · rfl
    · simp [Except.mapError, Except.map, List.map_set, Parameter.unnamed]

namespace Node

mutual

/-- The tree without the texts of its constants. -/
def unlabeled : Node → Node
  | constant value _ => constant value ""
  | parameter id => parameter id
  | apply head operands typing => apply head (unlabeledAll operands) typing

/-- The trees without the texts of their constants. -/
def unlabeledAll : List Node → List Node
  | [] => []
  | n :: rest => unlabeled n :: unlabeledAll rest

end

theorem unlabeledAll_eq_map (nodes : List Node) : unlabeledAll nodes = nodes.map unlabeled := by
  induction nodes with
  | nil => rfl
  | cons n rest ih => rw [unlabeledAll, ih, List.map_cons]

theorem unlabeled_apply (head : Head) (operands : List Node) (typing : Typing) :
    (apply head operands typing).unlabeled = apply head (operands.map unlabeled) typing := by
  rw [unlabeled, unlabeledAll_eq_map]

theorem unlabeled_undetermined (head : Head) (operands : List Node) :
    (undetermined head operands).unlabeled = undetermined head (operands.map unlabeled) := by
  rw [undetermined, undetermined, unlabeled_apply, List.length_map]

/-! ### Determination -/

theorem costs_unlabeled (params : List Parameter) (node : Node) :
    node.unlabeled.costs (unnamed params) = node.costs params := by
  cases node with
  | constant value text => rfl
  | parameter id =>
    rw [unlabeled, costs, costs, getElem?_unnamed]
    cases params[id]? <;> rfl
  | apply head operands typing => rfl

theorem map_costs_unlabeled (params : List Parameter) (nodes : List Node) :
    (nodes.map unlabeled).map (costs (unnamed params)) = nodes.map (costs params) := by
  simp only [List.map_map, Function.comp_def, costs_unlabeled]

theorem returns_unlabeled (params : List Parameter) (node : Node) :
    node.unlabeled.returns (unnamed params) = node.returns params := by
  rw [returns, returns, costs_unlabeled]

/-- A table that cannot be computed is no fault of a label. -/
theorem unlabeled_of_compute {typing : Typing} {operands : List CostTable} {fault : TypeFault}
    (h : typing.compute operands = .error fault) : fault.unlabeled = fault := by
  rw [Typing.compute] at h
  split at h
  · obtain rfl := Except.error.inj h
    rfl
  · cases h

mutual

theorem refresh_unlabeled (params : List Parameter) (node : Node) :
    refresh (unnamed params) node.unlabeled =
      Prod.map unlabeled (Option.map TypeFault.unlabeled) (refresh params node) := by
  match node with
  | constant value text => rfl
  | parameter id => rfl
  | apply head operands typing =>
    rw [unlabeled_apply, refresh, refresh, refreshAll_unlabeled params operands]
    rcases refreshAll params operands with ⟨operands', _ | fault⟩
    · dsimp only [Prod.map, Option.map]
      rw [map_costs_unlabeled]
      split
      · simp [unlabeled_apply]
      · next hcompute => simp [unlabeled_apply, unlabeled_of_compute hcompute]
    · simp [unlabeled_apply]

theorem refreshAll_unlabeled (params : List Parameter) (nodes : List Node) :
    refreshAll (unnamed params) (nodes.map unlabeled) =
      Prod.map (List.map unlabeled) (Option.map TypeFault.unlabeled) (refreshAll params nodes) := by
  match nodes with
  | [] => rfl
  | n :: rest =>
    rw [List.map_cons, refreshAll, refreshAll, refresh_unlabeled params n]
    rcases refresh params n with ⟨n', _ | fault⟩
    · dsimp only [Prod.map, Option.map]
      rw [refreshAll_unlabeled params rest]
      rfl
    · simp

end

/-- An application is narrowed to a mask: its operands are refreshed, overloads are dropped, and the
operands are narrowed to what is left. -/
theorem weaken_apply (mask : TypeMask) (head : Head) (operands : List Node) (typing : Typing)
    (params : List Parameter) : weaken mask (apply head operands typing) params =
      match refreshAll params operands with
      | (operands', some fault) => (apply head operands' typing, params, some fault)
      | (operands', none) =>
        let signatures := typing.signatures.filter fun s =>
          s.isViable (operands'.map (costs params)) && s.reaches mask
        if signatures.isEmpty then
          (apply head operands' { typing with signatures }, params, some (.noOverloadAmong mask))
        else
          match weakenAll signatures 0 operands' params with
          | (operands', params, some fault) =>
            (apply head operands' { typing with signatures }, params, some fault)
          | (operands', params, none) =>
            match Typing.compute { typing with signatures } (operands'.map (costs params)) with
            | .ok typing => (apply head operands' typing, params, none)
            | .error fault =>
              (apply head operands' { typing with signatures }, params, some fault) := by
  rw [weaken]
  split
  · next heq => rw [heq]
  · next heq =>
    dsimp only
    exact heq ▸ rfl

mutual

theorem weaken_unlabeled (mask : TypeMask) (node : Node) (params : List Parameter) :
    weaken mask node.unlabeled (unnamed params) =
      Prod.map unlabeled (Prod.map unnamed (Option.map TypeFault.unlabeled))
        (weaken mask node params) := by
  match node with
  | constant value text =>
    rw [unlabeled, weaken, weaken]
    dsimp only [Prod.map, unlabeled]
    split <;> rfl
  | parameter id =>
    rw [unlabeled, weaken, weaken, narrow_unnamed]
    cases narrow params id mask.sources <;> rfl
  | apply head operands typing =>
    rw [unlabeled_apply, weaken_apply, weaken_apply, refreshAll_unlabeled]
    cases hrefresh : refreshAll params operands with
    | mk operands' fault =>
    cases fault with
    | some fault => simp [unlabeled_apply]
    | none =>
      have hsize : sizeAll operands' = sizeAll operands := by
        rw [← sizeAll_refreshAll params operands, hrefresh]
      dsimp only [Prod.map, Option.map]
      rw [map_costs_unlabeled]
      split
      · simp [unlabeled_apply, TypeFault.unlabeled]
      · rw [weakenAll_unlabeled]
        rcases weakenAll _ 0 operands' params with ⟨operands'', params', _ | fault⟩
        · dsimp only [Prod.map, Option.map]
          rw [map_costs_unlabeled]
          split
          · simp [unlabeled_apply]
          · next hcompute => simp [unlabeled_apply, unlabeled_of_compute hcompute]
        · simp [unlabeled_apply]
termination_by 2 * node.size
decreasing_by
  simp only [size, hsize]
  omega

theorem weakenAll_unlabeled (signatures : List Signature) (place : Nat) (nodes : List Node)
    (params : List Parameter) :
    weakenAll signatures place (nodes.map unlabeled) (unnamed params) =
      Prod.map (List.map unlabeled) (Prod.map unnamed (Option.map TypeFault.unlabeled))
        (weakenAll signatures place nodes params) := by
  match nodes with
  | [] =>
    rw [List.map_nil, weakenAll, weakenAll]
    rfl
  | n :: rest =>
    rw [List.map_cons, weakenAll, weakenAll, weaken_unlabeled]
    rcases weaken (Typing.operandMask signatures place) n params with ⟨n', params', _ | fault⟩
    · dsimp only [Prod.map, Option.map]
      rw [weakenAll_unlabeled]
      rfl
    · rfl
termination_by 2 * sizeAll nodes + 1
decreasing_by
  all_goals
    have := n.size_pos
    simp only [sizeAll]
    omega

end

mutual

theorem strengthen_unlabeled (target : ValueType) (node : Node) (params : List Parameter) :
    strengthen target node.unlabeled (unnamed params) =
      Prod.map unlabeled (Prod.map unnamed (Option.map TypeFault.unlabeled))
        (strengthen target node params) := by
  match node with
  | constant value text =>
    rw [unlabeled, strengthen, strengthen]
    dsimp only [Prod.map, unlabeled]
    split <;> rfl
  | parameter id =>
    rw [unlabeled, strengthen, strengthen, narrow_unnamed]
    cases narrow params id (TypeMask.of target).sources <;> rfl
  | apply head operands typing =>
    rw [unlabeled_apply, strengthen, strengthen]
    cases typing.costs.get? target with
    | none => simp [unlabeled_apply, TypeFault.unlabeled]
    | some cost =>
      dsimp only
      cases typing.signatures[cost.choice]? with
      | none => simp [unlabeled_apply, TypeFault.unlabeled]
      | some signature =>
        dsimp only
        rw [strengthenAll_unlabeled]
        simp only [Prod.map, unlabeled_apply]

theorem strengthenAll_unlabeled (targets : List ValueType) (nodes : List Node)
    (params : List Parameter) :
    strengthenAll targets (nodes.map unlabeled) (unnamed params) =
      Prod.map (List.map unlabeled) (Prod.map unnamed (Option.map TypeFault.unlabeled))
        (strengthenAll targets nodes params) := by
  match nodes, targets with
  | [], _ =>
    rw [List.map_nil, strengthenAll, strengthenAll]
    rfl
  | n :: rest, [] =>
    rw [List.map_cons, strengthenAll, strengthenAll]
    · rfl
    all_goals simp
  | n :: rest, target :: targets =>
    rw [List.map_cons, strengthenAll, strengthenAll, strengthen_unlabeled]
    rcases strengthen target n params with ⟨n', params', _ | fault⟩
    · dsimp only [Prod.map, Option.map]
      rw [strengthenAll_unlabeled]
      rfl
    · rfl

end

/-- Assembling does not look at labels. -/
theorem assemble_unlabeled (head : Head) (operands : List Node) (params : List Parameter) :
    assemble head (operands.map unlabeled) (unnamed params) =
      Prod.map (fun outcome => (outcome.mapError TypeFault.unlabeled).map unlabeled) unnamed
        (assemble head operands params) := by
  rw [assemble, assemble, ← unlabeled_undetermined, weaken_unlabeled]
  rcases weaken TypeMask.all (undetermined head operands) params with ⟨node, params', _ | fault⟩ <;> rfl

/-! ### Lowering and folding -/

mutual

theorem lower_unlabeled (params : List Parameter) (target : ValueType) (node : Node) (b : Builder) :
    lower (unnamed params) target node.unlabeled b = lower params target node b := by
  match node with
  | constant value text => rw [unlabeled, lower, lower]
  | parameter id =>
    rw [unlabeled, lower, lower]
    cases Builder.index id with
    | error fault => rfl
    | ok place =>
      dsimp only [bind, Except.bind]
      rw [getElem?_unnamed, List.length_map]
      cases params[place]? <;> rfl
  | apply head operands typing =>
    rw [unlabeled_apply, lower, lower]
    cases typing.selected? with
    | none => rfl
    | some selected =>
      dsimp only
      rw [lowerAll_unlabeled]

theorem lowerAll_unlabeled (params : List Parameter) (targets : List ValueType) (nodes : List Node)
    (b : Builder) :
    lowerAll (unnamed params) targets (nodes.map unlabeled) b = lowerAll params targets nodes b := by
  match nodes, targets with
  | [], _ => rw [List.map_nil, lowerAll, lowerAll]
  | n :: rest, [] =>
    rw [List.map_cons, lowerAll, lowerAll]
    all_goals simp
  | n :: rest, target :: targets =>
    rw [List.map_cons, lowerAll, lowerAll, lower_unlabeled]
    cases lower params target n b with
    | error fault => rfl
    | ok result =>
      dsimp only [bind, Except.bind]
      rw [lowerAll_unlabeled]

end

mutual

theorem any_unlabeled (p : Head → Typing → Bool) (node : Node) : node.unlabeled.any p = node.any p := by
  match node with
  | constant value text => rfl
  | parameter id => rfl
  | apply head operands typing => rw [unlabeled_apply, any, any, anyOf_unlabeled p operands]

theorem anyOf_unlabeled (p : Head → Typing → Bool) (nodes : List Node) :
    anyOf p (nodes.map unlabeled) = anyOf p nodes := by
  match nodes with
  | [] => rfl
  | n :: rest => rw [List.map_cons, anyOf, anyOf, any_unlabeled p n, anyOf_unlabeled p rest]

end

theorem isConstant_unlabeled (node : Node) : node.unlabeled.isConstant = node.isConstant := by
  cases node <;> rfl

theorem isFoldable_unlabeled (node : Node) : node.unlabeled.isFoldable = node.isFoldable := by
  cases node with
  | constant value text => rfl
  | parameter id => rfl
  | apply head operands typing =>
    simp only [unlabeled_apply, isFoldable, List.all_map, Function.comp_def, isConstant_unlabeled]

theorem constantValue?_unlabeled (registry : Registry) (node : Node) :
    node.unlabeled.constantValue? registry = node.constantValue? registry := by
  have hcosts : node.unlabeled.costs [] = node.costs [] := costs_unlabeled [] node
  rw [constantValue?, constantValue?, hcosts]
  cases (node.costs []).preferred? with
  | none => rfl
  | some target =>
    have hstrengthen : strengthen target node.unlabeled [] = _ := strengthen_unlabeled target node []
    dsimp only [bind, Option.bind]
    rw [hstrengthen]
    rcases strengthen target node [] with ⟨n, params, _ | fault⟩
    · have hlower : lower [] target n.unlabeled {} = lower [] target n {} := lower_unlabeled [] target n {}
      dsimp only [Prod.map, Option.map]
      rw [hlower]
    · rfl

/-- Folding does not look at labels, and the text it is given is only a label. -/
theorem unlabeled_fold (registry : Registry) (text : String) (node : Node) :
    (node.fold registry text).unlabeled = node.unlabeled.fold registry "" := by
  rw [fold, fold, isFoldable_unlabeled, constantValue?_unlabeled]
  split
  · split <;> rfl
  · rfl

end Node

/-! ### Evaluation -/

/-- The body without its labels. -/
def Body.unlabeled (body : Body) : Body where
  root := body.root.unlabeled
  params := unnamed body.params

namespace Expression

theorem constant?_unlabeled (body : Body) : body.unlabeled.constant? = body.constant? := by
  obtain ⟨root, params⟩ := body
  cases root <;> cases params <;> rfl

theorem toOption_lower_unlabeled (body : Body) (types : List ValueType)
    (tolerance : Option Tolerance.Kind) :
    (lower body.unlabeled types tolerance).toOption = (lower body types tolerance).toOption := by
  have hparams : body.unlabeled.params.zipWith
      (fun p t => { p with supported := TypeMask.of t }) types =
        unnamed (body.params.zipWith (fun p t => { p with supported := TypeMask.of t }) types) := by
    rw [Body.unlabeled, unnamed, List.zipWith_map_left, unnamed, List.map_zipWith]
    rfl
  rw [lower, lower, hparams]
  generalize body.params.zipWith (fun p t => { p with supported := TypeMask.of t }) types = params
  rw [show body.unlabeled.root = body.root.unlabeled from rfl, Node.refresh_unlabeled]
  rcases body.root.refresh params with ⟨root, _ | fault⟩
  · dsimp only [Prod.map, Option.map]
    rw [Node.costs_unlabeled]
    cases (root.costs params).preferred? with
    | none => rfl
    | some target =>
      dsimp only
      rw [Node.strengthen_unlabeled]
      rcases root.strengthen target params with ⟨root, params, _ | fault⟩
      · dsimp only [Prod.map, Option.map]
        rw [Node.lower_unlabeled]
      · rfl
  · rfl

theorem toOption_coerceAll_unnamed (registry : Registry) (params : List Parameter)
    (args : List Value) : (coerceAll registry (unnamed params) args).toOption =
      (coerceAll registry params args).toOption := by
  induction params generalizing args with
  | nil => rfl
  | cons p params ih =>
    cases args with
    | nil => rfl
    | cons v args =>
      have hrest := ih args
      rw [coerceAll, coerceAll] at hrest ⊢
      rw [unnamed, List.map_cons, List.zip_cons_cons, List.zip_cons_cons, List.mapM_cons,
        List.mapM_cons]
      cases hcoerce : v.coerce? registry p.supported with
      | none => simp [Parameter.unnamed, hcoerce, bind, Except.bind, Except.toOption]
      | some w =>
        simp only [Parameter.unnamed, hcoerce, bind, Except.bind]
        revert hrest
        rcases List.mapM (m := Except EvaluationFault) _ ((unnamed params).zip args) <;>
          rcases List.mapM (m := Except EvaluationFault) _ (params.zip args) <;>
            simp [Except.toOption, pure, Except.pure]

/-- What comes of an evaluation with nothing kept from earlier ones. -/
def outcome? (registry : Registry) (body : Body) (draws : Draws) (args : List Value)
    (tolerance : Option Tolerance) : Option Value :=
  if args.length ≠ body.params.length then none
  else match body.constant? with
    | some v => some v
    | none => do
      let args ← (coerceAll registry body.params args).toOption
      let tolerance := if body.root.isTolerant then tolerance else none
      let lowering ← (lower body (args.map Value.type) (tolerance.bind Tolerance.honored?)).toOption
      (lowering.program.run registry draws args).toOption

theorem outcome?_unlabeled (registry : Registry) (body : Body) (draws : Draws) (args : List Value)
    (tolerance : Option Tolerance) :
    outcome? registry body.unlabeled draws args tolerance =
      outcome? registry body draws args tolerance := by
  have hlength : body.unlabeled.params.length = body.params.length := List.length_map ..
  have htolerant : body.unlabeled.root.isTolerant = body.root.isTolerant := Node.any_unlabeled ..
  have hargs : (coerceAll registry body.unlabeled.params args).toOption =
      (coerceAll registry body.params args).toOption := toOption_coerceAll_unnamed ..
  simp only [outcome?, hlength, htolerant, hargs, constant?_unlabeled, toOption_lower_unlabeled]

/-- An expression that keeps nothing lowers its tree. -/
theorem exists_program {e : Expression} (h : e.lowered = ∅) (body : Body) (types : List ValueType)
    (tolerance : Option Tolerance) :
    ∃ keep : Lowering → Expression, (∀ lowering, (keep lowering).registry = e.registry) ∧
      e.program body types tolerance =
        (lower body types ((if body.root.isTolerant then tolerance else none).bind
          Tolerance.honored?)).map fun lowering => (lowering, true, keep lowering) := by
  rw [program]
  dsimp only
  split
  · exact ⟨fun _ => e, fun _ => rfl, rfl⟩
  · rw [h, Std.HashMap.getElem?_empty]
    exact ⟨fun lowering => { e with lowered := Std.HashMap.insert ∅ (types,
      (if body.root.isTolerant then tolerance else none).bind Tolerance.key?) lowering },
      fun _ => rfl, rfl⟩

theorem toOption_outcome_evaluate {e : Expression} {body : Body} (hlowered : e.lowered = ∅)
    (hbody : e.body = some body) (draws : Draws) (args : List Value) (tolerance : Option Tolerance) :
    (e.evaluate draws args tolerance).outcome.toOption =
      outcome? e.registry body draws args tolerance := by
  rw [evaluate, hbody, outcome?]
  dsimp only
  split
  · rfl
  cases body.constant? with
  | some v => rfl
  | none =>
    cases coerceAll e.registry body.params args with
    | error fault => rfl
    | ok args =>
      obtain ⟨keep, hregistry, hprogram⟩ := exists_program hlowered body (args.map Value.type) tolerance
      simp only [hprogram, Except.toOption, Option.bind_eq_bind, Option.bind_some]
      cases lower body (args.map Value.type) ((if body.root.isTolerant then tolerance else none).bind
        Tolerance.honored?) with
      | error fault => rfl
      | ok lowering =>
        simp only [Except.map, runProgram, hregistry, Option.bind_some]
        cases lowering.program.run e.registry draws args <;> rfl

/-- Labels have no part in the value of an expression. -/
theorem outcome_evaluate_congr {e e' : Expression} {body body' : Body} (hlowered : e.lowered = ∅)
    (hlowered' : e'.lowered = ∅) (hbody : e.body = some body) (hbody' : e'.body = some body')
    (hregistry : e.registry = e'.registry) (h : body.unlabeled = body'.unlabeled) (draws : Draws)
    (args : List Value) (tolerance : Option Tolerance) :
    (e.evaluate draws args tolerance).outcome.toOption =
      (e'.evaluate draws args tolerance).outcome.toOption := by
  rw [toOption_outcome_evaluate hlowered hbody, toOption_outcome_evaluate hlowered' hbody',
    ← outcome?_unlabeled, h, outcome?_unlabeled, hregistry]

end Expression

end Formula
