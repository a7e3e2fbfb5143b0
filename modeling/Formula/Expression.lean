import Std.Data.HashMap
import Formula.Compile.Basic

/-!
# Expressions

A compiled expression is evaluated on arguments. For each typing of the arguments, and each
tolerance that can matter, it is lowered to a program once and the program is kept; a random
expression is lowered for every evaluation.

Evaluation for a value never fails: an expression that cannot be evaluated gives its source text.

## Main definitions

* `Expression`, `Expression.ofOutcome`: compiled expressions.
* `Value.coerce?`: fits an argument to the types of its parameter.
* `Expression.lower`: lowers an expression for a typing of its arguments.
* `Expression.evaluate`: evaluates an expression, with the reason of a failure.
* `Expression.collect`: the arguments, looked up by name.
-/

namespace Formula

/-- Why an expression cannot be evaluated. -/
inductive EvaluationFault where
  | unrecognized
  | argumentCount (expected actual : Nat)
  | argument (name : String) (supported : TypeMask) (value : Value)
  | missingData (name : String)
  | illTyped (fault : TypeFault)
  | machine (fault : MachineFault)
  deriving DecidableEq

/-- The wording of a fault. -/
def EvaluationFault.message : EvaluationFault → String
  | unrecognized => "expression was not recognized"
  | argumentCount expected actual => s!"expected {expected} arguments, got {actual}"
  | argument name supported value =>
    s!"argument `{name}` cannot be used as {supported.describe}: {value.display}"
  | missingData name => s!"no value for parameter `{name}`"
  | illTyped fault => fault.message
  | machine fault => fault.message

/-- Fits an argument to the types of its parameter: an integer widens, a whole double narrows, and
anything has a text. -/
def Value.coerce? (registry : Registry) (supported : TypeMask) (v : Value) : Option Value :=
  if supported.supports v.type then some v
  else
    let asNumber : Option Value := match v with
      | .integer i => if supported.numeric then some (.numeric (Binary64.ofInteger i)) else none
      | .numeric x =>
        if supported.integer then (Binary64.toInteger? x).map .integer else none
      | _ => none
    asNumber.or (if supported.string then some (.string (registry.format v)) else none)

/-- The tree and the parameters of a recognized expression. -/
structure Body where
  root : Node
  params : List Parameter

/-- The value of a body that is a constant. -/
def Body.constant? (body : Body) : Option Value :=
  match body.root, body.params with
  | .constant value _, [] => some value
  | _, _ => none

/-- What a program was lowered for: the types of the arguments and the tolerance. -/
abbrev LoweringKey := List ValueType × Option Tolerance.Key

/-- A program, with what it was lowered for. -/
structure Lowering where
  arguments : List ValueType
  target : ValueType
  program : Program

/-- A compiled expression. -/
structure Expression where
  source : String
  /-- Nothing if the source was not recognized. -/
  body : Option Body
  registry : Registry
  /-- The programs lowered so far. -/
  lowered : Std.HashMap LoweringKey Lowering := ∅

namespace Expression

/-- The expression of a source text whose compilation had an outcome. -/
def ofOutcome (registry : Registry) (source : String)
    (outcome : Except CompileFault (Node × List Parameter)) : Expression where
  source := source
  body := match outcome with
    | .ok (root, params) => some { root, params }
    | .error _ => none
  registry := registry

/-- Whether the source was recognized. -/
def isRecognized (e : Expression) : Bool :=
  e.body.isSome

/-- Whether the value is known without arguments. -/
def isConstant (e : Expression) : Bool :=
  e.body.any fun body => body.constant?.isSome

/-- Whether a tolerance can change the value. -/
def isTolerant (e : Expression) : Bool :=
  e.body.any fun body => body.root.isTolerant

/-- Whether the expression is a bare parameter. -/
def isPassThrough (e : Expression) : Bool :=
  e.body.any fun body =>
    match body.root with
    | .parameter _ => true
    | _ => false

/-- The parameters, in the order of the arguments. -/
def parameters (e : Expression) : List Parameter :=
  (e.body.map Body.params).getD []

/-- The type of the value when the arguments have the types they prefer. -/
def returns (e : Expression) : ValueType :=
  match e.body with
  | some body => body.root.returns body.params
  | none => .string

/-- Lowers a tree for arguments of given types. -/
def lower (body : Body) (types : List ValueType) (tolerance : Option Tolerance.Kind) :
    Except EvaluationFault Lowering :=
  let params := body.params.zipWith (fun p t => { p with supported := TypeMask.of t }) types
  match body.root.refresh params with
  | (_, some fault) => .error (.illTyped fault)
  | (root, none) =>
    match (root.costs params).preferred? with
    | none => .error (.illTyped (.noResultType types))
    | some target =>
      match root.strengthen target params with
      | (_, _, some fault) => .error (.illTyped fault)
      | (root, params, none) =>
        match root.lower params target {} with
        | .error fault => .error (.machine fault)
        | .ok (result, b) =>
          .ok { arguments := types, target, program := b.finish result tolerance }

/-- The outcome of an evaluation: the value or the reason there is none, what was lowered for it,
and the expression with what it keeps. -/
structure Evaluation where
  outcome : Except EvaluationFault Value
  lowered : Option Lowering
  expression : Expression

/-- An evaluation that ends before anything is lowered. -/
def settled (e : Expression) (outcome : Except EvaluationFault Value) : Evaluation where
  outcome := outcome
  lowered := none
  expression := e

/-- Fits arguments to parameters, in turn. -/
def coerceAll (registry : Registry) (params : List Parameter) (args : List Value) :
    Except EvaluationFault (List Value) :=
  (params.zip args).mapM fun (p, v) =>
    match v.coerce? registry p.supported with
    | some v => .ok v
    | none => .error (.argument p.name p.supported v)

/-- Runs a program. -/
def runProgram (e : Expression) (draws : Draws) (program : Program) (args : List Value) :
    Except EvaluationFault Value :=
  match program.run e.registry draws args with
  | .ok v => .ok v
  | .error fault => .error (.machine fault)

/-- The program for arguments of given types: the one that is kept, or one that is lowered now,
which the truth value tells. A random expression keeps none. -/
def program (e : Expression) (body : Body) (types : List ValueType)
    (tolerance : Option Tolerance) :
    Except EvaluationFault (Lowering × Bool × Expression) :=
  let tolerance := if body.root.isTolerant then tolerance else none
  let kind := tolerance.bind Tolerance.honored?
  if body.root.isRandom then
    (lower body types kind).map fun lowering => (lowering, true, e)
  else
    let key := (types, tolerance.bind Tolerance.key?)
    match e.lowered[key]? with
    | some lowering => .ok (lowering, false, e)
    | none =>
      (lower body types kind).map fun lowering =>
        (lowering, true, { e with lowered := e.lowered.insert key lowering })

/-- Evaluates an expression on arguments. -/
def evaluate (e : Expression) (draws : Draws) (args : List Value)
    (tolerance : Option Tolerance) : Evaluation :=
  match e.body with
  | none => e.settled (.error .unrecognized)
  | some body =>
    if args.length ≠ body.params.length then
      e.settled (.error (.argumentCount body.params.length args.length))
    else match body.constant? with
      | some v => e.settled (.ok v)
      | none =>
        match coerceAll e.registry body.params args with
        | .error fault => e.settled (.error fault)
        | .ok args =>
          match e.program body (args.map Value.type) tolerance with
          | .error fault => e.settled (.error fault)
          | .ok (lowering, isNew, e) =>
            { outcome := e.runProgram draws lowering.program args
              lowered := if isNew then some lowering else none
              expression := e }

/-- The arguments of an expression, looked up by the names of its parameters. -/
def collect (e : Expression) (find : String → Option Value) :
    Except EvaluationFault (List Value) :=
  e.parameters.mapM fun p =>
    match find p.name with
    | some v => .ok v
    | none => .error (.missingData p.name)

/-- Evaluates an expression on arguments that are looked up by name. -/
def evaluateNamed (e : Expression) (draws : Draws) (find : String → Option Value)
    (tolerance : Option Tolerance) : Evaluation :=
  match e.collect find with
  | .error fault => e.settled (.error fault)
  | .ok args => e.evaluate draws args tolerance

/-- The value of an evaluation; without one, the source text. -/
def Evaluation.value (evaluation : Evaluation) : Value :=
  match evaluation.outcome with
  | .ok v => v
  | .error _ => .string evaluation.expression.source

end Expression

/-- Compiles a text to an expression. A text that is none gives an expression that is not
recognized. -/
def Compiler.expression (c : Compiler) (source : String) : Expression :=
  Expression.ofOutcome c.registry source (c.compile source.toList false).outcome

end Formula
