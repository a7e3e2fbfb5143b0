import Formula.Node.Lower
import Formula.Program.Run
import Formula.Proofs.Outcome
import Formula.Proofs.Typing.Assembly

/-!
# The meaning of settled trees

A tree that has settled on its overloads is evaluated directly, without a program: operands from
left to right, each converted to the argument type that the overload asks of it, then the head,
then the conversion to the type asked for. Lowering is compared with this meaning, and so is the
evaluation of terms, which converts nothing at all.

Random functions draw by the place of their call in the table of calls, so the meaning counts the
calls it has passed.

## Main definitions

* `Environment`: what a program is run with.
* `Head.run`: a head applied to values as they are.
* `Node.meaning`: the value of a settled tree.
* `Term.eval`: the value of a term, on values as they are.

## Main results

* `Node.lower_outline`: lowering sees the settled overloads only.
-/

namespace Formula

/-- What a program is run with. -/
structure Environment where
  registry : Registry
  draws : Draws
  /-- The allowance of tolerant comparisons. -/
  tolerance : Option Tolerance.Kind
  /-- What the table of literals holds for a literal. -/
  literal : Value → Value
  args : List Value

namespace Environment

/-- Compares two values, with the allowance if the comparison is tolerant. -/
def comparison (env : Environment) (op : Comparison) (tolerant : Bool) (a b : Value) :
    Except OperationFault Bool :=
  match env.tolerance, tolerant with
  | some kind, true => op.applyWithin kind a b
  | _, _ => op.apply a b

end Environment

namespace Head

/-- Applies a head to values as they are. -/
def run (env : Environment) (tolerant : Bool) (draw : UInt64) (head : Head)
    (values : List Value) : Except MachineFault Value :=
  match head, values with
  | .unary op, [a] => Program.lift (op.apply a)
  | .binary (.operate op), [a, b] => Program.lift (op.apply env.registry.format a b)
  | .binary (.compare op), [a, b] =>
    Program.lift ((env.comparison op tolerant a b).map Value.boolean)
  | .call f, values =>
    match f.eval draw values with
    | .ok v => .ok v
    | .error fault => .error (.functionFailed f fault)
  | head, _ => .error (.undetermined head.name)

/-- Number of calls after an application, with the given number before. -/
def countCall (head : Head) (calls : Nat) : Nat :=
  match head with
  | .call _ => calls + 1
  | _ => calls

end Head

/-- Converts a value of type `own`, if that is not the type asked for. -/
def Value.widened (own target : ValueType) (v : Value) : Except MachineFault Value :=
  if own = target then .ok v else Program.lift (v.convert target)

namespace Node

mutual

/-- The value of a settled tree, made into the type `target`, and the number of calls after it. -/
def meaning (env : Environment) (params : List Parameter) (target : ValueType) (node : Node)
    (calls : Nat) : Except MachineFault (Value × Nat) :=
  match node with
  | constant value _ => do
    let v ← Program.lift (value.convert target)
    return (env.literal v, calls)
  | parameter id =>
    match params[id]?, env.args[id]? with
    | some param, some v =>
      match param.supported.single? with
      | some own => do return (← v.widened own target, calls)
      | none => .ok (v, calls)
    | _, _ => .error (.parameterOutOfBounds id env.args.length)
  | apply head operands typing =>
    match typing.selected? with
    | none => .error (.undetermined head.name)
    | some (_, signature) => do
      let (values, calls) ← meaningAll env params signature.args operands calls
      let v ← head.run env signature.comparesNumbers (env.draws calls) values
      return (← v.widened signature.result target, head.countCall calls)

/-- The values of operands, in turn. -/
def meaningAll (env : Environment) (params : List Parameter) (targets : List ValueType)
    (nodes : List Node) (calls : Nat) : Except MachineFault (List Value × Nat) :=
  match nodes, targets with
  | [], _ | _, [] => .ok ([], calls)
  | n :: rest, target :: targets => do
    let (v, calls) ← meaning env params target n calls
    let (values, calls) ← meaningAll env params targets rest calls
    return (v :: values, calls)

end

end Node

namespace Term

mutual

/-- The value of a term: operands from left to right, and every head on the values as they are. -/
def eval (env : Environment) : Term → Except MachineFault Value
  | constant value _ => .ok value
  | parameter id =>
    match env.args[id]? with
    | some v => .ok v
    | none => .error (.parameterOutOfBounds id env.args.length)
  | unary op operand => do
    let a ← operand.eval env
    Head.run env true 0 (.unary op) [a]
  | binary op left right => do
    let a ← left.eval env
    let b ← right.eval env
    Head.run env true 0 (.binary op) [a, b]
  | call f args => do
    let values ← evalAll env args
    Head.run env true 0 (.call f) values

/-- The values of terms, in turn. -/
def evalAll (env : Environment) : List Term → Except MachineFault (List Value)
  | [] => .ok []
  | a :: rest => do
    let v ← a.eval env
    let values ← evalAll env rest
    return v :: values

end

theorem eval_of_parts? {term : Term} {head : Head} {operands : List Term}
    (h : term.parts? = some (head, operands)) (env : Environment) :
    term.eval env = evalAll env operands >>= Head.run env true 0 head := by
  cases term with
  | constant v text => simp [parts?] at h
  | parameter id => simp [parts?] at h
  | unary op operand =>
    obtain ⟨rfl, rfl⟩ := Prod.mk.inj (Option.some.inj h)
    simp only [eval, evalAll]
    cases operand.eval env <;> rfl
  | binary op left right =>
    obtain ⟨rfl, rfl⟩ := Prod.mk.inj (Option.some.inj h)
    simp only [eval, evalAll]
    cases left.eval env with
    | error fault => rfl
    | ok a => cases right.eval env <;> rfl
  | call f args =>
    obtain ⟨rfl, rfl⟩ := Prod.mk.inj (Option.some.inj h)
    simp only [eval]

end Term

/-! ### Lowering sees the settled overloads only -/

namespace Node

theorem lowerAll_outline {params : List Parameter} {nodes : List Node}
    (h : ∀ n ∈ nodes, ∀ target b, n.outline.lower params target b = n.lower params target b)
    (targets : List ValueType) (b : Builder) :
    lowerAll params targets (nodes.map outline) b = lowerAll params targets nodes b := by
  induction nodes generalizing targets b with
  | nil => rfl
  | cons n rest ih =>
    cases targets with
    | nil => rfl
    | cons target targets =>
      rw [List.map_cons, lowerAll, lowerAll, h n (List.mem_cons_self ..)]
      simp only [ih fun m hm => h m (List.mem_cons_of_mem _ hm)]

theorem lower_outline (params : List Parameter) (node : Node) (target : ValueType) (b : Builder) :
    node.outline.lower params target b = node.lower params target b := by
  induction node using Node.induct generalizing target b with
  | constant v text => rfl
  | parameter id => rfl
  | apply head operands typing ih =>
    rw [outline, outlineAll_eq_map, lower, lower, selected?_settledOnly]
    simp only [lowerAll_outline ih]

end Node

end Formula
