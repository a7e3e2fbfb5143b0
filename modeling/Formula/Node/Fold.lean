import Formula.Node.Lower
import Formula.Program.Run

/-!
# Constant folding

An application of a deterministic head to constants is replaced by its value. Where the value
cannot be computed the application stays, so that the fault shows when the expression is
evaluated.

## Main definitions

* `Node.constantValue?`: the value of a tree without parameters.
* `Node.fold`: folds an application of constants.
-/

namespace Formula.Node

/-- The value of a tree without parameters, computed at the type it prefers; nothing if there is a
fault on the way. -/
def constantValue? (registry : Registry) (node : Node) : Option Value := do
  let target ← (node.costs []).preferred?
  match node.strengthen target [] with
  | (node, _, none) =>
    let (result, b) ← (node.lower [] target {}).toOption
    ((b.finish result none).run registry (fun _ => 0) []).toOption
  | (_, _, some _) => none

/-- Whether a node is a deterministic application of constants. -/
def isFoldable : Node → Bool
  | constant _ _ | parameter _ => false
  | apply head operands _ =>
    (match head with
      | .call f => f.isDeterministic
      | _ => true) && operands.all isConstant

/-- Replaces an application of constants by its value, with the given source text. -/
def fold (registry : Registry) (text : String) (node : Node) : Node :=
  if node.isFoldable then
    match node.constantValue? registry with
    | some value => constant value text
    | none => node
  else node

end Formula.Node
