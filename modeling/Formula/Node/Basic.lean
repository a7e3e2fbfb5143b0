import Formula.CostTable
import Formula.Function
import Formula.Operator

/-!
# Expression trees

The tree of an expression: constants, parameters and applications. An application carries the
overloads that are still possible and a cost table; a parameter is known by its place in a list
that all its occurrences share.

## Main definitions

* `Head`, `Typing`, `Node`: expression trees.
* `Parameter`: a named input and the types it may take.
* `TypeFault`: why a tree has no types.
* `Node.isTolerant`, `Node.isRandom`: whether a tolerance, or a drawn number, can matter.
-/

namespace Formula

/-- What is applied. -/
inductive Head where
  | unary (op : UnaryOp)
  | binary (op : BinaryOp)
  | call (function : Function)
  deriving DecidableEq

/-- The types of an application. -/
structure Typing where
  /-- The overloads still possible, in order of preference. -/
  signatures : List Signature
  costs : CostTable
  /-- The type asked for and the place of the overload, once they are settled. -/
  chosen : Option (ValueType × Nat)
  deriving DecidableEq

/-- An expression tree. -/
inductive Node where
  /-- A constant, with the text it came from. -/
  | constant (value : Value) (text : String)
  /-- A parameter, by its place in the list of parameters. -/
  | parameter (id : Nat)
  | apply (head : Head) (operands : List Node) (typing : Typing)
  deriving Inhabited

/-- A named input and the types it may take. -/
structure Parameter where
  name : String
  supported : TypeMask
  deriving DecidableEq

/-- Why a tree has no types. -/
inductive TypeFault where
  | unknownParameter (id : Nat)
  | parameterExcluded (name : String) (mask : TypeMask)
  | constantExcluded (text : String) (mask : TypeMask)
  | constantMismatch (text : String) (target : ValueType)
  | noOverloadAccepts
  | noOverloadAmong (mask : TypeMask)
  | noOverloadProduces (target : ValueType)
  | overloadVanished (choice : Nat)
  | noResultType (arguments : List ValueType)
  deriving DecidableEq

/-- The wording of a fault. -/
def TypeFault.message (fault : TypeFault) : String :=
  "expression is not logically valid: " ++ match fault with
    | unknownParameter id => s!"unknown parameter #{id}"
    | parameterExcluded name mask => s!"parameter `{name}` cannot be any of {mask.describe}"
    | constantExcluded text mask => s!"`{text}` cannot be any of {mask.describe}"
    | constantMismatch text target => s!"`{text}` cannot be {target.label}"
    | noOverloadAccepts => "no overload accepts the operand types"
    | noOverloadAmong mask =>
      s!"no overload produces any of {mask.describe} from the operand types"
    | noOverloadProduces target => s!"no overload produces {target.label}"
    | overloadVanished choice => s!"overload #{choice} vanished"
    | noResultType arguments =>
      let types := String.intercalate ", " (arguments.map ValueType.name)
      s!"no result type for [{types}]"

/-- The overloads of what is applied, for a number of operands. -/
def Head.signatures (head : Head) (operands : Nat) : List Signature :=
  match head with
  | unary op => op.signatures
  | binary op => op.signatures
  | call f => f.signatures.filter fun s => s.args.length == operands

/-- The name of what is applied. -/
def Head.name : Head → String
  | unary op => op.name
  | binary op => op.name
  | call f => f.name

/-- The overload settled on, with the type asked for. -/
def Typing.selected? (typing : Typing) : Option (ValueType × Signature) := do
  let (target, choice) ← typing.chosen
  let signature ← typing.signatures[choice]?
  return (target, signature)

/-- Whether the first argument of an overload is a number. -/
def Signature.comparesNumbers (s : Signature) : Bool :=
  (s.args.headD .unknown).isNumber

namespace Node

mutual

/-- Number of nodes of a tree. -/
def size : Node → Nat
  | constant _ _ | parameter _ => 1
  | apply _ operands _ => 1 + sizeAll operands

/-- Number of nodes of several trees. -/
def sizeAll : List Node → Nat
  | [] => 0
  | n :: rest => size n + sizeAll rest

end

theorem size_pos (node : Node) : 0 < node.size := by
  cases node <;> simp only [size] <;> omega

mutual

/-- Whether some application in the tree satisfies `p`. -/
def any (p : Head → Typing → Bool) : Node → Bool
  | constant _ _ | parameter _ => false
  | apply head operands typing => p head typing || anyOf p operands

/-- Whether some application in one of the trees satisfies `p`. -/
def anyOf (p : Head → Typing → Bool) : List Node → Bool
  | [] => false
  | n :: rest => any p n || anyOf p rest

end

/-- Whether the node is a constant. -/
def isConstant : Node → Bool
  | constant _ _ => true
  | _ => false

/-- Whether some comparison may still compare numbers, so that a tolerance can matter. -/
def isTolerant (node : Node) : Bool :=
  node.any fun head typing =>
    match head with
    | .binary (.compare _) => typing.signatures.any Signature.comparesNumbers
    | _ => false

/-- Whether the tree calls a random function, so that no two evaluations need agree. -/
def isRandom (node : Node) : Bool :=
  node.any fun head _ =>
    match head with
    | .call f => !f.isDeterministic
    | _ => false

end Node

end Formula
