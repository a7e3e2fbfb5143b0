import Formula.ValueType

/-!
# Operators

The binary and unary operators, the types they work on and how tightly they bind.

## Main definitions

* `Operation`, `Comparison`, `BinaryOp`, `UnaryOp`: the operators.
* `Signature`: the argument types and the result type of one overload.
* `BinaryOp.result?`, `UnaryOp.result?`: the type an operator gives on operands of given types.
* `BinaryOp.signatures`, `UnaryOp.signatures`: all overloads, in order of preference.
* `Precedence`, `BinaryOp.tier`: lower tiers bind looser.
-/

namespace Formula

/-- Binary operators that compute a value. -/
inductive Operation where
  | add
  | subtract
  | multiply
  | divide
  | modulo
  | power
  | and
  | or
  | xor
  | shiftLeft
  | shiftRight
  deriving DecidableEq

/-- Binary operators that compare. -/
inductive Comparison where
  | eq
  | ne
  | lt
  | le
  | gt
  | ge
  deriving DecidableEq

/-- Binary operators. -/
inductive BinaryOp where
  | operate (op : Operation)
  | compare (op : Comparison)
  deriving DecidableEq

/-- Unary operators. -/
inductive UnaryOp where
  | negate
  | not
  deriving DecidableEq

/-- One overload of an operator or function. -/
structure Signature where
  args : List ValueType
  result : ValueType
  deriving DecidableEq

/-- How the logical operators bind relative to each other. -/
inductive Precedence where
  /-- And, or and exclusive or share one tier. -/
  | mathematical
  /-- And binds tighter than exclusive or, which binds tighter than or. -/
  | layered
  deriving DecidableEq

namespace Operation

/-- The name of an operation. -/
def name : Operation → String
  | add => "Add"
  | subtract => "Subtract"
  | multiply => "Multiply"
  | divide => "Divide"
  | modulo => "Modulo"
  | power => "Power"
  | and => "And"
  | or => "Or"
  | xor => "Xor"
  | shiftLeft => "ShiftLeft"
  | shiftRight => "ShiftRight"

/-- The type of the result on operands of the given types. -/
def result? (op : Operation) (left right : ValueType) : Option ValueType :=
  match op, left, right with
  | add, .string, _ | add, _, .string => some .string
  | add, .bytes, .bytes => some .bytes
  | add, .integer, .integer | subtract, .integer, .integer
  | multiply, .integer, .integer | modulo, .integer, .integer => some .integer
  | add, .numeric, .numeric | subtract, .numeric, .numeric | multiply, .numeric, .numeric
  | modulo, .numeric, .numeric | divide, .numeric, .numeric | power, .numeric, .numeric =>
    some .numeric
  | and, l, r | or, l, r | xor, l, r =>
    if l = r ∧ (l = .boolean ∨ l = .integer ∨ l = .bytes) then some l else none
  | shiftLeft, l, .integer | shiftRight, l, .integer =>
    if l = .integer ∨ l = .bytes then some l else none
  | _, _, _ => none

end Operation

namespace Comparison

/-- The name of a comparison. -/
def name : Comparison → String
  | eq => "Eq"
  | ne => "Ne"
  | lt => "Lt"
  | le => "Le"
  | gt => "Gt"
  | ge => "Ge"

/-- Whether the comparison holds for operands in the given order. -/
def holds (op : Comparison) (order : Ordering) : Bool :=
  match op with
  | eq => order.isEq
  | ne => order.isNe
  | lt => order.isLT
  | le => order.isLE
  | gt => order.isGT
  | ge => order.isGE

/-- The type of the result on operands of the given types: values of one type are compared, and
truth values only for equality. -/
def result? (op : Comparison) (left right : ValueType) : Option ValueType :=
  if left = right ∧ left ≠ .unknown ∧ (left = .boolean → op = eq ∨ op = ne) then some .boolean
  else none

end Comparison

namespace BinaryOp

/-- The name of an operator. -/
def name : BinaryOp → String
  | operate op => op.name
  | compare op => s!"Compare({op.name})"

/-- Whether the operator compares. -/
def isComparison : BinaryOp → Bool
  | compare _ => true
  | operate _ => false

/-- The type of the result on operands of the given types. -/
def result? : BinaryOp → ValueType → ValueType → Option ValueType
  | operate op => op.result?
  | compare op => op.result?

/-- The overloads over all pairs of concrete types, in order of preference. -/
def signatures (op : BinaryOp) : List Signature :=
  ValueType.concrete.flatMap fun left =>
    ValueType.concrete.filterMap fun right =>
      (op.result? left right).map fun result => ⟨[left, right], result⟩

/-- The tier of an operator. Lower tiers bind looser. -/
def tier (op : BinaryOp) (style : Precedence) : Nat :=
  match op, style with
  | compare _, _ => 0
  | operate .and, .mathematical | operate .or, .mathematical
  | operate .xor, .mathematical => 10
  | operate .or, .layered => 10
  | operate .xor, .layered => 11
  | operate .and, .layered => 12
  | operate .add, _ | operate .subtract, _ => 20
  | operate .multiply, _ | operate .divide, _ | operate .modulo, _ => 30
  | operate .shiftLeft, _ | operate .shiftRight, _ => 40
  | operate .power, _ => 50

end BinaryOp

namespace UnaryOp

/-- The name of an operator. -/
def name : UnaryOp → String
  | negate => "Negate"
  | not => "Not"

/-- The type of the result on an operand of the given type. -/
def result? (op : UnaryOp) (operand : ValueType) : Option ValueType :=
  match op, operand with
  | negate, .integer | negate, .numeric => some operand
  | not, .boolean | not, .integer | not, .bytes => some operand
  | _, _ => none

/-- The overloads over all concrete types, in order of preference. -/
def signatures (op : UnaryOp) : List Signature :=
  ValueType.concrete.filterMap fun t => (op.result? t).map fun result => ⟨[t], result⟩

end UnaryOp

end Formula
