import Formula.Function
import Formula.Operation

/-!
# Programs

A lowered expression: straight-line instructions over registers, with a table of literals and a
table of calls.

## Main definitions

* `Instruction`, `Call`, `Program`: programs.
* `MachineFault`: why a program cannot be made or run.
* `Program.listing`: the text of a program.
-/

namespace Formula

/-- Instructions. The first number of those that compute a value is the register it goes to. -/
inductive Instruction where
  | loadLiteral (dest index : Nat)
  | loadParameter (dest index : Nat)
  | convert (dest source : Nat) (target : ValueType)
  | operate (op : Operation) (dest left right : Nat)
  /-- A comparison; a tolerant one heeds the tolerance of the program. -/
  | compare (op : Comparison) (dest left right : Nat) (tolerant : Bool)
  | unary (op : UnaryOp) (dest source : Nat)
  /-- A call, by its place in the table of calls. -/
  | call (index : Nat)
  | ret (register : Nat)
  deriving DecidableEq

/-- A call: where the result goes, the function, and the registers of the arguments. -/
structure Call where
  dest : Nat
  function : Function
  args : List Nat
  deriving DecidableEq

/-- A lowered expression. -/
structure Program where
  instructions : Array Instruction
  literals : Array Value
  calls : Array Call
  /-- Number of registers. -/
  registers : Nat
  /-- The allowance of tolerant comparisons. -/
  tolerance : Option Tolerance.Kind
  deriving DecidableEq

/-- The highest index of a register, a literal, a call or a parameter. -/
def maxIndex : Nat := 65535

/-- Why a program cannot be made or run. -/
inductive MachineFault where
  | literalOutOfBounds (index : Nat)
  | registerOutOfBounds (register : Nat)
  | parameterOutOfBounds (index count : Nat)
  | callOutOfBounds (index : Nat)
  | functionFailed (function : Function) (fault : FunctionFault)
  | registerLimitExceeded
  | missingReturn
  | undetermined (what : String)
  | operationFailed (fault : OperationFault)
  deriving DecidableEq

/-- The wording of a fault. -/
def MachineFault.message : MachineFault → String
  | literalOutOfBounds index => s!"Literal index {index} out of bounds"
  | registerOutOfBounds register => s!"Register {register} out of bounds"
  | parameterOutOfBounds index count =>
    s!"Parameter index {index} out of bounds ({count} arguments supplied)"
  | callOutOfBounds index => s!"Invalid builtin call params index: {index}"
  | functionFailed f fault => s!"Builtin `{f.name}` failed: {fault.message f}"
  | registerLimitExceeded => s!"Program needs more than {maxIndex} registers"
  | missingReturn => "Program ended without returning a value"
  | undetermined what => s!"Node is not ready for lowering: {what}"
  | operationFailed fault => s!"Arithmetic error: {fault.message}"

/-- The short name of an operation in listings. -/
def Operation.mnemonic : Operation → String
  | .add => "ADD"
  | .subtract => "SUB"
  | .multiply => "MUL"
  | .divide => "DIV"
  | .modulo => "MOD"
  | .power => "POW"
  | .and => "AND"
  | .or => "OR"
  | .xor => "XOR"
  | .shiftLeft => "SHL"
  | .shiftRight => "SHR"

/-- The short name of a unary operator in listings. -/
def UnaryOp.mnemonic : UnaryOp → String
  | .negate => "NEG"
  | .not => "NOT"

/-- The text of an instruction. -/
def Instruction.show : Instruction → String
  | loadLiteral dest index => s!"LOAD R({dest}) L({index})"
  | loadParameter dest index => s!"LOAD_PARAM R({dest}) P({index})"
  | convert dest source target => s!"CONVERT R({dest}) R({source}) {target.label}"
  | operate op dest left right => s!"{op.mnemonic} R({dest}) R({left}) R({right})"
  | compare op dest left right tolerant =>
    let mark := if tolerant then " ~" else ""
    s!"{op.name} R({dest}) R({left}) R({right}){mark}"
  | unary op dest source => s!"{op.mnemonic} R({dest}) R({source})"
  | call index => s!"BUILTIN_CALL P({index})"
  | ret register => s!"RETURN R({register})"

/-- The text of a call. -/
def Call.show (call : Call) : String :=
  let args := String.intercalate " " (call.args.map fun r => s!"R({r})")
  s!"{call.function.name} R({call.dest}) [{args}]"

/-- A number filled up with spaces on the left to four places. -/
def lineNumber (n : Nat) : String :=
  let digits := Nat.toDigits 10 n
  String.ofList (List.replicate (4 - digits.length) ' ' ++ digits)

/-- The text of a program: its literals, its calls and its instructions, a line each. -/
def Program.listing (p : Program) : String :=
  let literals := p.literals.toList.zipIdx.map fun (v, i) => s!"L({i}) = {v.display}\n"
  let calls := p.calls.toList.zipIdx.map fun (c, i) => s!"P({i}) = {c.show}\n"
  let code := p.instructions.toList.zipIdx.map fun (c, i) => s!"{lineNumber i}: {c.show}\n"
  String.join (literals ++ calls ++ code)

end Formula
