import Formula.Plugin.Basic
import Formula.Program.Basic

/-!
# Running programs

Instructions run one after another over the registers, which start out as the truth value false.

## Main definitions

* `Draws`: the numbers drawn for the random functions.
* `Program.effect`: what one instruction does.
* `Program.execute`, `Program.run`: running a program on arguments.
-/

namespace Formula

/-- The numbers drawn for the calls of a program, by their places in its table. -/
abbrev Draws := Nat → UInt64

namespace Program

/-- What an instruction does: it puts a value into a register, or ends the program. -/
inductive Effect where
  | assign (dest : Nat) (value : Value)
  | finish (value : Value)
  deriving DecidableEq

/-- Reads a register. -/
def read (registers : Array Value) (r : Nat) : Except MachineFault Value :=
  match registers[r]? with
  | some v => .ok v
  | none => .error (.registerOutOfBounds r)

/-- Writes a register. -/
def write (registers : Array Value) (r : Nat) (v : Value) : Except MachineFault (Array Value) :=
  if r < registers.size then .ok (registers.setIfInBounds r v) else .error (.registerOutOfBounds r)

/-- The outcome of an operator as the outcome of an instruction. -/
def lift {α : Type} : Except OperationFault α → Except MachineFault α
  | .ok a => .ok a
  | .error fault => .error (.operationFailed fault)

/-- Compares two values, with the program's allowance if the comparison is tolerant. -/
def comparison (p : Program) (op : Comparison) (tolerant : Bool) (a b : Value) :
    Except OperationFault Bool :=
  match p.tolerance, tolerant with
  | some kind, true => op.applyWithin kind a b
  | _, _ => op.apply a b

/-- What an instruction does. -/
def effect (registry : Registry) (draws : Draws) (p : Program) (args : List Value)
    (registers : Array Value) : Instruction → Except MachineFault Effect
  | .loadLiteral dest index =>
    match p.literals[index]? with
    | some v => return .assign dest v
    | none => throw (.literalOutOfBounds index)
  | .loadParameter dest index =>
    match args[index]? with
    | some v => return .assign dest v
    | none => throw (.parameterOutOfBounds index args.length)
  | .convert dest source target => do
    return .assign dest (← lift ((← read registers source).convert target))
  | .operate op dest left right => do
    let a ← read registers left
    let b ← read registers right
    return .assign dest (← lift (op.apply registry.format a b))
  | .compare op dest left right tolerant => do
    let a ← read registers left
    let b ← read registers right
    return .assign dest (.boolean (← lift (p.comparison op tolerant a b)))
  | .unary op dest source => do
    return .assign dest (← lift (op.apply (← read registers source)))
  | .call index =>
    match p.calls[index]? with
    | none => throw (.callOutOfBounds index)
    | some call => do
      let values ← call.args.mapM (read registers)
      match call.function.eval (draws index) values with
      | .ok v => return .assign call.dest v
      | .error fault => throw (.functionFailed call.function fault)
  | .ret register => do return .finish (← read registers register)

/-- Runs instructions from given register contents on. -/
def execute (registry : Registry) (draws : Draws) (p : Program) (args : List Value) :
    List Instruction → Array Value → Except MachineFault Value
  | [], _ => .error .missingReturn
  | instruction :: rest, registers => do
    match ← effect registry draws p args registers instruction with
    | .finish v => return v
    | .assign dest v => execute registry draws p args rest (← write registers dest v)

/-- Runs a program on arguments. -/
def run (registry : Registry) (draws : Draws) (p : Program) (args : List Value) :
    Except MachineFault Value :=
  p.execute registry draws args p.instructions.toList (Array.replicate p.registers (.boolean false))

end Program

end Formula
