import Std.Data.HashMap
import Formula.Program.Basic

/-!
# Building programs

Registers, literals and calls are numbered in the order in which they are asked for. Literals that
agree share one place in the table.

## Main definitions

* `Builder`: a program under construction.
* `Builder.literalPlace`: where a literal stands or would stand in the table.
* `Builder.allocate`, `Builder.addLiteral`, `Builder.addCall`, `Builder.emit`, `Builder.finish`.
-/

namespace Formula

/-- A program under construction. -/
structure Builder where
  instructions : Array Instruction := #[]
  literals : Array Value := #[]
  /-- The place of each literal in the table, the sign of a zero dropped. -/
  places : Std.HashMap Value Nat := ∅
  calls : Array Call := #[]
  registers : Nat := 0

namespace Builder

/-- An index, if it is not too high. -/
def index (n : Nat) : Except MachineFault Nat :=
  if n ≤ maxIndex then .ok n else .error .registerLimitExceeded

/-- A new register. -/
def allocate (b : Builder) : Except MachineFault (Nat × Builder) := do
  let register ← index b.registers
  return (register, { b with registers := b.registers + 1 })

/-- The place that a literal has or would get in the table; a literal that agrees with an earlier
one shares its place. -/
def literalPlace (b : Builder) (v : Value) : Except MachineFault Nat :=
  match b.places[v.canonical]? with
  | some place => .ok place
  | none => index b.literals.size

/-- Puts a literal at its place, unless the table reaches it already. -/
def putLiteral (b : Builder) (v : Value) (place : Nat) : Builder :=
  if place < b.literals.size then b
  else { b with
    literals := b.literals.push v
    places := b.places.insert v.canonical place }

/-- The place of a literal in the table, which holds it from then on. -/
def addLiteral (b : Builder) (v : Value) : Except MachineFault (Nat × Builder) := do
  let place ← b.literalPlace v
  return (place, b.putLiteral v place)

/-- The place of a call in the table. -/
def addCall (b : Builder) (call : Call) : Except MachineFault (Nat × Builder) := do
  let place ← index b.calls.size
  return (place, { b with calls := b.calls.push call })

/-- Adds an instruction. -/
def emit (b : Builder) (instruction : Instruction) : Builder :=
  { b with instructions := b.instructions.push instruction }

/-- Ends a program that gives what stands in a register. -/
def finish (b : Builder) (result : Nat) (tolerance : Option Tolerance.Kind) : Program :=
  let b := b.emit (.ret result)
  { instructions := b.instructions
    literals := b.literals
    calls := b.calls
    registers := b.registers
    tolerance }

end Builder

end Formula
