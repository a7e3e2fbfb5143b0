import Formula.Node.Typing
import Formula.Program.Builder

/-!
# Lowering

Instructions that compute a tree. Operands come first, from left to right; then the result gets a
register, and one more if it still has to be converted. The tree has been strongly determined for
the type asked for.

## Main definitions

* `Node.lower`: emits the instructions of a tree and tells the register of its result.
-/

namespace Formula

namespace Builder

/-- Converts what stands in a register, if its type is not the one asked for. -/
def widen (b : Builder) (register : Nat) (own target : ValueType) :
    Except MachineFault (Nat × Builder) :=
  if own = target then .ok (register, b)
  else do
    let (dest, b) ← b.allocate
    return (dest, b.emit (.convert dest register target))

/-- Emits the instruction of an application to operands in registers. -/
def emitApplication (b : Builder) (head : Head) (signature : Signature) (dest : Nat)
    (operands : List Nat) : Except MachineFault Builder :=
  match head, operands with
  | .unary op, [source] => .ok (b.emit (.unary op dest source))
  | .binary (.operate op), [left, right] => .ok (b.emit (.operate op dest left right))
  | .binary (.compare op), [left, right] =>
    .ok (b.emit (.compare op dest left right signature.comparesNumbers))
  | .call f, args => do
    let (place, b) ← b.addCall ⟨dest, f, args⟩
    return b.emit (.call place)
  | head, _ => .error (.undetermined head.name)

end Builder

namespace Node

mutual

/-- Emits the instructions of a tree, to produce `target`; returns the register of the result. -/
def lower (params : List Parameter) (target : ValueType) (node : Node) (b : Builder) :
    Except MachineFault (Nat × Builder) :=
  match node with
  | constant value _ =>
    match value.convert target with
    | .error fault => .error (.operationFailed fault)
    | .ok value => do
      let (place, b) ← b.addLiteral value
      let (dest, b) ← b.allocate
      return (dest, b.emit (.loadLiteral dest place))
  | parameter id => do
    let id ← Builder.index id
    match params[id]? with
    | none => throw (.parameterOutOfBounds id params.length)
    | some param =>
      let (dest, b) ← b.allocate
      let b := b.emit (.loadParameter dest id)
      match param.supported.single? with
      | some own => b.widen dest own target
      | none => return (dest, b)
  | apply head operands typing =>
    match typing.selected? with
    | none => .error (.undetermined head.name)
    | some (_, signature) => do
      let (registers, b) ← lowerAll params signature.args operands b
      let (dest, b) ← b.allocate
      let b ← b.emitApplication head signature dest registers
      b.widen dest signature.result target

/-- Emits the instructions of operands in turn; returns the registers of their results. -/
def lowerAll (params : List Parameter) (targets : List ValueType) (nodes : List Node)
    (b : Builder) : Except MachineFault (List Nat × Builder) :=
  match nodes, targets with
  | [], _ | _, [] => .ok ([], b)
  | n :: rest, target :: targets => do
    let (register, b) ← lower params target n b
    let (registers, b) ← lowerAll params targets rest b
    return (register :: registers, b)

end

end Node

end Formula
