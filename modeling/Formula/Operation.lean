import Formula.Operator
import Formula.Tolerance.Basic
import Formula.Value.Basic
import Formula.Word

/-!
# What operators do to values

The meaning of the operators on values as they are, without any implicit conversion but one: a
number meets a number as a double unless both are integers. Integer arithmetic is exact or
fails.

## Main definitions

* `OperationFault`: why an operator has no result on given values.
* `Value.convert`: the implicit conversion.
* `Operation.apply`, `UnaryOp.apply`, `Comparison.apply`: the operators.
* `Comparison.applyWithin`: comparison of numbers with an allowance around the right operand.
-/

namespace Formula

/-- Why an operator has no result on given values. -/
inductive OperationFault where
  | noConversion (value : Value) (target : ValueType)
  | overflow (op : Operation) (x y : Int64)
  | negationOverflow (x : Int64)
  | divisionByZero
  | unsuited (op : Operation) (a b : Value)
  | unsuitedOperand (a : Value)
  | countNotInteger
  | booleansUnordered
  | incomparable (a b : Value)
  deriving DecidableEq

/-- The sign of an operation whose integer form can overflow. -/
def Operation.sign : Operation → String
  | .add => "+"
  | .subtract => "-"
  | .multiply => "*"
  | .modulo => "%"
  | op => op.name

/-- The wording of a fault. -/
def OperationFault.message : OperationFault → String
  | noConversion v t => s!"cannot convert `{v.display}` to {t.label}"
  | overflow op x y => s!"integer overflow in `{x.toInt} {op.sign} {y.toInt}`"
  | negationOverflow x => s!"integer overflow in `-{x.toInt}`"
  | divisionByZero => "division by zero"
  | unsuited op a b =>
    let (a, b) := (a.display, b.display)
    match op with
    | .add => s!"cannot add `{a}` and `{b}`"
    | .subtract => s!"cannot subtract `{b}` from `{a}`"
    | .multiply => s!"cannot multiply `{a}` and `{b}`"
    | .divide => s!"cannot divide `{a}` by `{b}`"
    | .modulo => s!"cannot take `{a}` modulo `{b}`"
    | .power => s!"cannot raise `{a}` to `{b}`"
    | .and | .or | .xor => s!"cannot apply {op.name} to `{a}` and `{b}`"
    | .shiftLeft | .shiftRight => s!"cannot shift `{a}`"
  | unsuitedOperand a => s!"cannot negate `{a.display}`"
  | countNotInteger => Value.ViewFault.notInteger.message
  | booleansUnordered => "booleans cannot be ordered"
  | incomparable a b => s!"cannot compare `{a.display}` with `{b.display}`"

/-- The implicit conversion of a value: to its own type, or of an integer to a numeric. -/
def Value.convert (v : Value) (target : ValueType) : Except OperationFault Value :=
  if v.type = target then .ok v
  else match v, target with
    | .integer i, .numeric => .ok (.numeric (Binary64.ofInteger i))
    | v, target => .error (.noConversion v target)

namespace Operation

/-- An integer result, or the fault of one that does not fit. -/
def exactly (op : Operation) (x y : Int64) (result : Option Int64) :
    Except OperationFault Value :=
  match result with
  | some r => .ok (.integer r)
  | none => .error (.overflow op x y)

/-- A result computed in doubles, for two numbers. -/
def inDoubles (op : Operation) (a b : Value) (f : Float → Float → Except OperationFault Float) :
    Except OperationFault Value :=
  match a.number?, b.number? with
  | .ok x, .ok y => (f x y).map .numeric
  | _, _ => .error (.unsuited op a b)

/-- Bitwise logic on truth values, integers or byte arrays. -/
def logic (op : Operation) (onBool : Bool → Bool → Bool) (onInt : Int64 → Int64 → Int64)
    (onByte : UInt8 → UInt8 → UInt8) (a b : Value) : Except OperationFault Value :=
  match a, b with
  | .boolean x, .boolean y => .ok (.boolean (onBool x y))
  | .integer x, .integer y => .ok (.integer (onInt x y))
  | .bytes x, .bytes y => .ok (.bytes (Bytes.zipExtended onByte x y))
  | a, b => .error (.unsuited op a b)

/-- A shift by an integer count. -/
def shift (op : Operation) (onInt : Int64 → Int64 → Int64) (onBytes : Bytes → Int64 → Bytes)
    (a b : Value) : Except OperationFault Value :=
  match b.integer? with
  | .error _ => .error .countNotInteger
  | .ok count =>
    match a with
    | .integer x => .ok (.integer (onInt x count))
    | .bytes bs => .ok (.bytes (onBytes bs count))
    | a => .error (.unsuited op a b)

/-- Applies an operation. A string takes up the text that `format` gives the other operand. -/
def apply (format : Value → String) (op : Operation) (a b : Value) :
    Except OperationFault Value :=
  match op with
  | add =>
    match a, b with
    | .integer x, .integer y => exactly op x y (Word.add? x y)
    | .string _, _ | _, .string _ => .ok (.string (format a ++ format b))
    | .bytes x, .bytes y => .ok (.bytes (x ++ y))
    | a, b => inDoubles op a b fun x y => .ok (x + y)
  | subtract =>
    match a, b with
    | .integer x, .integer y => exactly op x y (Word.sub? x y)
    | a, b => inDoubles op a b fun x y => .ok (x - y)
  | multiply =>
    match a, b with
    | .integer x, .integer y => exactly op x y (Word.mul? x y)
    | a, b => inDoubles op a b fun x y => .ok (x * y)
  | divide =>
    inDoubles op a b fun x y => if y == 0 then .error .divisionByZero else .ok (x / y)
  | modulo =>
    match a, b with
    | .integer x, .integer y =>
      if y = 0 then .error .divisionByZero else exactly op x y (Word.rem? x y)
    | a, b =>
      inDoubles op a b fun x y =>
        if y == 0 then .error .divisionByZero else .ok (Binary64.remainder x y)
  | power => inDoubles op a b fun x y => .ok (x.pow y)
  | and => logic op (· && ·) (· &&& ·) (· &&& ·) a b
  | or => logic op (· || ·) (· ||| ·) (· ||| ·) a b
  | xor => logic op Bool.xor (· ^^^ ·) (· ^^^ ·) a b
  | shiftLeft => shift op Word.shiftLeft Bytes.shiftLeft a b
  | shiftRight => shift op Word.shiftRight Bytes.shiftRight a b

end Operation

/-- Applies a unary operator. -/
def UnaryOp.apply (op : UnaryOp) (a : Value) : Except OperationFault Value :=
  match op, a with
  | .negate, .integer x =>
    match Word.neg? x with
    | some r => .ok (.integer r)
    | none => .error (.negationOverflow x)
  | .negate, .numeric x => .ok (.numeric (-x))
  | .not, .boolean b => .ok (.boolean !b)
  | .not, .integer x => .ok (.integer (~~~x))
  | .not, .bytes bs => .ok (.bytes bs.invert)
  | _, a => .error (.unsuitedOperand a)

namespace Comparison

/-- The order of two doubles, if they have one. -/
def floatOrder? (x y : Float) : Option Ordering :=
  if x < y then some .lt
  else if y < x then some .gt
  else if x == y then some .eq
  else none

/-- The order of two integers. -/
def integerOrder (x y : Int64) : Ordering :=
  compare x.toInt y.toInt

/-- The order of two strings, by code points. -/
def stringOrder (s t : String) : Ordering :=
  if s < t then .lt else if s = t then .eq else .gt

/-- Compares two values exactly. Integers, strings and byte arrays compare among themselves, any
two numbers as doubles, truth values only for equality. Where doubles have no order, they
differ. -/
def apply (op : Comparison) (a b : Value) : Except OperationFault Bool :=
  match a, b with
  | .integer x, .integer y => .ok (op.holds (integerOrder x y))
  | .string s, .string t => .ok (op.holds (stringOrder s t))
  | .bytes x, .bytes y => .ok (op.holds (Bytes.order x y))
  | .boolean x, .boolean y =>
    match op with
    | eq => .ok (x == y)
    | ne => .ok (x != y)
    | _ => .error .booleansUnordered
  | a, b =>
    match a.number?, b.number? with
    | .ok x, .ok y =>
      match floatOrder? x y with
      | some order => .ok (op.holds order)
      | none => .ok (op = ne)
    | _, _ => .error (.incomparable a b)

/-- Compares a double with an interval: equal inside it, less below it, greater above it. -/
def withinBand (op : Comparison) (x low high : Float) : Bool :=
  let inside := low ≤ x && x ≤ high
  match op with
  | eq => inside
  | ne => !inside
  | lt => x < low
  | le => x ≤ high
  | gt => high < x
  | ge => low ≤ x

/-- Compares two numbers with an allowance around the right one, and all else exactly. -/
def applyWithin (op : Comparison) (kind : Tolerance.Kind) (a b : Value) :
    Except OperationFault Bool :=
  match a.number?, b.number? with
  | .ok x, .ok y =>
    let (low, high) := kind.band y
    .ok (op.withinBand x low high)
  | _, _ => op.apply a b

end Comparison

end Formula
