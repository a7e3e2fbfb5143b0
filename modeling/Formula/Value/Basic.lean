import Formula.Bytes
import Formula.Decimal.Layout
import Formula.ValueType

/-!
# Values

The values that expressions take and give.

## Main definitions

* `Value`, `Value.type`: values and their types.
* `Value.display`: the plain text of a value.
* `Value.canonical`, `Value.agrees`: equality that does not see the sign of a zero.
* `Value.boolean?`, `Value.integer?`, `Value.number?`, `Value.string?`, `Value.bytes?`: the views
  of a value.
-/

namespace Formula

/-- A value. -/
inductive Value where
  | boolean (b : Bool)
  | integer (i : Int64)
  | numeric (x : Float)
  | string (s : String)
  | bytes (bs : Bytes)
  deriving DecidableEq, Inhabited

namespace Value

/-- The type of a value. -/
def type : Value → ValueType
  | boolean _ => .boolean
  | integer _ => .integer
  | numeric _ => .numeric
  | string _ => .string
  | bytes _ => .bytes

/-- Decimal text of an integer. -/
def integerText (i : Int) : Text :=
  if i < 0 then '-' :: Nat.toDigits 10 i.natAbs else Nat.toDigits 10 i.natAbs

/-- The plain text of a value. -/
def display : Value → String
  | boolean b => if b then "true" else "false"
  | integer i => String.ofList (integerText i.toInt)
  | numeric x => String.ofList (Decimal.write Decimal.display x)
  | string s => s
  | bytes bs => String.ofList ('0' :: 'x' :: Bytes.hex bs)

/-- The value with the sign of a zero dropped. -/
def canonical : Value → Value
  | numeric x => if x == 0 then numeric 0 else numeric x
  | v => v

/-- Equality up to the sign of a zero. The double that is no number agrees with itself. -/
def agrees (a b : Value) : Bool :=
  a.canonical = b.canonical

/-- Whether the value is a number. -/
def isNumber : Value → Bool
  | integer _ | numeric _ => true
  | _ => false

/-- Why a value has no view of some kind. -/
inductive ViewFault where
  | notBoolean
  | notInteger
  | notNumber
  | notString
  | notBytes
  deriving DecidableEq

/-- The wording of a fault. -/
def ViewFault.message : ViewFault → String
  | notBoolean => "not a bool"
  | notInteger => "not an integer"
  | notNumber => "not a number"
  | notString => "not a string"
  | notBytes => "not a byte array"

/-- The value as a truth value. -/
def boolean? : Value → Except ViewFault Bool
  | boolean b => .ok b
  | _ => .error .notBoolean

/-- The value as an integer. -/
def integer? : Value → Except ViewFault Int64
  | integer i => .ok i
  | _ => .error .notInteger

/-- The value as a double; integers widen. -/
def number? : Value → Except ViewFault Float
  | integer i => .ok (Binary64.ofInteger i)
  | numeric x => .ok x
  | _ => .error .notNumber

/-- The value as a string. -/
def string? : Value → Except ViewFault String
  | string s => .ok s
  | _ => .error .notString

/-- The value as a byte array. -/
def bytes? : Value → Except ViewFault Bytes
  | bytes bs => .ok bs
  | _ => .error .notBytes

instance : Hashable Value where
  hash
    | boolean b => mixHash 1 (hash b)
    | integer i => mixHash 2 (hash i.toUInt64)
    | numeric x => mixHash 3 (hash x.toBits)
    | string s => mixHash 4 (hash s)
    | bytes bs => mixHash 5 (hash bs)

end Value

end Formula
