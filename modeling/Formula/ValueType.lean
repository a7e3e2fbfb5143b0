/-!
# Value types and type masks

The closed set of types a value can have, sets of them, and the implicit conversions between
them.

## Main definitions

* `ValueType`: the types, and `unknown` for a type that is not settled.
* `TypeMask`: the set of types something may still take.
* `conversionCost?`: the cost of an implicit conversion. Only an integer becomes a numeric.
* `TypeMask.sources`: the types that reach some type of a mask.
-/

namespace Formula

/-- The types of values. The order matters: of two types of equal cost the earlier one is
preferred, so an integer comes before a numeric. -/
inductive ValueType where
  | unknown
  | boolean
  | integer
  | numeric
  | string
  | bytes
  deriving DecidableEq, Hashable, Inhabited

namespace ValueType

/-- The types a value can have, in order of preference. -/
def concrete : List ValueType :=
  [boolean, integer, numeric, string, bytes]

/-- The name of a type. -/
def name : ValueType → String
  | unknown => "Unknown"
  | boolean => "Boolean"
  | integer => "Integer"
  | numeric => "Numeric"
  | string => "String"
  | bytes => "ByteArray"

/-- The words for a type in running text. -/
def label : ValueType → String
  | unknown => "unknown"
  | boolean => "boolean"
  | integer => "integer"
  | numeric => "numeric"
  | string => "string"
  | bytes => "byte array"

/-- Whether values of the type are numbers. -/
def isNumber : ValueType → Bool
  | integer | numeric => true
  | _ => false

theorem mem_concrete_iff {t : ValueType} : t ∈ concrete ↔ t ≠ unknown := by
  cases t <;> simp [concrete]

end ValueType

/-- Cost of converting a value of type `source` implicitly into type `target`: nothing for the
type itself, one for an integer that becomes a numeric. -/
def conversionCost? (source target : ValueType) : Option Nat :=
  match source, target with
  | .unknown, _ | _, .unknown => none
  | .integer, .numeric => some 1
  | s, t => if s = t then some 0 else none

/-- A set of concrete types. -/
structure TypeMask where
  boolean : Bool
  integer : Bool
  numeric : Bool
  string : Bool
  bytes : Bool
  deriving DecidableEq, Hashable

namespace TypeMask

/-- No type. -/
def empty : TypeMask := ⟨false, false, false, false, false⟩

/-- Every type. -/
def all : TypeMask := ⟨true, true, true, true, true⟩

/-- The mask of one type; a type that is not settled may be any. -/
def of : ValueType → TypeMask
  | .unknown => all
  | .boolean => { empty with boolean := true }
  | .integer => { empty with integer := true }
  | .numeric => { empty with numeric := true }
  | .string => { empty with string := true }
  | .bytes => { empty with bytes := true }

/-- Whether a concrete type lies in the mask. -/
def supports (mask : TypeMask) : ValueType → Bool
  | .unknown => false
  | .boolean => mask.boolean
  | .integer => mask.integer
  | .numeric => mask.numeric
  | .string => mask.string
  | .bytes => mask.bytes

/-- Types in both masks. -/
def inter (a b : TypeMask) : TypeMask :=
  ⟨a.boolean && b.boolean, a.integer && b.integer, a.numeric && b.numeric,
    a.string && b.string, a.bytes && b.bytes⟩

/-- Types in one of the masks. -/
def union (a b : TypeMask) : TypeMask :=
  ⟨a.boolean || b.boolean, a.integer || b.integer, a.numeric || b.numeric,
    a.string || b.string, a.bytes || b.bytes⟩

/-- The mask of several types. -/
def ofList (types : List ValueType) : TypeMask :=
  types.foldl (fun mask t => mask.union (of t)) empty

/-- Whether no type is left. -/
def isEmpty (mask : TypeMask) : Bool :=
  mask == empty

/-- The types of the mask, in order of preference. -/
def types (mask : TypeMask) : List ValueType :=
  ValueType.concrete.filter mask.supports

/-- The type of a mask that holds exactly one. -/
def single? (mask : TypeMask) : Option ValueType :=
  match mask.types with
  | [t] => some t
  | _ => none

/-- The types that some type of the mask can be made from. -/
def sources (mask : TypeMask) : TypeMask :=
  ofList (ValueType.concrete.filter fun source =>
    mask.types.any fun target => (conversionCost? source target).isSome)

/-- The names of the types of a mask, as messages show them. -/
def flagName : ValueType → String
  | .boolean => "BOOLEAN"
  | .integer => "INTEGER"
  | .numeric => "NUMERIC"
  | .string => "STRING"
  | .bytes => "BYTE_ARRAY"
  | .unknown => ""

/-- The mask as messages show it. -/
def describe (mask : TypeMask) : String :=
  let names := mask.types.map flagName
  let inner := if names.isEmpty then "0x0" else String.intercalate " | " names
  s!"SupportedTypes({inner})"

@[simp]
theorem supports_inter (a b : TypeMask) (t : ValueType) :
    (a.inter b).supports t = (a.supports t && b.supports t) := by
  cases t <;> rfl

@[simp]
theorem supports_union (a b : TypeMask) (t : ValueType) :
    (a.union b).supports t = (a.supports t || b.supports t) := by
  cases t <;> rfl

theorem mem_types_iff {mask : TypeMask} {t : ValueType} :
    t ∈ mask.types ↔ mask.supports t = true := by
  cases t <;> simp [types, ValueType.concrete, supports]

end TypeMask

end Formula
