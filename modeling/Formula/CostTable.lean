import Formula.ValueType

/-!
# Cost tables

For every type that an expression could be made to produce, the cheapest way of producing it.

## Main definitions

* `Cost`: what a type costs, the type computed before the last conversion, and the overload.
* `CostTable`, `CostTable.offer`: the best offer for each type; an equal offer changes nothing.
* `CostTable.leaf`: the table of a constant or parameter.
* `CostTable.preferred?`: the cheapest type, the earlier one of equals.
-/

namespace Formula

/-- One way of producing a type. -/
structure Cost where
  /-- Number of implicit conversions. -/
  cost : Nat
  /-- The type before the last conversion. -/
  internal : ValueType
  /-- Place of the overload in the list of signatures. -/
  choice : Nat
  deriving DecidableEq

/-- The best offer for each type, where there is one. -/
structure CostTable where
  unknown : Option Cost := none
  boolean : Option Cost := none
  integer : Option Cost := none
  numeric : Option Cost := none
  string : Option Cost := none
  bytes : Option Cost := none
  deriving DecidableEq

namespace CostTable

/-- The table without offers. -/
def empty : CostTable := {}

/-- The best offer for a type. -/
def get? (table : CostTable) : ValueType → Option Cost
  | .unknown => table.unknown
  | .boolean => table.boolean
  | .integer => table.integer
  | .numeric => table.numeric
  | .string => table.string
  | .bytes => table.bytes

/-- Replaces the offer for a type. -/
def set (table : CostTable) (t : ValueType) (cost : Cost) : CostTable :=
  match t with
  | .unknown => { table with unknown := some cost }
  | .boolean => { table with boolean := some cost }
  | .integer => { table with integer := some cost }
  | .numeric => { table with numeric := some cost }
  | .string => { table with string := some cost }
  | .bytes => { table with bytes := some cost }

/-- Takes an offer that is cheaper than what is there. -/
def offer (table : CostTable) (t : ValueType) (cost : Cost) : CostTable :=
  match table.get? t with
  | some existing => if existing.cost ≤ cost.cost then table else table.set t cost
  | none => table.set t cost

/-- Offers a result of type `internal`, computed by the overload `choice` at cost `base`, for
every type it converts to. -/
def offerConversions (table : CostTable) (base : Nat) (internal : ValueType) (choice : Nat) :
    CostTable :=
  ValueType.concrete.foldl (fun table target =>
    match conversionCost? internal target with
    | some conversion => table.offer target ⟨base + conversion, internal, choice⟩
    | none => table) table

/-- The table of something that has one of the types `own` and is computed from nothing. -/
def leaf (own : TypeMask) : CostTable :=
  own.types.foldl (fun table source => table.offerConversions 0 source 0) empty

/-- The types with an offer. -/
def supported (table : CostTable) : TypeMask :=
  TypeMask.ofList (ValueType.concrete.filter fun t => (table.get? t).isSome)

/-- Whether there is no offer at all. -/
def isEmpty (table : CostTable) : Bool :=
  table == empty

/-- The cheapest type; of equals the one declared first. -/
def preferred? (table : CostTable) : Option ValueType :=
  (ValueType.concrete.foldl (fun (best : Option (Nat × ValueType)) t =>
    match table.get? t, best with
    | none, best => best
    | some c, none => some (c.cost, t)
    | some c, some (cost, u) => if c.cost < cost then some (c.cost, t) else some (cost, u))
    none).map Prod.snd

@[simp]
theorem get?_set (table : CostTable) (t u : ValueType) (cost : Cost) :
    (table.set t cost).get? u = if u = t then some cost else table.get? u := by
  cases t <;> cases u <;> rfl

end CostTable

end Formula
