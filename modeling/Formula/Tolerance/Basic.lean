import Formula.Binary64

/-!
# Comparison tolerances

Allowances for approximate comparison of numbers. Of the three allowances a tolerance may carry,
one is honored: the integer range first, then the range, then the proportion.

## Main definitions

* `Tolerance`, `Tolerance.Kind`, `Tolerance.honored?`: tolerances and the allowance they honor.
* `Tolerance.Kind.key`: the identity of an allowance, bit for bit.
* `Tolerance.Kind.band`: the closed interval around a number that counts as equal to it.
-/

namespace Formula

/-- The allowances of a tolerance. -/
structure Tolerance where
  integerRange : Option (Int64 × Int64) := none
  range : Option (Float × Float) := none
  /-- Below one a share of the right operand, from one on a factor. -/
  proportion : Option Float := none
  deriving DecidableEq

namespace Tolerance

/-- The allowance that is honored. -/
inductive Kind where
  | integerRange (lower upper : Int64)
  | range (lower upper : Float)
  | proportional (proportion : Float)
  deriving DecidableEq

/-- The identity of an allowance. -/
inductive Key where
  | integerRange (lower upper : Int64)
  | range (lower upper : UInt64)
  | proportional (proportion : UInt64)
  deriving DecidableEq, Hashable

/-- The allowance honored by a tolerance. -/
def honored? (tolerance : Tolerance) : Option Kind :=
  match tolerance.integerRange, tolerance.range with
  | some (lower, upper), _ => some (.integerRange lower upper)
  | none, some (lower, upper) => some (.range lower upper)
  | none, none => tolerance.proportion.map .proportional

namespace Kind

/-- The identity of an allowance, bit for bit. -/
def key : Kind → Key
  | integerRange lower upper => .integerRange lower upper
  | range lower upper => .range lower.toBits upper.toBits
  | proportional p => .proportional p.toBits

/-- The interval around `right` that counts as equal to it. -/
def band (kind : Kind) (right : Float) : Float × Float :=
  match kind with
  | integerRange lower upper =>
    (right - Binary64.ofInteger lower, right + Binary64.ofInteger upper)
  | range lower upper => (right - lower, right + upper)
  | proportional p =>
    let (a, b) := if p < 1 then (right * (1 - p), right * (1 + p)) else (right / p, right * p)
    (Binary64.lesser a b, Binary64.greater a b)

end Kind

/-- The identity of what a tolerance honors. -/
def key? (tolerance : Tolerance) : Option Key :=
  tolerance.honored?.map Kind.key

end Tolerance

end Formula
