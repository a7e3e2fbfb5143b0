import Formula.Binary64

/-!
# Shortest decimals

The shortest decimal that reads back as a given double. A decimal reads back as the double
`m * 2 ^ q` when it lies between the midpoints to the neighbouring doubles, the midpoints
included when `m` is even. For one digit, two digits and so on, the two neighbours of the double
on the grid of that many digits are tried: the first grid with a hit decides, and of two hits the
nearer one is taken.

## Main definitions

* `Decimal`: `digits * 10 ^ exponent`.
* `Decimal.Tie`: what to do with two decimals that are equally near.
* `Decimal.shortest`: the shortest decimal of a positive double.
-/

namespace Formula

/-- The number `digits * 10 ^ exponent`. -/
structure Decimal where
  digits : Nat
  exponent : Int
  deriving DecidableEq

namespace Decimal

/-- The choice between two decimals that are equally near. -/
inductive Tie where
  | up
  | toEven
  deriving DecidableEq

/-- The quotients by which a double and its two midpoints exceed a power of ten: the double is
`value / unit` steps of the grid, the midpoints are `low / unit` and `high / unit`. -/
structure Steps where
  low : Nat
  value : Nat
  high : Nat
  unit : Nat

/-- Measures `m * 2 ^ q` and its midpoints in steps of `10 ^ k`. -/
def steps (m : Nat) (q k : Int) : Steps :=
  let below := if m = Binary64.normalBound && decide (-1074 < q) then 1 else 2
  let scale := Nat.pow 10 (-k).toNat <<< (q - 2).toNat
  let unit := Nat.pow 10 k.toNat <<< (2 - q).toNat
  { low := (4 * m - below) * scale
    value := 4 * m * scale
    high := (4 * m + 2) * scale
    unit }

/-- Whether `c` steps lie between the midpoints, which count themselves if `inclusive`. -/
def Steps.admits (s : Steps) (inclusive : Bool) (c : Nat) : Bool :=
  if inclusive then s.low ≤ c * s.unit && c * s.unit ≤ s.high
  else s.low < c * s.unit && c * s.unit < s.high

/-- The whole number of steps nearest to the value. -/
def Steps.nearest (s : Steps) (tie : Tie) : Nat :=
  let c := s.value / s.unit
  let twice := 2 * (s.value % s.unit)
  if twice < s.unit then c
  else if s.unit < twice then c + 1
  else match tie with
    | .up => c + 1
    | .toEven => if c % 2 = 0 then c else c + 1

/-- The number of steps that reads back as the value, if one of its two neighbours does. -/
def Steps.hit? (s : Steps) (tie : Tie) (inclusive : Bool) : Option Nat :=
  let c := s.value / s.unit
  match s.admits inclusive c, s.admits inclusive (c + 1) with
  | true, true => some (s.nearest tie)
  | true, false => some c
  | false, true => some (c + 1)
  | false, false => none

/-- The exponent of the leading decimal digit of `m * 2 ^ q`, for `0 < m`. -/
def leadingExponent (m : Nat) (q : Int) : Int :=
  let a := m <<< q.toNat
  let b := 1 <<< (-q).toNat
  if b ≤ a then ((Nat.toDigits 10 (a / b)).length : Int) - 1
  else -((Nat.toDigits 10 (b / a)).length : Int)

/-- Drops trailing zeros of the digits; the argument bounds their number. -/
def withoutZeros : Nat → Decimal → Decimal
  | 0, d => d
  | n + 1, d =>
    if d.digits ≠ 0 ∧ d.digits % 10 = 0 then withoutZeros n ⟨d.digits / 10, d.exponent + 1⟩ else d

/-- Number of digits that always suffice. -/
def maxDigits : Nat := 17

/-- The shortest decimal that reads back as `m * 2 ^ q`, for `0 < m`. -/
def shortest (tie : Tie) (m : Nat) (q : Int) : Decimal :=
  let lead := leadingExponent m q
  let onGrid (n : Nat) : Option Decimal :=
    let k := lead - n
    ((steps m q k).hit? tie (m % 2 == 0)).map fun c => ⟨c, k⟩
  let last : Int := lead - (maxDigits - 1 : Nat)
  let found := (List.range maxDigits).findSome? onGrid
  withoutZeros (maxDigits + 1) (found.getD ⟨(steps m q last).nearest tie, last⟩)

end Decimal

end Formula
