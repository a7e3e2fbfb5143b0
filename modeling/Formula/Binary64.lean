import Formula.Word

/-!
# Doubles as exact numbers

A finite double is a sign, a natural significand and a power of two. This module reads these
off the bit pattern and defines, in exact arithmetic, the operations on doubles that the library
needs beyond addition, multiplication and comparison: the remainder of truncated division, the
cube root, rounding to a whole number, the integer a double stands for, and the lesser and greater
of two doubles. Other functions are computed by the mathematics of the platform, but what they are
at a zero is said here.

## Main definitions

* `Binary64.Parts`, `Binary64.parts`: what a bit pattern stands for.
* `Binary64.scaled`: the double nearest to `n * 2 ^ e`.
* `Binary64.remainder`: remainder with the sign of the dividend.
* `Binary64.cubeRoot`: the double nearest to the cube root.
* `Binary64.whole`: a double rounded to a whole one.
* `Binary64.power`, `Binary64.angle`: the power of a double and the angle of a point.
* `Binary64.toInteger?`: the 64-bit integer equal to a double.
* `Binary64.lesser`, `Binary64.greater`: of two doubles, a NaN giving way to a number.
-/

namespace Formula.Binary64

/-- What a bit pattern stands for. A finite double is `± significand * 2 ^ exponent`. -/
inductive Parts where
  | finite (negative : Bool) (significand : Nat) (exponent : Int)
  | infinite (negative : Bool)
  | notANumber
  deriving DecidableEq

/-- The smallest normal significand: below it the gap to the next smaller double halves. -/
def normalBound : Nat := 1 <<< 52

/-- The sign, exponent field and fraction field of a bit pattern. -/
def fields (bits : Nat) : Bool × Nat × Nat :=
  (bits.testBit 63, (bits >>> 52) % 2048, bits % normalBound)

/-- Reads a double off its bit pattern. -/
def parts (x : Float) : Parts :=
  let (negative, e, f) := fields x.toBits.toNat
  if e = 2047 then
    if f = 0 then .infinite negative else .notANumber
  else if e = 0 then .finite negative f (-1074)
  else .finite negative (f + normalBound) (e - 1075)

/-- Whether the sign is set, which a zero may have too. -/
def isNegative (x : Float) : Bool :=
  (fields x.toBits.toNat).1

/-- Positive infinity. -/
def infinity : Float := Float.ofBits 0x7FF0000000000000

/-- The double that is no number. -/
def notANumber : Float := Float.ofBits 0x7FF8000000000000

/-- The double nearest to `n * 2 ^ e`, negated if asked. A negative power of two is written as a
decimal fraction: `2 ^ -k = 5 ^ k * 10 ^ -k`. -/
def scaled (negative : Bool) (n : Nat) (e : Int) : Float :=
  let x := match e with
    | .ofNat k => Float.ofScientific (n <<< k) false 0
    | .negSucc k => Float.ofScientific (n * Nat.pow 5 (k + 1)) true (k + 1)
  if negative then -x else x

/-- Remainder of division truncated towards zero; it has the sign of the dividend. -/
def remainder (x y : Float) : Float :=
  match parts x, parts y with
  | .finite negative m p, .finite _ n q =>
    if n = 0 then notANumber
    else
      let e := min p q
      let a := m <<< (p - e).toNat
      let b := n <<< (q - e).toNat
      scaled negative (a % b) e
  | .finite _ _ _, .infinite _ => x
  | _, _ => notANumber

/-- The largest number whose cube is at most `n`, found bit by bit from the top. -/
def floorCubeRoot (n : Nat) : Nat :=
  (List.range (n.log2 / 3 + 1)).foldr (fun k root =>
    let next := root + (1 <<< k)
    if next * next * next ≤ n then next else root) 0

/-- The double nearest to the cube root. The significand is widened until its root has more bits
than a double; a root that is not whole is then replaced by the half above its integral part,
which rounds the same way. -/
def cubeRoot (x : Float) : Float :=
  match parts x with
  | .finite negative m e =>
    if m = 0 then x
    else
      let widening := 180 + (e % 3).toNat
      let n := m <<< widening
      let third := (e - widening) / 3
      let root := floorCubeRoot n
      if root * root * root = n then scaled negative root third
      else scaled negative (2 * root + 1) (third - 1)
  | _ => x

/-- The integer equal to `x`, if `x` is integral and lies in `[-2 ^ 63, 2 ^ 63)`. -/
def toInteger? (x : Float) : Option Int64 :=
  match parts x with
  | .finite negative m e =>
    let (integral, n) := match e with
      | .ofNat k => (true, m <<< k)
      | .negSucc k => (m % (1 <<< (k + 1)) == 0, m >>> (k + 1))
    let i : Int := if negative then -(n : Int) else n
    if integral then Word.ofInt? i else none
  | _ => none

/-- The double nearest to a 64-bit integer. -/
def ofInteger (i : Int64) : Float :=
  Float.ofModel (Float.Model.ofInt64 i)

/-- The lesser of two doubles; a NaN gives way, and of two equal ones the second is taken. -/
def lesser (x y : Float) : Float :=
  if y.isNaN then x else if x < y then x else y

/-- The greater of two doubles; a NaN gives way, and of two equal ones the second is taken. -/
def greater (x y : Float) : Float :=
  if y.isNaN then x else if y < x then x else y

/-- The whole double next to `x`, which is farther from zero if `away` says so, given the sign, the
numerator and the denominator of the fraction that is dropped. A whole double stays, and so does the
sign of a zero. -/
def whole (away : Bool → Nat → Nat → Bool) (x : Float) : Float :=
  match parts x with
  | .finite negative m (.negSucc k) =>
    let n := m >>> (k + 1)
    let unit := 1 <<< (k + 1)
    scaled negative (if away negative (m % unit) unit then n + 1 else n) 0
  | _ => x

/-- The double nearest to the circle number. -/
def pi : Float := Float.ofBits 0x400921FB54442D18

/-- The double nearest to half of the circle number. -/
def halfPi : Float := Float.ofBits 0x3FF921FB54442D18

/-- Whether a double is an odd integer. From `2 ^ 53` on all doubles are even. -/
def isOdd (x : Float) : Bool :=
  match toInteger? x with
  | some i => i % 2 != 0
  | none => false

/-- A zero to a power that is no zero. An odd power keeps the sign. -/
def powerOfZero (zero y : Float) : Float :=
  if 0 < y then if isOdd y then zero else 0
  else if y < 0 then if isOdd y then 1 / zero else infinity
  else notANumber

/-- The power of a double. The platform computes it where neither number is a zero. -/
def power (x y : Float) : Float :=
  if y == 0 then 1
  else if x == 0 then powerOfZero x y
  else x.pow y

/-- The angle of the point `(x, y)`. The platform computes it off the axes. -/
def angle (y x : Float) : Float :=
  if y == 0 then
    if x.isNaN then notANumber
    else if isNegative x then if isNegative y then -pi else pi
    else y
  else if x == 0 then
    if 0 < y then halfPi else if y < 0 then -halfPi else notANumber
  else y.atan2 x

end Formula.Binary64
