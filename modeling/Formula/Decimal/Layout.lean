import Formula.Text.Basic
import Formula.Decimal.Shortest

/-!
# Writing doubles

How the digits of a double are laid out: with the point at its place, or with an exponent. What
differs between two written forms is gathered in one record.

## Main definitions

* `Decimal.Layout`: the choices a written form makes.
* `Decimal.write`: a double in a given layout.
* `Decimal.display`: the plain form, always positional.
* `Decimal.exchange`: the form of data exchange, where a whole number keeps a fraction.
-/

namespace Formula.Decimal

/-- The choices a written form makes. The place of the point is counted in digits from the
front: `12.5` has its point at place two, `0.05` at place minus one. -/
structure Layout where
  /-- The choice between two equally near shortest decimals. -/
  tie : Tie
  /-- Whether the point is written at this place, rather than an exponent. -/
  positional : Int → Bool
  /-- What follows a whole number. -/
  wholeEnd : String
  /-- What stands before the digits of a positive exponent. -/
  positiveMark : String
  /-- What stands for an infinity, after its sign. -/
  infinite : String
  /-- What stands for the double that is no number. -/
  notANumber : String

/-- Zeros. -/
def zeros (n : Nat) : Text := List.replicate n '0'

/-- Writes `digits * 10 ^ exponent` with the point at its place. -/
def writePositional (layout : Layout) (digits : Text) (exponent : Int) : Text :=
  let point : Int := digits.length + exponent
  if 0 ≤ exponent then digits ++ zeros exponent.toNat ++ layout.wholeEnd.toList
  else if 0 < point then
    digits.take point.toNat ++ '.' :: digits.drop point.toNat
  else '0' :: '.' :: zeros (-point).toNat ++ digits

/-- Writes `digits * 10 ^ exponent` with one digit before the point and an exponent. -/
def writeScientific (layout : Layout) (digits : Text) (exponent : Int) : Text :=
  let shown : Int := digits.length + exponent - 1
  let fraction := match digits.drop 1 with
    | [] => []
    | rest => '.' :: rest
  let mark := if shown < 0 then ['-'] else layout.positiveMark.toList
  digits.take 1 ++ fraction ++ 'e' :: mark ++ Nat.toDigits 10 shown.natAbs

/-- Writes a decimal that is not negative. -/
def writeDecimal (layout : Layout) (d : Decimal) : Text :=
  let digits := Nat.toDigits 10 d.digits
  if layout.positional (digits.length + d.exponent) then
    writePositional layout digits d.exponent
  else writeScientific layout digits d.exponent

/-- Writes a double. -/
def write (layout : Layout) (x : Float) : Text :=
  let signed (negative : Bool) (text : Text) : Text := if negative then '-' :: text else text
  match Binary64.parts x with
  | .finite negative m q =>
    let d := if m = 0 then ⟨0, 0⟩ else shortest layout.tie m q
    signed negative (writeDecimal layout d)
  | .infinite negative => signed negative layout.infinite.toList
  | .notANumber => layout.notANumber.toList

/-- The plain form: never an exponent, no point in a whole number. -/
def display : Layout where
  tie := .up
  positional _ := true
  wholeEnd := ""
  positiveMark := ""
  infinite := "inf"
  notANumber := "NaN"

/-- The form of data exchange: an exponent for large and small numbers, a fraction for whole
numbers, and no infinities. -/
def exchange : Layout where
  tie := .toEven
  positional place := -5 < place && place ≤ 16
  wholeEnd := ".0"
  positiveMark := "+"
  infinite := "null"
  notANumber := "null"

end Formula.Decimal
