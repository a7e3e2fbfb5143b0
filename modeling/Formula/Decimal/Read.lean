import Formula.Text.Basic
import Formula.Binary64

/-!
# Reading decimals

Unsigned decimal text, with an optional fraction and an optional exponent, as the nearest double.
Only ASCII digits count as digits here.

## Main definitions

* `Decimal.readNatural?`: a non-empty string of digits.
* `Decimal.scientific?`: the parts of a decimal text.
* `Decimal.nearest`: the double nearest to `n * 10 ^ e`.
* `Decimal.read?`: a signed decimal as a double.
-/

namespace Formula.Decimal

/-- The value of a string of ASCII digits, most significant first. -/
def naturalOf (digits : Text) : Nat :=
  digits.foldl (fun n c => n * 10 + (c.toNat - '0'.toNat)) 0

/-- Reads a non-empty string of ASCII digits. -/
def readNatural? (text : Text) : Option Nat :=
  if text ≠ [] ∧ text.all Char.isDigit then some (naturalOf text) else none

/-- Takes a sign off the front of a text; `true` stands for minus. -/
def takeSign : Text → Bool × Text
  | '-' :: rest => (true, rest)
  | '+' :: rest => (false, rest)
  | rest => (false, rest)

/-- Reads an exponent: a letter, an optional sign and digits. Empty text is exponent zero. -/
def readExponent? : Text → Option Int
  | [] => some 0
  | c :: rest =>
    if c = 'e' ∨ c = 'E' then
      let (negative, digits) := takeSign rest
      (readNatural? digits).map fun (n : Nat) => if negative then -(n : Int) else n
    else none

/-- Reads an unsigned decimal: digits with an optional point somewhere among them, or before
them, and an optional exponent. The result `(n, e)` stands for `n * 10 ^ e`. -/
def scientific? (text : Text) : Option (Nat × Int) := do
  let whole := text.takeWhile Char.isDigit
  let rest := text.dropWhile Char.isDigit
  let (fraction, rest) := match rest with
    | '.' :: tail => (tail.takeWhile Char.isDigit, tail.dropWhile Char.isDigit)
    | _ => ([], rest)
  let n ← readNatural? (whole ++ fraction)
  let e ← readExponent? rest
  return (n, e - fraction.length)

/-- The double nearest to `n * 10 ^ e`. Outside the range of doubles the answer is infinity or
zero without computing the power. -/
def nearest (n : Nat) (e : Int) : Float :=
  let size : Int := (Nat.toDigits 10 n).length + e
  if n = 0 ∨ size < -330 then 0
  else if 310 < size then Binary64.infinity
  else match e with
    | .ofNat k => Float.ofScientific n false k
    | .negSucc k => Float.ofScientific n true (k + 1)

/-- Reads a decimal with an optional sign. -/
def read? (text : Text) : Option Float :=
  let (negative, rest) := takeSign text
  (scientific? rest).map fun (n, e) => if negative then -(nearest n e) else nearest n e

end Formula.Decimal
