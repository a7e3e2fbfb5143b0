import Formula.Decimal.Read
import Formula.Plugin.Basic
import Formula.Text.CharClass
import Formula.Word

/-!
# Literals

The grammars of literal text: integers in several spellings, floating point numbers, hexadecimal
and binary numbers, truth values.

## Main definitions

* `Literal.integer?`: plain, grouped and exponent spellings of an integer.
* `Literal.hex?`: a hexadecimal number; all 64 bits are used.
* `Literal.binary?`: a binary number, as bytes.
* `Literal.numeric?`, `Literal.boolean?`: numbers and truth values.
* `Literal.parse`: interpreters first, then the grammars.
-/

namespace Formula.Literal

/-- An optional sign and digits, as an integer of any size. -/
def signedDigits? (text : Text) : Option Int :=
  let (negative, digits) := Decimal.takeSign text
  (Decimal.readNatural? digits).map fun (n : Nat) => if negative then -(n : Int) else n

/-- An optional sign and digits, as a 64-bit integer. -/
def plainInteger? (text : Text) : Option Int64 :=
  (signedDigits? text).bind Word.ofInt?

/-- Whether digits are grouped in threes by commas, with at least one comma. -/
def isGrouped (digits : Text) : Bool :=
  match Text.splitAll [','] digits with
  | first :: second :: rest =>
    (1 ≤ first.length && first.length ≤ 3 && first.all Char.isDigit)
      && (second :: rest).all fun group => group.length == 3 && group.all Char.isDigit
  | _ => false

/-- A mantissa and an exponent without a minus sign, where both the power of ten and the product
fit in 64 bits. -/
def exponentInteger? (text : Text) : Option Int64 := do
  let mantissa := text.takeWhile fun c => c != 'e' && c != 'E'
  let exponent ← match text.drop mantissa.length with
    | _ :: '+' :: rest => Decimal.readNatural? rest
    | _ :: rest => Decimal.readNatural? rest
    | [] => none
  let m ← plainInteger? mantissa
  if exponent ≤ 18 then Word.ofInt? (m.toInt * Nat.pow 10 exponent) else none

/-- An integer: plain, grouped or with an exponent. -/
def integer? (text : Text) : Option Int64 :=
  match plainInteger? text with
  | some i => some i
  | none =>
    if isGrouped (Decimal.takeSign text).2 then plainInteger? (text.filter (· != ','))
    else exponentInteger? text

/-- The value of hexadecimal digits, if all are. -/
def hexValue? (digits : Text) : Option Nat :=
  digits.foldlM (fun n c => (hexDigit? c).map (n * 16 + ·)) 0
where
  hexDigit? (c : Char) : Option Nat :=
    if c.isDigit then some (c.toNat - 48)
    else if 'a' ≤ c ∧ c ≤ 'f' then some (c.toNat - 87)
    else none

/-- What follows the mark of a hexadecimal number. -/
def afterHexMark? (text : Text) : Option Text :=
  (Text.after? ['0', 'x'] text).or (Text.after? ['&', 'h'] text)

/-- A hexadecimal number: a mark, an optional plus sign and digits, of at most 64 bits. The bits
are read as a signed integer. -/
def hex? (text : Text) : Option Value := do
  let digits ← afterHexMark? (text.map Char.toLower)
  let digits := match digits with
    | '+' :: rest => rest
    | digits => digits
  if digits = [] then none
  let n ← hexValue? digits
  if n < UInt64.size then some (.integer (Int64.ofInt n)) else none

/-- Groups of `size` elements in their order; the last one may be shorter. -/
def chunks {α : Type} (size : Nat) (xs : List α) : List (List α) :=
  (List.range ((xs.length + size - 1) / size)).map fun i => (xs.drop (size * i)).take size

/-- The byte that eight binary digits write, the most significant one first. Digits are bytes. -/
def octet? (digits : Bytes) : Option UInt8 :=
  if digits.all fun d => d == 48 || d == 49 then
    some (digits.foldl (fun byte d => byte <<< 1 ||| if d = 49 then 1 else 0) 0)
  else none

/-- A binary number as bytes: a mark and binary digits, with underscores anywhere among them. The
digits are padded by zeros to whole bytes; the most significant byte comes first in the text and
last in the array. -/
def binary? (text : Text) : Option Value := do
  let rest ← (Text.after? ['0', 'b'] text).or (Text.after? ['0', 'B'] text)
  let digits : Bytes := (rest.filter (· != '_')).flatMap String.utf8EncodeChar
  if digits = [] then none
  let padding := (8 - digits.length % 8) % 8
  let bytes ← (chunks 8 (List.replicate padding 48 ++ digits)).mapM octet?
  some (.bytes bytes.reverse)

/-- A number: hexadecimal, integer or floating point. White space around it does not count. -/
def numeric? (text : Text) : Option Value :=
  let text := Text.trimBoth Text.isBlank text
  (hex? text).or <| ((integer? text).map .integer).or ((Decimal.read? text).map .numeric)

/-- A truth value, in any case of its letters. -/
def boolean? (text : Text) : Option Value :=
  if Text.sameIgnoringCase text "true".toList then some (.boolean true)
  else if Text.sameIgnoringCase text "false".toList then some (.boolean false)
  else none

/-- A literal of the grammars. -/
def ofGrammar? (text : Text) : Option Value :=
  (binary? text).or <| (numeric? text).or (boolean? text)

/-- A literal: what the interpreters make of it, or else the grammars. Tells also whether an
interpreter that was asked cancels. -/
def parse (registry : Registry) (text : Text) : Option Value × Bool :=
  let (v, cancelled) := Registry.ask registry.interpreters text
  (v.or (ofGrammar? text), cancelled)

end Formula.Literal
