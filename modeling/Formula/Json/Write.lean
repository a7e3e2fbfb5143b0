import Formula.Text.Basic

/-!
# Writing strings of data exchange text

Quotes, backslashes and control characters are escaped, all else stands for itself.

## Main definitions

* `Json.writeString`: a string in quotes.
-/

namespace Formula.Json

/-- The hexadecimal digit of a number below 16. -/
def lowerHexDigit (n : Nat) : Char :=
  if n < 10 then Char.ofNat (48 + n) else Char.ofNat (87 + n)

/-- A character inside a string. -/
def writeChar (c : Char) : Text :=
  if c = '"' then ['\\', '"']
  else if c = '\\' then ['\\', '\\']
  else match c.toNat with
    | 8 => ['\\', 'b']
    | 9 => ['\\', 't']
    | 10 => ['\\', 'n']
    | 12 => ['\\', 'f']
    | 13 => ['\\', 'r']
    | n =>
      if n < 0x20 then ['\\', 'u', '0', '0', lowerHexDigit (n / 16), lowerHexDigit (n % 16)]
      else [c]

/-- A string in quotes. -/
def writeString (s : String) : Text :=
  '"' :: s.toList.flatMap writeChar ++ ['"']

end Formula.Json
