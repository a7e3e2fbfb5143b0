import Formula.Text.Basic
import Formula.Text.CharClass

/-!
# Quoted text

A text in quotes in which every character can be seen. Quotes, backslashes and the commonest
controls have an escape of their own; every other character that does not show what it is stands
as its code point.

## Main definitions

* `Text.quoted`: a text in quotes.
-/

namespace Formula.Text

/-- A character inside quotes. -/
def quotedChar (c : Char) : Text :=
  if c = '"' then ['\\', '"']
  else if c = '\\' then ['\\', '\\']
  else match c.toNat with
    | 0 => ['\\', '0']
    | 9 => ['\\', 't']
    | 10 => ['\\', 'n']
    | 13 => ['\\', 'r']
    | n => if isVisible c then [c] else '\\' :: 'u' :: '\x7b' :: Nat.toDigits 16 n ++ ['\x7d']

/-- A text in quotes. -/
def quoted (text : Text) : Text :=
  '"' :: text.flatMap quotedChar ++ ['"']

end Formula.Text
