import Formula.Text.Letter
import Formula.Text.Numeral
import Formula.Text.RecentLetter
import Formula.Text.AlphabeticMark
import Formula.Text.Extender
import Formula.Text.Invisible

/-!
# Character classes

The classes of characters that the language distinguishes. ASCII characters are decided by
comparison with the bounds of their class; all others by the range tables. Two editions of the
character standard are in use: numbers, and the names of functions in calls, go by edition 16, all
else by edition 17. So a letter that edition 17 added may stand in the name of a parameter, but
not in the name of a function.

## Main definitions

* `Text.isBlank`: white space, dropped outside string literals.
* `Text.isLetter`, `Text.isDecimalDigit`, `Text.isNumeral`: the categories of edition 16.
* `Text.isAlphanumeric`, `Text.isWordChar`, `Text.isIdentifierChar`: the characters names are
  made of, by edition 17.
* `Text.isVisible`: the characters that show by themselves what they are, by edition 17.
-/

namespace Formula.Text

/-- Whether the code point of `c` lies in one of the closed ranges. -/
def inRanges (ranges : List (Nat × Nat)) (c : Char) : Bool :=
  ranges.any fun (low, high) => low ≤ c.toNat && c.toNat ≤ high

/-- Code points of white space beyond ASCII. -/
def blankRanges : List (Nat × Nat) := [
  (0x85, 0x85), (0xA0, 0xA0), (0x1680, 0x1680), (0x2000, 0x200A), (0x2028, 0x2029),
  (0x202F, 0x202F), (0x205F, 0x205F), (0x3000, 0x3000)]

/-- White space. -/
def isBlank (c : Char) : Bool :=
  if c.toNat < 0x80 then c.toNat == 0x20 || (0x09 ≤ c.toNat && c.toNat ≤ 0x0D)
  else inRanges blankRanges c

/-- Characters of category Letter in edition 16. -/
def isLetter (c : Char) : Bool :=
  if c.toNat < 0x80 then c.isAlpha else inRanges letterRanges c

/-- Characters of category Decimal Number in edition 16. -/
def isDecimalDigit (c : Char) : Bool :=
  if c.toNat < 0x80 then c.isDigit else inRanges decimalDigitRanges c

/-- Characters of one of the Number categories in edition 16. -/
def isNumeral (c : Char) : Bool :=
  if c.toNat < 0x80 then c.isDigit
  else inRanges decimalDigitRanges c || inRanges letterNumberRanges c
    || inRanges otherNumberRanges c

/-- Alphabetic characters of edition 17: letters, letter numbers and alphabetic marks. -/
def isAlphabetic (c : Char) : Bool :=
  if c.toNat < 0x80 then c.isAlpha
  else inRanges letterRanges c || inRanges letterNumberRanges c
    || inRanges recentLetterRanges c || inRanges alphabeticMarkRanges c

/-- Alphabetic characters and numerals of edition 17. -/
def isAlphanumeric (c : Char) : Bool :=
  isAlphabetic c || isNumeral c || inRanges recentDigitRanges c

/-- Characters of function names. -/
def isWordChar (c : Char) : Bool :=
  isAlphanumeric c || c == '_'

/-- Characters of operands: a point joins what stands on its two sides. -/
def isIdentifierChar (c : Char) : Bool :=
  isAlphanumeric c || c == '_' || c == '.'

/-- Whether `text` may name a parameter. -/
def isIdentifier : List Char → Bool
  | [] => false
  | c :: text => (isAlphabetic c || c == '_') && text.all isIdentifierChar

/-- Characters that show what they are: not those without a form of their own, and not the marks
that are drawn onto the character before them. -/
def isVisible (c : Char) : Bool :=
  if c.toNat < 0x80 then 0x20 ≤ c.toNat && c.toNat < 0x7F
  else !inRanges invisibleRanges c && !inRanges extenderRanges c

/-- Drops all white space. -/
def withoutBlanks (text : List Char) : List Char :=
  text.filter fun c => !isBlank c

end Formula.Text
