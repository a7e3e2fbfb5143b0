import Formula.Text.Basic
import Formula.Text.CharClass
import Formula.Value.Basic

/-!
# Named constants

The constants that can be written by name, and the aliases that stand for them between the
special symbol indicators.

## Main definitions

* `Constants.named`, `Constants.value?`: the constants by name.
* `Constants.symbol?`: the constant meant by the text between the indicators.
-/

namespace Formula.Constants

/-- The named constants. -/
def named : List (String × Float) := [
  ("e", 2.718281828459045),
  ("π", 3.141592653589793),
  ("φ", 1.6180339887498948),
  ("β", 0.2801694990238691),
  ("γ", 0.5772156649015328),
  ("λ", 0.3036630028987326)]

/-- The aliases, with the names of the constants they stand for. -/
def aliases : List (String × String) := [
  ("pi", "π"), ("π", "π"), ("phi", "φ"), ("φ", "φ"), ("beta", "β"), ("β", "β"),
  ("gamma", "γ"), ("γ", "γ"), ("lambda", "λ"), ("λ", "λ")]

/-- The value of a named constant. -/
def value? (name : String) : Option Value :=
  (named.lookup name).map .numeric

/-- The name of the constant meant by `text`: an alias, in any case of its ASCII letters, or a
name itself. White space around it does not count. -/
def symbol? (text : Text) : Option String :=
  let text := Text.trimBoth Text.isBlank text
  match aliases.find? fun (short, _) => Text.sameIgnoringCase short.toList text with
  | some (_, name) => some name
  | none => (named.find? fun (name, _) => name.toList == text).map Prod.fst

end Formula.Constants
