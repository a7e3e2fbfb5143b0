import Formula.Definition.Basic
import Formula.Json.Tree
import Formula.Json.Write

/-!
# Definitions from data exchange text

A definition is a record whose fields may be left out; the common tokens then stand in.

## Main definitions

* `Definition.ofJson`: reads and checks a definition.
* `Definition.toJson`: writes a definition with all its fields.
-/

namespace Formula.Definition

/-- The words for the precedence styles. -/
def precedenceOf? : String → Option Precedence
  | "mathematical" => some .mathematical
  | "cStyle" => some .layered
  | _ => none

/-- Reads a precedence style: its word, or an object that maps the word to null. -/
def precedence? : Json.Tree → Option Precedence
  | .string (some word) => precedenceOf? word
  | .object [(some word, .null)] => precedenceOf? word
  | _ => none

/-- The names of the fields, in order. -/
def fieldNames : List String := [
  "parentheses", "specialSymbolIndicators", "stringIndicator", "parameterSeparator",
  "escapeCharacter", "addSymbol", "subtractSymbol", "multiplySymbol", "divideSymbol",
  "moduloSymbol", "powerSymbol", "equalsSymbol", "notEqualsSymbol", "greaterThanSymbol",
  "greaterThanOrEqualSymbol", "lessThanSymbol", "lessThanOrEqualSymbol", "andSymbol",
  "orSymbol", "xorSymbol", "notSymbol", "leftShiftSymbol", "rightShiftSymbol",
  "operatorPrecedenceStyle"]

/-- Reads one field, by its position. -/
def readField? (d : Definition) (position : Nat) (tree : Json.Tree) : Option Definition :=
  let pair (set : String × String → Definition) := (tree.pair? (·.string?)).map set
  let token (set : String → Definition) := tree.string?.map set
  match position with
  | 0 => pair fun p => { d with parentheses := p }
  | 1 => pair fun p => { d with symbolIndicators := p }
  | 2 => token fun t => { d with stringIndicator := t }
  | 3 => token fun t => { d with parameterSeparator := t }
  | 4 => token fun t => { d with escapeCharacter := t }
  | 5 => token fun t => { d with add := t }
  | 6 => token fun t => { d with subtract := t }
  | 7 => token fun t => { d with multiply := t }
  | 8 => token fun t => { d with divide := t }
  | 9 => token fun t => { d with modulo := t }
  | 10 => token fun t => { d with power := t }
  | 11 => token fun t => { d with equals := t }
  | 12 => token fun t => { d with notEquals := t }
  | 13 => token fun t => { d with greaterThan := t }
  | 14 => token fun t => { d with greaterThanOrEqual := t }
  | 15 => token fun t => { d with lessThan := t }
  | 16 => token fun t => { d with lessThanOrEqual := t }
  | 17 => token fun t => { d with and := t }
  | 18 => token fun t => { d with or := t }
  | 19 => token fun t => { d with xor := t }
  | 20 => token fun t => { d with not := t }
  | 21 => token fun t => { d with leftShift := t }
  | 22 => token fun t => { d with rightShift := t }
  | _ => (precedence? tree).map fun style => { d with precedence := style }

/-- Reads a definition without checking it. -/
def read? (text : String) : Option Definition := do
  let tree ← Json.Tree.parse? text.toList
  let fields ← tree.record? fieldNames
  fields.foldlM (fun d (position, tree) => d.readField? position tree) Definition.default

/-- Reads and checks a definition. -/
def ofJson (text : String) : Except DefinitionFault Definition := do
  match read? text with
  | none => throw .unreadable
  | some d =>
    d.validate
    return d

/-- The word for a precedence style. -/
def precedenceWord : Precedence → String
  | .mathematical => "mathematical"
  | .layered => "cStyle"

/-- The texts of the fields, in order. -/
def fieldTexts (d : Definition) : List Text :=
  let pair (p : String × String) : Text :=
    '[' :: Json.writeString p.1 ++ ',' :: Json.writeString p.2 ++ [']']
  [pair d.parentheses, pair d.symbolIndicators] ++
    [d.stringIndicator, d.parameterSeparator, d.escapeCharacter, d.add, d.subtract, d.multiply,
      d.divide, d.modulo, d.power, d.equals, d.notEquals, d.greaterThan, d.greaterThanOrEqual,
      d.lessThan, d.lessThanOrEqual, d.and, d.or, d.xor, d.not, d.leftShift, d.rightShift,
      precedenceWord d.precedence].map Json.writeString

/-- Writes a definition with all its fields. -/
def toJson (d : Definition) : String :=
  let fields := fieldNames.zipWith (fun name text => Json.writeString name ++ ':' :: text)
    d.fieldTexts
  String.ofList ('\x7b' :: [','].intercalate fields ++ ['\x7d'])

end Formula.Definition
