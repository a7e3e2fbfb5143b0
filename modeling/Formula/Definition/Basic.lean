import Formula.Operator
import Formula.Text.ByteOffset
import Formula.Text.CharClass

/-!
# Definitions of the language

The tokens the language is written with, and the rules a choice of tokens has to keep: no token is
empty or holds white space, operators hold a character that no name holds, delimiters of a pair
differ, and no two binary operators are written the same.

## Main definitions

* `Definition`, `Definition.default`, `Definition.layered`: the tokens and the two presets.
* `Definition.token`: the token of a binary operator.
* `Definition.fault?`, `Definition.validate`: check the rules, in the order above.
* `Definition.operatorTokens`: all operator tokens, longest first.
-/

namespace Formula

/-- The tokens of the language. -/
structure Definition where
  parentheses : String × String := ("(", ")")
  symbolIndicators : String × String := ("[", "]")
  stringIndicator : String := "\""
  parameterSeparator : String := ","
  escapeCharacter : String := "\\"
  add : String := "+"
  subtract : String := "-"
  multiply : String := "*"
  divide : String := "/"
  modulo : String := "%"
  power : String := "^"
  equals : String := "="
  notEquals : String := "!="
  greaterThan : String := ">"
  greaterThanOrEqual : String := ">="
  lessThan : String := "<"
  lessThanOrEqual : String := "<="
  and : String := "&"
  or : String := "|"
  xor : String := "#"
  not : String := "!"
  leftShift : String := "<<"
  rightShift : String := ">>"
  precedence : Precedence := .mathematical
  deriving DecidableEq

/-- Why a definition cannot be used. -/
inductive DefinitionFault where
  | emptyToken (field : String)
  | whitespaceInToken (field : String)
  | identifierOperator (field token : String)
  | sameDelimiters (field token : String)
  | duplicateOperator (token first second : String)
  /-- The text does not hold a definition. -/
  | unreadable
  deriving DecidableEq

/-- The wording of a fault. -/
def DefinitionFault.message : DefinitionFault → String
  | emptyToken field => s!"token `{field}` must not be empty"
  | whitespaceInToken field => s!"token `{field}` must not contain whitespace"
  | identifierOperator field token =>
    s!"operator `{field}` (`{token}`) must contain at least one symbol character"
  | sameDelimiters field token => s!"`{field}` uses the same token `{token}` to open and close"
  | duplicateOperator token first second =>
    s!"operator token `{token}` is used by both `{first}` and `{second}`"
  | unreadable => "invalid definition"

namespace Definition

/-- The common tokens; the logical operators share one tier. -/
def default : Definition := {}

/-- The common tokens; the logical operators bind in layers. -/
def layered : Definition := { precedence := .layered }

/-- The token of a binary operator. -/
def token (d : Definition) : BinaryOp → String
  | .operate .add => d.add
  | .operate .subtract => d.subtract
  | .operate .multiply => d.multiply
  | .operate .divide => d.divide
  | .operate .modulo => d.modulo
  | .operate .power => d.power
  | .compare .eq => d.equals
  | .compare .ne => d.notEquals
  | .compare .gt => d.greaterThan
  | .compare .ge => d.greaterThanOrEqual
  | .compare .lt => d.lessThan
  | .compare .le => d.lessThanOrEqual
  | .operate .and => d.and
  | .operate .or => d.or
  | .operate .xor => d.xor
  | .operate .shiftLeft => d.leftShift
  | .operate .shiftRight => d.rightShift

/-- The binary operators with the names of the fields that hold their tokens. -/
def binaryFields : List (String × BinaryOp) := [
  ("addSymbol", .operate .add),
  ("subtractSymbol", .operate .subtract),
  ("multiplySymbol", .operate .multiply),
  ("divideSymbol", .operate .divide),
  ("moduloSymbol", .operate .modulo),
  ("powerSymbol", .operate .power),
  ("equalsSymbol", .compare .eq),
  ("notEqualsSymbol", .compare .ne),
  ("greaterThanSymbol", .compare .gt),
  ("greaterThanOrEqualSymbol", .compare .ge),
  ("lessThanSymbol", .compare .lt),
  ("lessThanOrEqualSymbol", .compare .le),
  ("andSymbol", .operate .and),
  ("orSymbol", .operate .or),
  ("xorSymbol", .operate .xor),
  ("leftShiftSymbol", .operate .shiftLeft),
  ("rightShiftSymbol", .operate .shiftRight)]

/-- The binary operators, in the order in which equally good splits are tried. -/
def binaryOps : List BinaryOp :=
  binaryFields.map Prod.snd

/-- The binary operator tokens with the names of their fields. -/
def binaryTokens (d : Definition) : List (String × String) :=
  binaryFields.map fun (field, op) => (field, d.token op)

/-- The tokens that are no operators, with the names of their fields. -/
def delimiters (d : Definition) : List (String × String) := [
  ("parentheses", d.parentheses.1),
  ("parentheses", d.parentheses.2),
  ("specialSymbolIndicators", d.symbolIndicators.1),
  ("specialSymbolIndicators", d.symbolIndicators.2),
  ("stringIndicator", d.stringIndicator),
  ("parameterSeparator", d.parameterSeparator),
  ("escapeCharacter", d.escapeCharacter)]

/-- All operator tokens with the names of their fields. -/
def operators (d : Definition) : List (String × String) :=
  d.binaryTokens ++ [("notSymbol", d.not)]

/-- The first pair of fields with the same token. -/
def duplicate? : (seen rest : List (String × String)) → Option DefinitionFault
  | _, [] => none
  | seen, (field, token) :: rest =>
    match seen.find? fun (_, t) => t == token with
    | some (first, _) => some (.duplicateOperator token first field)
    | none => duplicate? (seen ++ [(field, token)]) rest

/-- What is wrong with a single token. -/
def tokenFault? (entry : String × String) : Option DefinitionFault :=
  if entry.2.isEmpty then some (.emptyToken entry.1)
  else if entry.2.toList.any Text.isBlank then some (.whitespaceInToken entry.1)
  else none

/-- What is wrong with an operator that could be part of a name. -/
def operatorFault? (entry : String × String) : Option DefinitionFault :=
  if entry.2.toList.all Text.isWordChar then some (.identifierOperator entry.1 entry.2) else none

/-- What is wrong with a pair of delimiters that cannot be told apart. -/
def pairFault? (entry : String × String × String) : Option DefinitionFault :=
  if entry.2.1 = entry.2.2 then some (.sameDelimiters entry.1 entry.2.1) else none

/-- The pairs of delimiters, with the names of their fields. -/
def pairs (d : Definition) : List (String × String × String) :=
  [("parentheses", d.parentheses), ("specialSymbolIndicators", d.symbolIndicators)]

/-- The first rule that a definition breaks. -/
def fault? (d : Definition) : Option DefinitionFault :=
  ((d.delimiters ++ d.operators).findSome? tokenFault?).or <|
    (d.operators.findSome? operatorFault?).or <|
      (d.pairs.findSome? pairFault?).or (duplicate? [] d.binaryTokens)

/-- Checks that a definition can be used. -/
def validate (d : Definition) : Except DefinitionFault Unit :=
  match d.fault? with
  | some fault => .error fault
  | none => .ok ()

/-- All operator tokens, each once, those with more bytes first and else in order. -/
def operatorTokens (d : Definition) : List Text :=
  let tokens := (d.operators.map fun (_, token) => token.toList).eraseDups
  tokens.mergeSort fun a b =>
    if a.byteLength = b.byteLength then (compare a b).isLE else b.byteLength < a.byteLength

end Definition

end Formula
