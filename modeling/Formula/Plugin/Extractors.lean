import Formula.Constants
import Formula.Literal
import Formula.Plugin.Basic

/-!
# The extractors of the language

Quoted strings, named constants between the special symbol indicators, and the numbers that would
be torn apart at an operator or a letter: exponents, hexadecimal and binary numbers.

## Main definitions

* `Extractor.strings`, `Extractor.symbols`, `Extractor.numbers`: the three extractors.
* `Registry.standard`: the registry that holds them.
-/

namespace Formula.Extractor

/-! ## Strings -/

/-- Reads a quoted string after its opening quote: the content and what follows the closing
quote. Inside, the escape token makes the next character literal; the first argument counts the
characters of an escape token still to be passed. -/
def readQuoted (quote escape : Text) : Option Nat → Text → Option (Text × Text)
  | _, [] => none
  | some (k + 1), _ :: text => readQuoted quote escape (some k) text
  | some 0, c :: text =>
    (readQuoted quote escape none text).map fun (content, rest) => (c :: content, rest)
  | none, c :: text =>
    if Text.startsWith escape (c :: text) then
      readQuoted quote escape (some (escape.length - 1)) text
    else match Text.after? quote (c :: text) with
      | some rest => some ([], rest)
      | none => (readQuoted quote escape none text).map fun (content, rest) => (c :: content, rest)

/-- Looks for a quoted string. One that is not closed ends the search. -/
def scanString (d : Definition) (text : Text) (start : Nat) : Extraction :=
  let quote := d.stringIndicator.toList
  match (Text.splitAtByte? start text).bind fun (_, rest) => Text.cut? quote rest with
  | none => .exhausted
  | some (skipped, inner) =>
    match readQuoted quote d.escapeCharacter.toList none inner with
    | none => .exhausted
    | some (content, rest) =>
      .found (start + Text.byteLength skipped) (Text.byteLength text - Text.byteLength rest)
        (.string (String.ofList content))

/-- Finds quoted strings. -/
def strings : Extractor where
  name := "strings"
  level := .strings
  scan d _ := scanString d

/-! ## Special symbols -/

/-- Looks for the name of a constant between the indicators. -/
def scanSymbol (d : Definition) (text : Text) (start : Nat) : Extraction :=
  let left := d.symbolIndicators.1.toList
  let right := d.symbolIndicators.2.toList
  match (Text.splitAtByte? start text).bind fun (_, rest) => Text.cut? left rest with
  | none => .exhausted
  | some (skipped, inner) =>
    let first := start + Text.byteLength skipped
    match Text.cut? right inner with
    | none => .exhausted
    | some (name, rest) =>
      match (Constants.symbol? name).bind Constants.value? with
      | some v => .found first (Text.byteLength text - Text.byteLength rest) v
      | none => .invalid first

/-- Finds constants between the indicators. -/
def symbols : Extractor where
  name := "special symbols"
  level := .symbols
  scan d _ := scanSymbol d

/-! ## Numbers -/

/-- A non-empty run of characters of a class, and what follows it. -/
def takeRun? (p : Char → Bool) (text : Text) : Option (Text × Text) :=
  let run := text.takeWhile p
  if run = [] then none else some (run, text.dropWhile p)

/-- A binary number at the front of a text, and what follows it. -/
def takeBinary? : Text → Option (Text × Text)
  | '0' :: b :: rest =>
    if b = 'b' ∨ b = 'B' then
      (takeRun? (fun c => c == '0' || c == '1' || c == '_') rest).map fun (run, rest) =>
        ('0' :: b :: run, rest)
    else none
  | _ => none

/-- A hexadecimal number at the front of a text, and what follows it. -/
def takeHex? : Text → Option (Text × Text)
  | c :: x :: rest =>
    if (c = '0' ∧ (x = 'x' ∨ x = 'X')) ∨ (c = '&' ∧ (x = 'h' ∨ x = 'H')) then
      (takeRun? (fun d => d.isDigit || ('a' ≤ d && d ≤ 'f') || ('A' ≤ d && d ≤ 'F')) rest).map
        fun (run, rest) => (c :: x :: run, rest)
    else none
  | _ => none

/-- The fraction at the front of a text, if there is one, and what follows it. -/
def takeFraction (text : Text) : Text × Text :=
  match text with
  | '.' :: rest =>
    match takeRun? Text.isDecimalDigit rest with
    | some (run, rest) => ('.' :: run, rest)
    | none => ([], text)
  | _ => ([], text)

/-- A number with an exponent at the front of a text, and what follows it. -/
def takeExponential? (text : Text) : Option (Text × Text) := do
  let (whole, rest) ← takeRun? Text.isDecimalDigit text
  let (fraction, rest) := takeFraction rest
  match rest with
  | [] => none
  | c :: rest =>
    if c = 'e' ∨ c = 'E' then
      let (sign, rest) := match rest with
        | '+' :: tail => (['+'], tail)
        | '-' :: tail => (['-'], tail)
        | tail => ([], tail)
      let (run, rest) ← takeRun? Text.isDecimalDigit rest
      return (whole ++ fraction ++ c :: sign ++ run, rest)
    else none

/-- A number at the front of a text, and what follows it. -/
def takeNumber? (text : Text) : Option (Text × Text) :=
  (takeBinary? text).or <| (takeHex? text).or (takeExponential? text)

/-- The first number in a text: what precedes it, the number and what follows it. -/
def findNumber? : Text → Option (Text × Text × Text)
  | [] => none
  | c :: text =>
    match takeNumber? (c :: text) with
    | some (number, rest) => some ([], number, rest)
    | none => (findNumber? text).map fun (before, number, rest) => (c :: before, number, rest)

/-- Cuts a text at a byte offset, or at the next one that falls between characters. -/
def splitAtOrAfter : Nat → Text → Text × Text
  | 0, text => ([], text)
  | _ + 1, [] => ([], [])
  | n + 1, c :: text =>
    let (before, rest) := splitAtOrAfter (n + 1 - c.utf8Size) text
    (c :: before, rest)

/-- Looks for a number. One that touches a character of a name is none. -/
def scanNumber (text : Text) (start : Nat) : Extraction :=
  let (before, rest) := splitAtOrAfter start text
  match findNumber? rest with
  | none => .exhausted
  | some (skipped, number, rest) =>
    let first := Text.byteLength before + Text.byteLength skipped
    let touches (neighbour : Option Char) := neighbour.any Text.isIdentifierChar
    if touches (before ++ skipped).getLast? || touches rest.head? then .invalid first
    else match (Literal.binary? number).or (Literal.numeric? number) with
      | some v => .found first (first + Text.byteLength number) v
      | none => .invalid first

/-- Finds numbers with an exponent, hexadecimal and binary numbers. -/
def numbers : Extractor where
  name := "numbers"
  level := .numbers
  scan _ _ := scanNumber

end Formula.Extractor

namespace Formula.Registry

/-- The registry that holds the extractors of the language. -/
def standard : Registry where
  extractors := [.strings, .symbols, .numbers]

end Formula.Registry
