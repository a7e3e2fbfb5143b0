import Formula.Definition.Basic

/-!
# Operator markers

A token that contains a shorter one, as `>=` contains `>` and `=`, is replaced by a marker, so that
a search for the shorter one does not find it.

## Main definitions

* `Markers`, `Markers.ofDefinition`: the marked form of every operator token.
* `Markers.mark`, `Markers.unmark`: replacing tokens by their marked forms and back.
* `Markers.operands`: the parts of a marked text between its operators.
-/

namespace Formula

/-- The operator tokens, longest first, with their marked forms. -/
structure Markers where
  tokens : List (Text × Text)

namespace Markers

/-- The marker with a number. -/
def marker (n : Nat) : Text :=
  "@op".toList ++ Nat.toDigits 10 n ++ ['@']

/-- Whether a token contains a shorter one. -/
def isShadowing (tokens : List Text) (token : Text) : Bool :=
  tokens.any fun other => other.byteLength < token.byteLength && Text.contains other token

/-- Gives a marker to every token that contains a shorter one, numbering them from `n` on. -/
def assign (all : List Text) : Nat → List Text → List (Text × Text)
  | _, [] => []
  | n, token :: rest =>
    if isShadowing all token then (token, marker n) :: assign all (n + 1) rest
    else (token, token) :: assign all n rest

/-- The markers of a definition. -/
def ofDefinition (d : Definition) : Markers :=
  let tokens := d.operatorTokens
  ⟨assign tokens 0 tokens⟩

/-- Replaces the tokens that have markers, longest first. -/
def mark (m : Markers) (text : Text) : Text :=
  m.tokens.foldl (fun text (token, marked) =>
    if token = marked then text else Text.replaceAll token marked text) text

/-- Replaces markers by their tokens. -/
def unmark (m : Markers) (text : Text) : Text :=
  m.tokens.foldl (fun text (token, marked) =>
    if token = marked then text else Text.replaceAll marked token text) text

/-- The marked form of a token. -/
def marked (m : Markers) (token : Text) : Text :=
  (m.tokens.lookup token).getD token

/-- Whether a text without markers contains an operator. -/
def containsOperator (m : Markers) (text : Text) : Bool :=
  m.tokens.any fun (token, _) => Text.contains token text

/-- The parts of a marked text between its operators, after `skip` characters of the operator just
passed. -/
def operandsFrom (m : Markers) : Nat → Text → List Text
  | _, [] => [[]]
  | skip + 1, _ :: text => operandsFrom m skip text
  | 0, c :: text =>
    match m.tokens.find? fun (_, marked) => Text.startsWith marked (c :: text) with
    | some (_, marked) => [] :: operandsFrom m (marked.length - 1) text
    | none => (operandsFrom m 0 text).modifyHead (c :: ·)

/-- The parts of a marked text between its operators, without empty ones. -/
def operands (m : Markers) (text : Text) : List Text :=
  (operandsFrom m 0 text).filter (· ≠ [])

end Markers

end Formula
