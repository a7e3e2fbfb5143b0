import Formula.Json.Token
import Formula.Word

/-!
# Trees of data exchange text

JSON text as a tree, for readers that pick fields out of it. What the picked fields may hold is
the readers' concern: a number beyond the doubles and half of a surrogate pair are kept as such.

## Main definitions

* `Json.Tree`, `Json.Tree.parse?`: trees and their reader.
* `Json.Tree.string?`, `Json.Tree.integer?`, `Json.Tree.double?`, `Json.Tree.pair?`,
  `Json.Tree.optional`: readers of single fields.
-/

namespace Formula.Json

/-- A tree. -/
inductive Tree where
  | null
  | boolean (b : Bool)
  | number (n : Number)
  | string (s : Option String)
  | array (items : List Tree)
  | object (fields : List (Option String × Tree))

namespace Tree

mutual

/-- Reads a tree off the front of the tokens; the first argument bounds the nesting. -/
def read? : Nat → List Token → Option (Tree × List Token)
  | 0, _ => none
  | depth + 1, token :: rest =>
    match token with
    | .null => some (.null, rest)
    | .boolean b => some (.boolean b, rest)
    | .number n => some (.number n, rest)
    | .string s => some (.string s, rest)
    | .leftBracket =>
      match rest with
      | .rightBracket :: rest => some (.array [], rest)
      | rest => (readItems? depth rest).map fun (items, rest) => (.array items, rest)
    | .leftBrace =>
      match rest with
      | .rightBrace :: rest => some (.object [], rest)
      | rest => (readFields? depth rest).map fun (fields, rest) => (.object fields, rest)
    | _ => none
  | _, [] => none

/-- Reads the items of an array up to its closing bracket. -/
def readItems? : Nat → List Token → Option (List Tree × List Token)
  | 0, _ => none
  | depth + 1, tokens =>
    match read? depth tokens with
    | some (item, .rightBracket :: rest) => some ([item], rest)
    | some (item, .comma :: rest) =>
      (readItems? depth rest).map fun (items, rest) => (item :: items, rest)
    | _ => none

/-- Reads the fields of an object up to its closing brace. -/
def readFields? : Nat → List Token → Option (List (Option String × Tree) × List Token)
  | 0, _ => none
  | depth + 1, .string key :: .colon :: tokens =>
    match read? depth tokens with
    | some (value, .rightBrace :: rest) => some ([(key, value)], rest)
    | some (value, .comma :: rest) =>
      (readFields? depth rest).map fun (fields, rest) => ((key, value) :: fields, rest)
    | _ => none
  | _, _ => none

end

/-- Reads a text that holds one tree and nothing else. Every step takes a token or enters a
bracket, so twice the number of tokens bounds the nesting. -/
def parse? (text : Text) : Option Tree :=
  let tokens := tokens text
  match read? (2 * tokens.length + 2) tokens with
  | some (tree, []) => some tree
  | _ => none

/-- A string. -/
def string? : Tree → Option String
  | .string s => s
  | _ => none

/-- A 64-bit integer. -/
def integer? : Tree → Option Int64
  | .number (.natural n) => Word.ofInt? n
  | .number (.negative i) => some (Int64.ofInt i)
  | _ => none

/-- A double; integers widen. -/
def double? : Tree → Option Float
  | .number (.natural n) => some (Float.ofNat n)
  | .number (.negative i) => some (Float.ofInt i)
  | .number (.double x) => some x
  | _ => none

/-- An array of exactly two items. -/
def pair? {α : Type} (item? : Tree → Option α) : Tree → Option (α × α)
  | .array [a, b] => do return (← item? a, ← item? b)
  | _ => none

/-- A field that may be null. -/
def optional {α : Type} (item? : Tree → Option α) : Tree → Option (Option α)
  | .null => some none
  | tree => (item? tree).map some

/-- The fields of a record, as the positions of their names in `names`: given by name, in any
order and each at most once, other names being passed over, or by position. -/
def record? (names : List String) : Tree → Option (List (Nat × Tree))
  | .array items =>
    if items.length ≤ names.length then some ((List.range items.length).zip items) else none
  | .object fields =>
    fields.foldlM (fun found (key, tree) =>
      match key with
      | none => none
      | some key =>
        let position := names.idxOf key
        if position = names.length then some found
        else if (found.lookup position).isSome then none
        else some (found ++ [(position, tree)])) []
  | _ => none

end Tree

end Formula.Json
