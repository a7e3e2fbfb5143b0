import Formula.Compile.Calls
import Formula.Literal

/-!
# Sorting out operands

What stands between operators, or as an argument of a call, is an operand. One that is not known
yet is a literal or the name of a parameter; a parameter has to occur in the source as a whole
word.

## Main definitions

* `Text.firstWord?`: the place of the first occurrence of a name as a whole word.
* `Context.populate`: marks the operators of all symbols, gives names to the literals and finds the
  parameters.
-/

namespace Formula

/-- The place of the first occurrence of `name` that is not part of a longer name. -/
def Text.firstWord? (name text : Text) : Option Nat :=
  ((Text.cuts name text).find? fun (before, rest) =>
    !before.getLast?.any Text.isIdentifierChar && !rest.head?.any Text.isIdentifierChar).map
    fun (before, _) => before.length

namespace Context

/-- The operands of a call. -/
def callOperands (tokens : CallTokens) (text : Text) : List Text :=
  match (Text.cut? tokens.opening text).bind fun (_, rest) =>
      Text.before? tokens.closing rest with
  | some inner => (Text.splitAll tokens.separator inner).filter (· ≠ [])
  | none => []

/-- The operands of a symbol whose operators are marked. -/
def symbolOperands (tokens : CallTokens) (symbol : Symbol) : List Text :=
  if symbol.isCall then callOperands tokens symbol.text else tokens.markers.operands symbol.text

/-- Marks the operators of every symbol that is no call. -/
def markSymbols (markers : Markers) (ctx : Context) : Context :=
  { ctx with symbols := ctx.symbols.map fun (key, s) =>
      (key, if s.isCall then s else { s with text := markers.mark s.text }) }

/-- Sorts out operands in turn: names for literals, and the parameters found with their places in
the source. -/
def classify (registry : Registry) : List Text → List (Nat × Text) → Context →
    Except CompileFault (List (Nat × Text) × Context)
  | [], found, ctx => .ok (found, ctx)
  | operand :: rest, found, ctx =>
    if ctx.isKnown operand || found.any (fun (_, name) => name == operand) then
      classify registry rest found ctx
    else
      let (value, cancelled) := Literal.parse registry operand
      let ctx := { ctx with cancelled := ctx.cancelled || cancelled }
      match value with
      | some value => classify registry rest found (ctx.intern value operand).2
      | none =>
        match Text.firstWord? operand ctx.unquoted with
        | some place =>
          if Text.isIdentifier operand then classify registry rest (found ++ [(place, operand)]) ctx
          else .error (.invalidOperand operand)
        | none => .error (.invalidOperand operand)

/-- The parameters with given places, in the order of their places. -/
def orderedParameters (found : List (Nat × Text)) : List Parameter :=
  let sorted := found.mergeSort fun a b =>
    a.1 < b.1 || (a.1 == b.1 && (compare a.2 b.2).isLE)
  sorted.map fun (_, name) => { name := String.ofList name, supported := TypeMask.all }

/-- Marks the operators of all symbols, gives names to the literals among the operands and finds
the parameters. -/
def populate (tokens : CallTokens) (registry : Registry) (ctx : Context) :
    Except CompileFault Context := do
  let ctx := ctx.markSymbols tokens.markers
  let operands := ctx.sortedSymbols.flatMap fun (_, s) => symbolOperands tokens s
  let (found, ctx) ← classify registry operands [] ctx
  return { ctx with params := orderedParameters found }

end Context

end Formula
