import Formula.Compile.Context

/-!
# Taking groups out of a text

A parenthesized group is replaced by a name, the innermost first: the last open token and the first
close token after it enclose no other group.

Whether this comes to an end depends on the tokens: where a generated name holds both of them, it
brings a new group with it, and the groups of a text may never come to an end.

## Main definitions

* `Context.flattenStep`: takes one group out of a text.
* `Context.flatten?`, `Context.flattenText`: takes all groups out of a text.
* `Context.flattenGroups`: takes all groups out of all symbols that are no calls.
-/

namespace Formula.Context

/-- Takes the innermost group that opens last out of a text. Nothing if no group opens. -/
def flattenStep (opening closing text : Text) (ctx : Context) :
    Option (Except CompileFault (Text × Context)) :=
  (Text.cutLast? opening text).map fun (before, tail) =>
    match Text.cut? closing tail with
    | none => .error (.unbalanced text)
    | some (inner, rest) =>
      if inner = [] then .error (.emptyGroup text)
      else
        let (name, ctx) := if ctx.isKnown inner then (inner, ctx) else ctx.addSymbol inner false
        .ok (before ++ name ++ rest, ctx)

/-- Takes groups out of a text until none opens. Nothing if that goes on for ever. -/
def flatten? (opening closing text : Text) (ctx : Context) :
    Option (Except CompileFault (Text × Context)) :=
  match flattenStep opening closing text ctx with
  | none =>
    some (if Text.contains closing text then .error (.unbalanced text) else .ok (text, ctx))
  | some (.error fault) => some (.error fault)
  | some (.ok (text, ctx)) => ctx |>.flatten? opening closing text
partial_fixpoint

/-- Takes all groups out of a text. One whose groups never come to an end is not resolved. -/
def flattenText (opening closing text : Text) (ctx : Context) :
    Except CompileFault (Text × Context) :=
  (flatten? opening closing text ctx).getD (.error (.unresolved text))

/-- Takes all groups out of the symbols with the given names, in turn. -/
def flattenSymbols (opening closing : Text) : List Text → Context → Except CompileFault Context
  | [], ctx => .ok ctx
  | key :: keys, ctx =>
    match ctx.symbol? key with
    | none => flattenSymbols opening closing keys ctx
    | some symbol =>
      match flattenText opening closing symbol.text ctx with
      | .error fault => .error fault
      | .ok (text, ctx) => flattenSymbols opening closing keys (ctx.setText key text)

/-- Takes all groups out of all symbols that are no calls, in the order of their names. -/
def flattenGroups (opening closing : Text) (ctx : Context) : Except CompileFault Context :=
  let keys := (ctx.sortedSymbols.filter fun (_, s) => !s.isCall).map Prod.fst
  flattenSymbols opening closing keys ctx

end Formula.Context
