import Formula.Compile.Build
import Formula.Compile.Groups
import Formula.Compile.Literals
import Formula.Compile.Operands

/-!
# Compiling

From text to tree: literals, calls and groups are taken out in turn, the operands are sorted out,
and the tree is built. Between these stages a compilation can be given up.

## Main definitions

* `Compiler`, `Compiler.make`, `Compiler.standard`: a checked definition and a registry.
* `Compilation`: the outcome of a compilation and what was seen on the way.
* `Compiler.compile`: compiles a text.
-/

namespace Formula

/-- A definition and a registry. -/
structure Compiler where
  definition : Definition
  registry : Registry
  markers : Markers

/-- The outcome of a compilation. -/
structure Compilation where
  /-- Number of literals taken out of the text. -/
  literals : Nat
  /-- The text with the literals taken out. -/
  skeleton : Text
  /-- Number of symbols, if that stage was reached. -/
  symbols : Option Nat
  /-- The tree and the parameters. -/
  outcome : Except CompileFault (Node × List Parameter)

namespace Compiler

/-- The compiler for a definition, which is checked. -/
def make (definition : Definition) (registry : Registry) : Except DefinitionFault Compiler := do
  definition.validate
  return { definition, registry, markers := Markers.ofDefinition definition }

/-- The compiler for the common tokens. -/
def standard (registry : Registry) : Compiler where
  definition := Definition.default
  registry := registry
  markers := Markers.ofDefinition Definition.default

/-- The call tokens of the definition. -/
def tokens (c : Compiler) : Context.CallTokens :=
  Context.CallTokens.ofDefinition c.definition c.markers

/-- Gives up if a plugin asked for it. -/
def check (ctx : Context) : Except CompileFault Unit :=
  if ctx.cancelled then .error .cancelled else .ok ()

/-- The stages from a text without literals to the tables that a tree is built from. -/
def resolve (c : Compiler) (text : Text) (ctx : Context) : Except CompileFault Context := do
  if text = [] then throw .empty
  check ctx
  let ctx := { ctx with symbols := (Context.mainName, { text, isCall := false }) :: ctx.symbols }
  let (text, ctx) ← ctx.extractCalls c.tokens text
  let ctx := ctx.setText Context.mainName text
  let ctx ← ctx.flattenGroups c.tokens.opening c.tokens.closing
  ctx.populate c.tokens c.registry

/-- Builds the tree, with the tables filled. -/
def buildTree (c : Compiler) (ctx : Context) : Except CompileFault (Node × List Parameter) := do
  check ctx
  let t := TreeBuilder.ofDefinition c.definition c.tokens c.registry ctx
  match (t.build Context.mainName).run { params := ctx.params } with
  | (.error fault, _) => throw fault
  | (.ok root, s) =>
    match root.refresh s.params with
    | (root, none) => return (root, s.params)
    | (_, some fault) => throw (.illTyped fault)

/-- Compiles a text; `cancelled` tells whether to give up at once. -/
def compile (c : Compiler) (source : Text) (cancelled : Bool) : Compilation :=
  let ctx := Context.start source
  if cancelled then
    { literals := 0, skeleton := source, symbols := none, outcome := .error .cancelled }
  else
    let (text, ctx) := ctx.extractLiterals c.definition c.registry
    let literals := ctx.literals.length
    if ctx.overrun then
      { literals, skeleton := text, symbols := none, outcome := .error .overrun }
    else match c.resolve text ctx with
    | .error fault => { literals, skeleton := text, symbols := none, outcome := .error fault }
    | .ok ctx =>
      { literals
        skeleton := text
        symbols := some ctx.symbols.length
        outcome := c.buildTree ctx }

end Compiler

end Formula
