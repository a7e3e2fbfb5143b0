import Formula.Compile.Fault
import Formula.Constants

/-!
# The names of a compilation

While a text is taken apart, literals, calls and groups are replaced by generated names. This
module keeps the tables of these names: constants, symbols (named parts of the text) and parameters.

## Main definitions

* `Symbol`, `Constant`, `Context`: the tables.
* `Context.freshName`: a name that occurs neither in the source nor in a table.
* `Context.intern`: the name of a literal; equal texts share one.
* `Context.addSymbol`: the name of a part of the text.
-/

namespace Formula

/-- A named part of the text. -/
structure Symbol where
  text : Text
  /-- Whether the text is a call: a function name and plain operands in parentheses. -/
  isCall : Bool
  deriving DecidableEq

/-- A constant, with the text it was read from. -/
structure Constant where
  value : Value
  text : Text
  deriving DecidableEq

/-- The tables of one compilation. -/
structure Context where
  /-- The text as it was given. -/
  source : Text
  /-- The source with string literals replaced by names. -/
  unquoted : Text
  /-- Named parts of the text; the whole text has the empty name. -/
  symbols : List (Text × Symbol) := []
  /-- Constants by name. -/
  constants : List (Text × Constant)
  /-- Names of literals by their texts. -/
  literals : List (Text × Text) := []
  params : List Parameter := []
  /-- The number in the name generated last. -/
  counter : Nat := 0
  /-- Whether a plugin asked to give up. -/
  cancelled : Bool := false
  /-- Whether a place in the text was counted beyond the machine words. -/
  overrun : Bool := false

namespace Context

/-- The name of the symbol that holds the whole text. -/
def mainName : Text := []

/-- The tables at the start, with the named constants. -/
def start (source : Text) : Context where
  source := source
  unquoted := source
  constants := Constants.named.map fun (name, x) =>
    (name.toList, { value := .numeric x, text := name.toList })

section Start

variable (source : Text)

@[simp]
theorem source_start : (start source).source = source := rfl

@[simp]
theorem unquoted_start : (start source).unquoted = source := rfl

@[simp]
theorem symbols_start : (start source).symbols = [] := rfl

@[simp]
theorem constants_start : (start source).constants = Constants.named.map fun (name, x) =>
    (name.toList, { value := .numeric x, text := name.toList }) := rfl

@[simp]
theorem literals_start : (start source).literals = [] := rfl

@[simp]
theorem params_start : (start source).params = [] := rfl

@[simp]
theorem counter_start : (start source).counter = 0 := rfl

end Start

/-- The constant with a name, or the constant read from a text. -/
def constant? (ctx : Context) (key : Text) : Option Constant :=
  (ctx.constants.lookup key).or <|
    (ctx.literals.lookup key).bind fun name => ctx.constants.lookup name

/-- The symbol with a name. -/
def symbol? (ctx : Context) (key : Text) : Option Symbol :=
  ctx.symbols.lookup key

theorem isSome_symbol?_iff {ctx : Context} {key : Text} :
    (ctx.symbol? key).isSome ↔ key ∈ ctx.symbols.map Prod.fst := by
  rw [symbol?, List.lookup_isSome_iff, List.mem_map]
  constructor
  · rintro ⟨p, hp, heq⟩
    exact ⟨p, hp, (eq_of_beq heq).symm⟩
  · rintro ⟨p, hp, rfl⟩
    exact ⟨p, hp, beq_self_eq_true _⟩

theorem mem_symbols_of_symbol? {ctx : Context} {key : Text} {s : Symbol}
    (h : ctx.symbol? key = some s) : (key, s) ∈ ctx.symbols := by
  obtain ⟨before, rest, heq, -⟩ := List.lookup_eq_some_iff.mp h
  rw [heq]
  exact List.mem_append_right _ (List.mem_cons_self ..)

/-- The place of a parameter. -/
def parameterIndex? (params : List Parameter) (name : Text) : Option Nat :=
  params.findIdx? fun p => p.name.toList == name

/-- Whether a name stands in one of the tables. -/
def isKnown (ctx : Context) (key : Text) : Bool :=
  (ctx.constant? key).isSome || (ctx.symbol? key).isSome
    || (parameterIndex? ctx.params key).isSome

/-- The generated name with a number. -/
def generatedName (n : Nat) : Text :=
  "item".toList ++ Text.padded 4 n

/-- The first number after `n` whose name is free; the first argument bounds the search. -/
def freshNumber (ctx : Context) : Nat → Nat → Nat
  | 0, n => n + 1
  | bound + 1, n =>
    let name := generatedName (n + 1)
    if Text.contains name ctx.source || ctx.isKnown name then freshNumber ctx bound (n + 1)
    else n + 1

/-- More names than can be taken: those in the source, each at one place with one length, and
those in the tables. -/
def takenBound (ctx : Context) : Nat :=
  ctx.source.length * ctx.source.length + ctx.constants.length + ctx.literals.length
    + ctx.symbols.length + ctx.params.length + 1

/-- A name that occurs neither in the source nor in a table. -/
def freshName (ctx : Context) : Text × Context :=
  let n := ctx.freshNumber ctx.takenBound ctx.counter
  (generatedName n, { ctx with counter := n })

/-- The name of a literal with a value, read from a text. A text read before keeps its name. -/
def intern (ctx : Context) (value : Value) (text : Text) : Text × Context :=
  match ctx.literals.lookup text with
  | some name => (name, ctx)
  | none =>
    let (name, ctx) := ctx.freshName
    (name, { ctx with
      constants := (name, { value, text }) :: ctx.constants
      literals := (text, name) :: ctx.literals })

/-- The name of a new symbol. -/
def addSymbol (ctx : Context) (text : Text) (isCall : Bool) : Text × Context :=
  let (name, ctx) := ctx.freshName
  (name, { ctx with symbols := (name, { text, isCall }) :: ctx.symbols })

/-- Replaces the text of a symbol. -/
def setText (ctx : Context) (key text : Text) : Context :=
  { ctx with symbols := ctx.symbols.map fun (k, s) =>
      (k, if k = key then { s with text } else s) }

/-- The symbols in the order of their names. -/
def sortedSymbols (ctx : Context) : List (Text × Symbol) :=
  ctx.symbols.mergeSort fun a b => (compare a.1 b.1).isLE

end Context

end Formula
