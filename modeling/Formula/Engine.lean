import Formula.Expression

/-!
# Engines

An engine compiles texts on demand and keeps the expressions by their texts. A request for a text
has two steps: it reserves the slot of the text, and then fills the slot unless that has been
done. Requests for one text share one slot, so that one of them compiles and the others find its
expression.

## Main definitions

* `Engine`: the slots of the texts and what they hold.
* `Engine.reserve`, `Engine.fill`, `Engine.interpret`: the two steps of a request, and both.
* `Engine.execute`, `Engine.executeNamed`: evaluation by text.
* `Engine.clear`: forgets all texts.
-/

namespace Formula

/-- What stands in a slot. -/
structure Slot where
  text : String
  expression : Option Expression := none

/-- An engine. -/
structure Engine where
  /-- How texts are compiled. -/
  compile : String → Expression
  /-- The places of the slots by texts. -/
  cache : List (String × Nat) := []
  /-- All slots ever reserved. -/
  slots : Array Slot := #[]
  /-- Number of compilations. -/
  compiles : Nat := 0

namespace Engine

/-- The engine of a compiler. -/
def ofCompiler (c : Compiler) : Engine where
  compile := c.expression

/-- The slot of a text; a text without one gets a new one. -/
def reserve (engine : Engine) (text : String) : Nat × Engine :=
  match engine.cache.lookup text with
  | some slot => (slot, engine)
  | none =>
    let slot := engine.slots.size
    (slot, { engine with
      cache := (text, slot) :: engine.cache
      slots := engine.slots.push { text } })

/-- The expression in a slot; an empty slot is filled first. -/
def fill (engine : Engine) (slot : Nat) (text : String) : Expression × Engine :=
  match engine.slots[slot]?.bind Slot.expression with
  | some e => (e, engine)
  | none =>
    let e := engine.compile text
    (e, { engine with
      slots := engine.slots.setIfInBounds slot { text, expression := some e }
      compiles := engine.compiles + 1 })

/-- The expression of a text and its slot. -/
def interpret (engine : Engine) (text : String) : Nat × Expression × Engine :=
  let (slot, engine) := engine.reserve text
  let (e, engine) := engine.fill slot text
  (slot, e, engine)

/-- Keeps what an evaluation left of the expression in a slot. -/
def keep (engine : Engine) (slot : Nat) (e : Expression) : Engine :=
  { engine with
    slots := engine.slots.modify slot fun s => { s with expression := some e } }

/-- Evaluates a text with an evaluation of its expression. -/
def evaluateBy (engine : Engine) (text : String) (evaluate : Expression → Expression.Evaluation) :
    Expression.Evaluation × Engine :=
  let (slot, e, engine) := engine.interpret text
  let evaluation := evaluate e
  (evaluation, engine.keep slot evaluation.expression)

/-- Evaluates a text on arguments. -/
def execute (engine : Engine) (draws : Draws) (text : String) (args : List Value) :
    Expression.Evaluation × Engine :=
  engine.evaluateBy text fun e => e.evaluate draws args none

/-- Evaluates a text on arguments that are looked up by name. -/
def executeNamed (engine : Engine) (draws : Draws) (text : String)
    (find : String → Option Value) : Expression.Evaluation × Engine :=
  engine.evaluateBy text fun e => e.evaluateNamed draws find none

/-- Forgets all texts. -/
def clear (engine : Engine) : Engine :=
  { engine with cache := [] }

/-- Number of texts with a slot. -/
def cached (engine : Engine) : Nat :=
  engine.cache.length

/-- A summary of the engine. -/
def describe (engine : Engine) : String :=
  s!"Engine \x7b cached: {engine.cached}, .. \x7d"

end Engine

end Formula
