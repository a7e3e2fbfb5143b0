import Formula.Definition.Basic
import Formula.Text.Quoted
import Formula.Value.Basic

/-!
# Plugins

What a host may add to the language: extractors that find literals in the source, interpreters
that give a value to the text of an operand, and formatters that turn values into text where a
value meets a string.

## Main definitions

* `Extractor`, `Extraction`: finding literals at byte offsets of the text.
* `Interpreter`, `Formatter`: the other two kinds of plugins.
* `Registry`: the plugins, extractors by level and interpreters by priority.
* `Registry.format`, `Registry.describe`: the text of a value, and of the registry.
-/

namespace Formula

/-- When an extractor has its turn. Earlier levels run first. -/
inductive Level where
  | strings
  | symbols
  | numbers
  | other
  deriving DecidableEq

/-- The place of a level in the order of turns. -/
def Level.rank : Level → Nat
  | strings => 0
  | symbols => 1
  | numbers => 2
  | other => 3

/-- The largest machine word. -/
def largestWord : Nat := UInt64.size - 1

/-- The outcome of one scan. Offsets count bytes of the text. They are machine words, and need not be
offsets of a character. -/
inductive Extraction where
  /-- The text between the two offsets is a literal. -/
  | found (first last : Nat) (value : Value)
  /-- What starts at the offset is no literal after all. -/
  | invalid (offset : Nat)
  | exhausted
  deriving DecidableEq

/-- Finds literals. -/
structure Extractor where
  name : String
  level : Level
  /-- Scans a text from a byte offset on; the first number counts the scans made before in the
  same pass. -/
  scan : Definition → Nat → Text → Nat → Extraction
  /-- Whether a scan asks to give up the compilation. -/
  cancels : Bool := false

/-- Gives a value to the text of an operand. -/
structure Interpreter where
  interpret : Text → Option Value
  /-- Lower priorities are asked first. -/
  priority : Int := 0
  /-- Whether being asked asks to give up the compilation. -/
  cancels : Bool := false

/-- Gives text to the values it is meant for. -/
abbrev Formatter := Value → Option String

/-- The plugins of a host. -/
structure Registry where
  extractors : List Extractor := []
  interpreters : List Interpreter := []
  formatters : List Formatter := []

namespace Registry

/-- No plugins at all. -/
def empty : Registry := {}

/-- Adds an extractor after those of its level. -/
def addExtractor (registry : Registry) (e : Extractor) : Registry :=
  { registry with
    extractors := (registry.extractors ++ [e]).mergeSort fun a b => a.level.rank ≤ b.level.rank }

/-- Adds an interpreter after those of its priority. -/
def addInterpreter (registry : Registry) (i : Interpreter) : Registry :=
  { registry with
    interpreters := (registry.interpreters ++ [i]).mergeSort fun a b => a.priority ≤ b.priority }

/-- Adds a formatter, to be asked after all others. -/
def addFormatter (registry : Registry) (f : Formatter) : Registry :=
  { registry with formatters := registry.formatters ++ [f] }

/-- The text of a value: a string as it is, else what the first formatter that is meant for it
gives, else its plain form. -/
def format (registry : Registry) (v : Value) : String :=
  match v with
  | .string s => s
  | v => (registry.formatters.findSome? fun f => f v).getD v.display

/-- Asks the interpreters in turn. Tells also whether one that was asked cancels. -/
def ask : List Interpreter → Text → Option Value × Bool
  | [], _ => (none, false)
  | i :: rest, text =>
    match i.interpret text with
    | some v => (some v, i.cancels)
    | none =>
      let (v, cancelled) := ask rest text
      (v, i.cancels || cancelled)

/-- A summary of the registry. -/
def describe (registry : Registry) : String :=
  let names := String.intercalate ", " <| registry.extractors.map fun e =>
    String.ofList (Text.quoted e.name.toList)
  s!"PluginRegistry \x7b extractors: [{names}], interpreters: {registry.interpreters.length}, " ++
    s!"formatters: {registry.formatters.length} \x7d"

end Registry

end Formula
