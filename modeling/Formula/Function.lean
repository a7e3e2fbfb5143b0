import Formula.Operator
import Formula.Text.Basic
import Formula.Text.CharClass
import Formula.Value.Basic
import Formula.Word

/-!
# Functions

The functions that expressions can call: their spellings, their overloads, and what they do to
arguments that fit an overload. The random functions turn a drawn 64-bit number into their
result; all others do not look at it.

## Main definitions

* `Function`, `Function.lookup?`: the functions and their look-up by name and arity.
* `Function.signatures`, `Function.isDeterministic`.
* `Function.eval`: the result of a call.
-/

namespace Formula

/-- Functions of one double. -/
inductive RealFunction where
  | acos
  | asin
  | atan
  | cos
  | cosh
  | exp
  | ln
  | lg
  | log2
  | sin
  | sqrt
  | cbrt
  | tan
  | tanh
  deriving DecidableEq

/-- Ways of making a number whole. -/
inductive Rounding where
  | ceil
  | floor
  /-- To the nearest, a half away from zero. -/
  | round
  | truncate
  deriving DecidableEq

/-- The functions. -/
inductive Function where
  | real (f : RealFunction)
  | rounding (r : Rounding)
  | abs
  | sign
  | log
  | pow
  | atan2
  | min
  | max
  | roundDigits
  | random
  | randomBelow
  | randomBetween
  | randomInteger
  | randomIntegerBelow
  | randomIntegerBetween
  | length
  | trim
  | trimSet
  | trimBody
  | substr
  | substrLength
  | replace
  deriving DecidableEq

/-- The kinds of arguments that functions ask for. -/
inductive ArgumentKind where
  | numeric
  | integer
  | string
  deriving DecidableEq

/-- Why a call has no result. -/
inductive FunctionFault where
  | argumentCount (expected : Nat)
  | argumentKind (expected : ArgumentKind) (got : Value)
  | notFinite
  | overflow
  | signOfNaN
  | digitsOutOfRange
  | negativeStart
  | negativeLength
  | emptyRange (low high : Float)
  | emptyIntegerRange (low high : Int64)
  deriving DecidableEq

namespace RealFunction

/-- All functions of one double. -/
def all : List RealFunction :=
  [acos, asin, atan, cos, cosh, exp, ln, lg, log2, sin, sqrt, cbrt, tan, tanh]

/-- The names a function is called by; the first one is its own. -/
def spellings : RealFunction → List String
  | acos => ["acos", "arccos"]
  | asin => ["asin", "arcsin"]
  | atan => ["atan", "arctg"]
  | cos => ["cos"]
  | cosh => ["cosh"]
  | exp => ["exp"]
  | ln => ["ln"]
  | lg => ["lg", "log10"]
  | log2 => ["log2"]
  | sin => ["sin", "sine"]
  | sqrt => ["sqrt"]
  | cbrt => ["cbrt"]
  | tan => ["tan", "tangent"]
  | tanh => ["tanh"]

/-- What the function is at a zero, whose sign may matter. -/
def atZero (f : RealFunction) (zero : Float) : Float :=
  match f with
  | asin | atan | sin | sqrt | cbrt | tan | tanh => zero
  | cos | cosh | exp => 1
  | acos => Binary64.halfPi
  | ln | lg | log2 => -Binary64.infinity

/-- What the function is elsewhere. All but the roots are computed by the mathematics of the
platform. -/
def computed : RealFunction → Float → Float
  | acos => Float.acos
  | asin => Float.asin
  | atan => Float.atan
  | cos => Float.cos
  | cosh => Float.cosh
  | exp => Float.exp
  | ln => Float.log
  | lg => Float.log10
  | log2 => Float.log2
  | sin => Float.sin
  | sqrt => Float.sqrt
  | cbrt => Binary64.cubeRoot
  | tan => Float.tan
  | tanh => Float.tanh

/-- The function itself. -/
def apply (f : RealFunction) (x : Float) : Float :=
  if x == 0 then f.atZero x else f.computed x

end RealFunction

namespace Rounding

/-- All ways of rounding. -/
def all : List Rounding := [ceil, floor, round, truncate]

/-- The names a function is called by. -/
def spellings : Rounding → List String
  | ceil => ["ceil", "ceiling"]
  | floor => ["floor"]
  | round => ["round"]
  | truncate => ["truncate", "trun"]

/-- Whether to go to the whole number that is farther from zero, given the sign, the numerator and
the denominator of the fraction that is dropped. -/
def away (r : Rounding) (negative : Bool) (rest unit : Nat) : Bool :=
  match r with
  | ceil => !negative && 0 < rest
  | floor => negative && 0 < rest
  | round => unit ≤ 2 * rest
  | truncate => false

/-- The rounded double. -/
def apply (r : Rounding) : Float → Float :=
  Binary64.whole r.away

end Rounding

namespace Function

/-- All functions. -/
def all : List Function :=
  RealFunction.all.map real ++ Rounding.all.map rounding ++
    [abs, sign, log, pow, atan2, min, max, roundDigits, random, randomBelow, randomBetween,
      randomInteger, randomIntegerBelow, randomIntegerBetween, length, trim, trimSet, trimBody,
      substr, substrLength, replace]

/-- The names a function is called by; the first one is its own. -/
def spellings : Function → List String
  | real f => f.spellings
  | rounding r => r.spellings
  | abs => ["abs"]
  | sign => ["sign"]
  | log => ["log"]
  | pow => ["pow"]
  | atan2 => ["atan2"]
  | min => ["min"]
  | max => ["max"]
  | roundDigits => ["round"]
  | random | randomBelow | randomBetween => ["random"]
  | randomInteger | randomIntegerBelow | randomIntegerBetween => ["randomint"]
  | length => ["length", "strlen"]
  | trim | trimSet => ["trim"]
  | trimBody => ["trimbody"]
  | substr | substrLength => ["substr", "substring"]
  | replace => ["replace"]

/-- The function's own name. -/
def name (f : Function) : String :=
  f.spellings.headD ""

/-- The overloads, in order of preference. -/
def signatures : Function → List Signature
  | real _ => [⟨[.numeric], .numeric⟩]
  | rounding _ | abs => [⟨[.integer], .integer⟩, ⟨[.numeric], .numeric⟩]
  | sign => [⟨[.integer], .integer⟩, ⟨[.numeric], .integer⟩]
  | log | pow | atan2 => [⟨[.numeric, .numeric], .numeric⟩]
  | min | max => [⟨[.integer, .integer], .integer⟩, ⟨[.numeric, .numeric], .numeric⟩]
  | roundDigits => [⟨[.numeric, .integer], .numeric⟩]
  | random => [⟨[], .numeric⟩]
  | randomBelow => [⟨[.numeric], .numeric⟩]
  | randomBetween => [⟨[.numeric, .numeric], .numeric⟩]
  | randomInteger => [⟨[], .integer⟩]
  | randomIntegerBelow => [⟨[.integer], .integer⟩]
  | randomIntegerBetween => [⟨[.integer, .integer], .integer⟩]
  | length => [⟨[.string], .integer⟩, ⟨[.bytes], .integer⟩]
  | trim => [⟨[.string], .string⟩]
  | trimSet | trimBody => [⟨[.string, .string], .string⟩]
  | substr => [⟨[.string, .integer], .string⟩]
  | substrLength => [⟨[.string, .integer, .integer], .string⟩]
  | replace => [⟨[.string, .string, .string], .string⟩]

/-- Number of arguments; the same in all overloads. -/
def arity (f : Function) : Nat :=
  (f.signatures.head?.map fun s => s.args.length).getD 0

/-- Whether equal arguments always give the same result. -/
def isDeterministic : Function → Bool
  | random | randomBelow | randomBetween | randomInteger | randomIntegerBelow
  | randomIntegerBetween => false
  | _ => true

/-- The function called by `name` with `arity` arguments. -/
def lookup? (name : String) (arity : Nat) : Option Function :=
  all.find? fun f => f.spellings.contains name && f.arity == arity

/-- Whether some function is called by `name`. -/
def isName (name : String) : Bool :=
  all.any fun f => f.spellings.contains name

end Function

namespace FunctionFault

/-- The wording of a fault in a call of `f`. -/
def message (f : Function) : FunctionFault → String
  | argumentCount 1 => s!"`{f.name}` expects 1 argument"
  | argumentCount n => s!"`{f.name}` expects {n} arguments"
  | argumentKind kind v =>
    let kind := match kind with
      | .numeric => "numeric"
      | .integer => "integer"
      | .string => "string"
    s!"`{f.name}` expects {kind} argument. Got `{v.display}` instead"
  | notFinite => s!"`{f.name}` produced a non-finite result"
  | overflow => s!"integer overflow in `{f.name}`"
  | signOfNaN => s!"`{f.name}` of NaN"
  | digitsOutOfRange => s!"`{f.name}` supports between -15 and 15 digits"
  | negativeStart => s!"`{f.name}` expects a non-negative start index"
  | negativeLength => s!"`{f.name}` expects a non-negative length"
  | emptyRange low high =>
    let (low, high) := ((Value.numeric low).display, (Value.numeric high).display)
    s!"`{f.name}` expects a non-empty finite range. Got [{low}, {high})"
  | emptyIntegerRange low high =>
    s!"`{f.name}` expects a non-empty range. Got [{low.toInt}, {high.toInt})"

end FunctionFault

namespace Function

/-- The outcome of a call. -/
abbrev Outcome := Except FunctionFault

/-- A number as a double. -/
def asNumeric (v : Value) : Outcome Float :=
  match v.number? with
  | .ok x => .ok x
  | .error _ => .error (.argumentKind .numeric v)

/-- An integer. -/
def asInteger (v : Value) : Outcome Int64 :=
  match v with
  | .integer i => .ok i
  | v => .error (.argumentKind .integer v)

/-- A string, as text. -/
def asText (v : Value) : Outcome Text :=
  match v with
  | .string s => .ok s.toList
  | v => .error (.argumentKind .string v)

/-- A double as a result: it has to be finite. -/
def finite (x : Float) : Outcome Value :=
  if x.isFinite then .ok (.numeric x) else .error .notFinite

/-- Text as a result. -/
def ofText (text : Text) : Value :=
  .string (String.ofList text)

/-- A whole number stays, a double is mapped. -/
def keepingKind (onInteger : Int64 → Option Int64) (onDouble : Float → Float) (v : Value) :
    Outcome Value :=
  match v with
  | .integer i =>
    match onInteger i with
    | some r => .ok (.integer r)
    | none => .error .overflow
  | v => do finite (onDouble (← asNumeric v))

/-- The sign of a number as an integer. -/
def signOf (v : Value) : Outcome Value :=
  match v with
  | .integer i => .ok (.integer (Word.sign i))
  | v => do
    let x ← asNumeric v
    if x.isNaN then throw .signOfNaN
    return .integer (if 0 < x then 1 else if x < 0 then -1 else 0)

/-- One of two numbers, integers compared as such. -/
def choose (onInteger : Int64 → Int64 → Int64) (onDouble : Float → Float → Float) (a b : Value) :
    Outcome Value :=
  match a, b with
  | .integer i, .integer j => .ok (.integer (onInteger i j))
  | a, b => do return .numeric (onDouble (← asNumeric a) (← asNumeric b))

/-- Rounds to a number of decimal digits, a half away from zero. A negative number counts digits
before the point. -/
def roundTo (x : Float) (digits : Int64) : Outcome Value :=
  let n := digits.toInt
  if -15 ≤ n ∧ n ≤ 15 then
    let power := Float.ofScientific 1 false n.natAbs
    let scale := if 0 ≤ n then power else 1 / power
    finite (Rounding.round.apply (x * scale) / scale)
  else .error .digitsOutOfRange

/-- A drawn number in `[0, 1)`, with 53 bits. -/
def unit (draw : UInt64) : Float :=
  Binary64.scaled false (draw.toNat >>> 11) (-53)

/-- A double in `[low, high)`. -/
def drawDouble (draw : UInt64) (low high : Float) : Outcome Value :=
  if low < high ∧ (high - low).isFinite then
    let x := low + (high - low) * unit draw
    .ok (.numeric (if x < high then x else low))
  else .error (.emptyRange low high)

/-- An integer in `[low, high)`. -/
def drawInteger (draw : UInt64) (low high : Int64) : Outcome Value :=
  if low < high then
    .ok (.integer (Int64.ofInt (low.toInt + draw.toNat % (high.toInt - low.toInt))))
  else .error (.emptyIntegerRange low high)

/-- A start index. -/
def startIndex (v : Value) : Outcome Nat := do
  let i ← asInteger v
  if i < 0 then throw .negativeStart
  return i.toInt.toNat

/-- The result of a call; `draw` is the number drawn for it. -/
def eval (f : Function) (draw : UInt64) (args : List Value) : Outcome Value :=
  match f, args with
  | real g, [v] => do finite (g.apply (← asNumeric v))
  | rounding r, [v] => keepingKind some r.apply v
  | abs, [v] => keepingKind Word.abs? Float.abs v
  | sign, [v] => signOf v
  | log, [x, base] => do
    finite (RealFunction.ln.apply (← asNumeric x) / RealFunction.ln.apply (← asNumeric base))
  | pow, [x, y] => do finite (Binary64.power (← asNumeric x) (← asNumeric y))
  | atan2, [y, x] => do finite (Binary64.angle (← asNumeric y) (← asNumeric x))
  | min, [a, b] => choose (fun i j => if j < i then j else i) Binary64.lesser a b
  | max, [a, b] => choose (fun i j => if i < j then j else i) Binary64.greater a b
  | roundDigits, [x, digits] => do roundTo (← asNumeric x) (← asInteger digits)
  | random, [] => .ok (.numeric (unit draw))
  | randomBelow, [high] => do drawDouble draw 0 (← asNumeric high)
  | randomBetween, [low, high] => do drawDouble draw (← asNumeric low) (← asNumeric high)
  | randomInteger, [] => drawInteger draw 0 2147483647
  | randomIntegerBelow, [high] => do drawInteger draw 0 (← asInteger high)
  | randomIntegerBetween, [low, high] => do
    drawInteger draw (← asInteger low) (← asInteger high)
  | length, [v] =>
    match v with
    | .bytes bs => .ok (.integer (Int64.ofNat bs.length))
    | v => do return .integer (Int64.ofNat (← asText v).length)
  | trim, [s] => do return ofText (Text.trimBoth Text.isBlank (← asText s))
  | trimSet, [s, set] => do
    let s ← asText s
    let set ← asText set
    return ofText (Text.trimBoth (List.contains set) s)
  | trimBody, [s, body] => do
    let s ← asText s
    let body ← asText body
    return ofText (if body = [] then s else Text.replaceAll body [] s)
  | substr, [s, start] => do
    let s ← asText s
    return ofText (s.drop (← startIndex start))
  | substrLength, [s, start, count] => do
    let s ← asText s
    let start ← startIndex start
    let n ← asInteger count
    if n < 0 then throw .negativeLength
    return ofText ((s.drop start).take n.toInt.toNat)
  | replace, [s, old, new] => do
    let s ← asText s
    let old ← asText old
    let new ← asText new
    return ofText (if old = [] then s else Text.replaceAll old new s)
  | f, _ => .error (.argumentCount f.arity)

end Function

end Formula
