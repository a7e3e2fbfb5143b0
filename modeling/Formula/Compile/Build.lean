import Std.Data.HashMap
import Formula.Compile.Calls
import Formula.Node.Fold

/-!
# Building the tree

A text of operands and operators has no grammar of its own: it is split at an operator, and the two
sides are built in the same way. The operators that bind loosest are tried first, among equals the
one furthest to the right; a split that fails is undone and the next one is tried. Every text is
built once for each state of the parameters.

## Main definitions

* `BuildState`, `BuildM`: the parameters, the texts built before and the splits tried.
* `TreeBuilder`: the operators of a definition, as they show in marked text.
* `TreeBuilder.build`: builds the tree of a text.
-/

namespace Formula

/-- A text with the types of the parameters it is built under. -/
structure BuildKey where
  text : Text
  masks : List TypeMask
  deriving DecidableEq

instance : Hashable BuildKey where
  hash key := mixHash (key.text.foldl (fun h c => mixHash h (hash c.val)) 7) (hash key.masks)

/-- What changes while a tree is built. -/
structure BuildState where
  params : List Parameter
  /-- The outcome for texts built before, with the types it left the parameters with. -/
  built : Std.HashMap BuildKey (Except CompileFault (Node × List TypeMask)) := ∅
  /-- Splits tried so far. -/
  splits : Nat := 0

/-- Building, which may fail and changes the state in either case. -/
abbrev BuildM := ExceptT CompileFault (StateM BuildState)

/-- Builds, and gives the outcome as a value. -/
def BuildM.observe {α : Type} (build : BuildM α) : BuildM (Except CompileFault α) :=
  ExceptT.mk do
    let outcome ← build.run
    return .ok outcome

namespace BuildState

/-- The types of the parameters. -/
def masks (s : BuildState) : List TypeMask :=
  s.params.map Parameter.supported

/-- The state with the types of the parameters replaced. -/
def withMasks (s : BuildState) (masks : List TypeMask) : BuildState :=
  { s with params := s.params.zipWith (fun p mask => { p with supported := mask }) masks }

end BuildState

/-- The operators of a definition, as they show in marked text. -/
structure TreeBuilder where
  tokens : Context.CallTokens
  /-- The binary operators, with their tiers and tokens. -/
  binary : List (BinaryOp × Nat × Text)
  /-- The unary operators, with their tokens. -/
  unary : List (UnaryOp × Text)
  registry : Registry
  context : Context

namespace TreeBuilder

/-- The tree builder of a definition, for the tables of a compilation. -/
def ofDefinition (d : Definition) (tokens : Context.CallTokens) (registry : Registry)
    (context : Context) : TreeBuilder where
  tokens := tokens
  binary := Definition.binaryOps.map fun op =>
    (op, op.tier d.precedence, tokens.markers.marked (d.token op).toList)
  unary := [(.negate, tokens.markers.marked d.subtract.toList),
    (.not, tokens.markers.marked d.not.toList)]
  registry := registry
  context := context

/-- The name of the function and the text between the parentheses, if a whole text is a call: the
longest word at its front that an open token follows, and a close token at its end. -/
def splitCall? (t : TreeBuilder) (text : Text) : Option (Text × Text) :=
  match text with
  | [] => none
  | c :: _ =>
    if Text.isLetter c || c == '_' then
      let word := text.takeWhile fun c => Text.isLetter c || Text.isNumeral c || c == '_'
      (List.range word.length).findSome? fun short =>
        let n := word.length - short
        match Text.after? t.tokens.opening (text.drop n) with
        | none => none
        | some rest => (Text.before? t.tokens.closing rest).map fun inner => (text.take n, inner)
    else none

/-- Counts a split; too many end the compilation. -/
def spendSplit : BuildM Unit := do
  modify fun s => { s with splits := s.splits + 1 }
  if maxSplits < (← get).splits then throw .tooComplex

/-- Assembles an application under the parameters of the state. -/
def assemble (head : Head) (operands : List Node) : BuildM Node := do
  let s ← get
  let (outcome, params) := Node.assemble head operands s.params
  set { s with params }
  match outcome with
  | .ok node => return node
  | .error fault => throw (.illTyped fault)

/-- The plain text of a marked text. -/
def plain (t : TreeBuilder) (text : Text) : String :=
  String.ofList (t.tokens.markers.unmark text)

/-- Tries one way of building a text. A failure is undone, unless it ends the compilation. -/
def attempt (t : TreeBuilder) (text : Text) (build : BuildM Node) : BuildM (Option Node) := do
  spendSplit
  let saved := (← get).params
  match ← BuildM.observe build with
  | .ok node => return some (node.fold t.registry (t.plain text))
  | .error .tooComplex => throw .tooComplex
  | .error _ =>
    modify fun s => { s with params := saved }
    return none

/-- The first of several ways of building a text that succeeds. -/
def firstSuccess (t : TreeBuilder) (text : Text) : List (BuildM Node) → BuildM (Option Node)
  | [] => return none
  | way :: ways => do
    match ← t.attempt text way with
    | some node => return some node
    | none => t.firstSuccess text ways

/-- A place where a text can be split at a binary operator. -/
structure Split where
  op : BinaryOp
  tier : Nat
  /-- Number of characters before the token of the operator. -/
  place : Nat
  /-- Number of characters of the token. -/
  width : Nat
  deriving DecidableEq

/-- Whether a split is tried no later than another one: the looser tier first, and within a tier
from right to left. -/
def Split.precedes (a b : Split) : Bool :=
  a.tier < b.tier || (a.tier == b.tier && b.place ≤ a.place)

/-- The splits of a text that leave something on both sides, in the order in which they are
tried. -/
def candidates (t : TreeBuilder) (text : Text) : List Split :=
  let all := t.binary.flatMap fun (op, tier, token) =>
    (Text.places token text).map fun place => { op, tier, place, width := token.length : Split }
  let inner := all.filter fun s => 0 < s.place && s.place + s.width < text.length
  inner.mergeSort Split.precedes

theorem candidates_of_inner {t : TreeBuilder} {text : Text} {splits : List Split}
    (h : (t.binary.flatMap fun (op, tier, token) => (Text.places token text).map
      fun place => { op, tier, place, width := token.length : Split }).filter
        (fun s => 0 < s.place && s.place + s.width < text.length) = splits) :
    t.candidates text = splits.mergeSort Split.precedes := by
  rw [candidates, h]

/-- The ways of splitting a text at a binary operator. -/
def binaryWays (t : TreeBuilder) (build : Text → BuildM Node) (text : Text) :
    List (BuildM Node) :=
  (t.candidates text).map fun s => do
    let left ← build (text.take s.place)
    let right ← build (text.drop (s.place + s.width))
    assemble (.binary s.op) [left, right]

/-- The ways of taking a unary operator off the front of a text. -/
def unaryWays (t : TreeBuilder) (build : Text → BuildM Node) (text : Text) :
    List (BuildM Node) :=
  t.unary.filterMap fun (op, token) =>
    match Text.after? token text with
    | none | some [] => none
    | some rest => some do
      let operand ← build rest
      assemble (.unary op) [operand]

/-- Builds a call. -/
def buildCall (t : TreeBuilder) (build : Text → BuildM Node) (text : Text) : BuildM Node := do
  match t.splitCall? text with
  | none => throw (.unresolved text)
  | some (name, inner) =>
    let args := if inner = [] then [] else Text.splitAll t.tokens.separator inner
    match Function.lookup? (String.ofList name) args.length with
    | none => throw (.unknownFunction name args.length)
    | some f =>
      let operands ← args.mapM build
      let node ← assemble (.call f) operands
      return node.fold t.registry (t.plain text)

/-- Builds a text that is no name. -/
def buildComposite (t : TreeBuilder) (build : Text → BuildM Node) (text : Text) :
    BuildM Node := do
  if (t.splitCall? text).isSome then t.buildCall build text
  else
    match ← t.firstSuccess text (t.binaryWays build text) with
    | some node => return node
    | none =>
      match ← t.firstSuccess text (t.unaryWays build text) with
      | some node => return node
      | none => throw (.unresolved (t.tokens.markers.unmark text))

/-- Builds a text once for each state of the parameters. -/
def remember (text : Text) (build : BuildM Node) : BuildM Node := do
  let s ← get
  let key : BuildKey := { text, masks := s.masks }
  match s.built[key]? with
  | some (.error fault) => throw fault
  | some (.ok (node, masks)) =>
    set (s.withMasks masks)
    return node
  | none =>
    let outcome ← BuildM.observe build
    modify fun s =>
      { s with built := s.built.insert key (outcome.map fun node => (node, s.masks)) }
    match outcome with
    | .ok node => return node
    | .error fault => throw fault

/-- Builds what a name stands for, or a text, with `build` for its parts. -/
def buildStep (t : TreeBuilder) (build : Text → BuildM Node) (key : Text) : BuildM Node := do
  match t.context.constant? key with
  | some constant => return .constant constant.value (String.ofList constant.text)
  | none =>
    match Context.parameterIndex? (← get).params key with
    | some id => return .parameter id
    | none =>
      match t.context.symbol? key with
      | some symbol =>
        if symbol.text = key then throw (.unresolved key)
        else if symbol.isCall then t.buildCall build symbol.text
        else build symbol.text
      | none => remember key (t.buildComposite build key)

/-- Builds what a name stands for, or a text. The first argument bounds the nesting. What is modelled
has no such bound: where a text leads back to itself it goes on without end, and giving the text up as
too complex stands for that here. -/
def buildWithin (t : TreeBuilder) : Nat → Text → BuildM Node
  | 0, _ => throw .tooComplex
  | depth + 1, key => t.buildStep (t.buildWithin depth) key

/-- The length of the longest text of a symbol. -/
def longest (t : TreeBuilder) : Nat :=
  t.context.symbols.foldl (fun n (_, s) => max n s.text.length) 0

/-- More than the nesting can be, unless a text leads back to itself: a step goes to a shorter text,
or to the text of a symbol. -/
def depthBound (t : TreeBuilder) : Nat :=
  (t.context.symbols.length + 1) * (t.longest + 2)

/-- Builds what a name stands for, or a text. -/
def build (t : TreeBuilder) (key : Text) : BuildM Node :=
  t.buildWithin t.depthBound key

end TreeBuilder

end Formula
