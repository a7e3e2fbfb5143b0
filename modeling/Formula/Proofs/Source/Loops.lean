import Mathlib.Data.Nat.Basic
import Formula.Compile.Basic
import Formula.Proofs.Compile.Naming

/-!
# The rewriting stages as loops

A text is rewritten by loops that go on as long as there is something to do: the search for a free
name, the passes of the extractors, the search for calls and the search for groups. Here they are
written with no bound and no measure, and a loop that never ends gives nothing. Places are counted with
checked sums, as in `Context.pass`: behind the largest machine word a pass does not go on.

## Main definitions

* `Context.freshNumber?`: the search for a free name.
* `Context.pass?`, `Context.extractLiterals?`: the passes of the extractors.
* `Context.extractCalls?`: the search for calls, which goes into the arguments of each.
* `Context.flattenGroups?`: the search for groups, symbol by symbol.
* `Compiler.rewrite?`: all of them in turn, from the source to the tables.

## Main results

* `Context.freshNumber?_eq_some`, `Context.extractLiterals?_eq_some`,
  `Context.extractCalls?_eq_some`: all but the search for groups end, whatever the definition.
-/

namespace Formula

/-- What a rewriting stage gives: nothing if it never ends, and otherwise a result or a fault. -/
abbrev Rewriting := ExceptT CompileFault Option

/-- A stage that ends with an outcome. -/
def Rewriting.ended {α : Type} (outcome : Except CompileFault α) : Rewriting α :=
  ExceptT.mk (some outcome)

@[simp] theorem Rewriting.ended_ok_bind {α β : Type} (a : α) (rest : α → Rewriting β) :
    (ended (.ok a) >>= rest) = rest a :=
  rfl

@[simp] theorem Rewriting.ended_error_bind {α β : Type} (fault : CompileFault)
    (rest : α → Rewriting β) : (ended (.error fault) >>= rest) = ended (.error fault) :=
  rfl

/-- Stages that end one after the other end together. -/
theorem Rewriting.ended_bind {α β : Type} {outcome : Except CompileFault α}
    {rest : α → Rewriting β} {next : α → Except CompileFault β}
    (h : ∀ a, rest a = ended (next a)) : (ended outcome >>= rest) = ended (outcome >>= next) := by
  cases outcome with
  | error fault => rfl
  | ok a => exact h a

namespace Context

/-! ### Free names -/

/-- The first number after `n` whose name is free. -/
def freshNumber? (ctx : Context) (n : Nat) : Option Nat :=
  if ctx.isTaken (generatedName (n + 1)) then ctx |>.freshNumber? (n + 1) else some (n + 1)
partial_fixpoint

/-- If the bounded search ends at a free name, the search without a bound ends there too. -/
theorem freshNumber?_of_free {ctx : Context} {bound n : Nat}
    (h : ctx.isTaken (generatedName (ctx.freshNumber bound n)) = false) :
    ctx.freshNumber? n = some (ctx.freshNumber bound n) := by
  induction bound generalizing n with
  | zero =>
    rw [freshNumber] at h
    rw [freshNumber?, freshNumber, if_neg (Bool.not_eq_true _ ▸ h)]
  | succ bound ih =>
    rw [freshNumber?]
    rw [freshNumber] at h ⊢
    split at h
    · next htaken =>
      rw [if_pos htaken, isTaken, if_pos htaken]
      exact ih h
    · next hfree => rw [if_neg hfree, isTaken, if_neg hfree]

/-- The search for a free name ends, with the number that the bounded search gives. -/
theorem freshNumber?_eq_some (ctx : Context) :
    ctx.freshNumber? ctx.counter = some (ctx.freshNumber ctx.takenBound ctx.counter) :=
  freshNumber?_of_free ctx.freshName_free

/-! ### Literals -/

/-- The pass of one extractor over a text, from a byte offset on. -/
def pass? (scan : Nat → Text → Nat → Extraction) (count : Nat) (text : Text) (offset : Nat)
    (ctx : Context) : Option (Text × Context) :=
  if offset ≤ Text.byteLength text then
    match scan count text offset with
    | .exhausted => some (text, ctx)
    | .invalid place =>
      match placeBehind? text (max place offset) with
      | none => some (text, { ctx with overrun := true })
      | some next => ctx |>.pass? scan (count + 1) text next
    | .found first last value =>
      if offset ≤ first ∧ first < last then
        match Text.slice? first last text with
        | none => some (text, ctx)
        | some (before, literal, rest) =>
          let named := ctx.intern value literal
          named.2 |>.pass? scan (count + 1) (before ++ named.1 ++ rest)
            (first + Text.byteLength named.1)
      else some (text, ctx)
  else some (text, ctx)
partial_fixpoint

/-- The passes of extractors in turn. -/
def passes? (d : Definition) : List Extractor → (stripped : Bool) → Text → Context →
    Option (Text × Context)
  | [], stripped, text, ctx => some (if stripped then (text, ctx) else stripBlanks text ctx)
  | e :: rest, stripped, text, ctx => do
    let strips := !stripped && 0 < e.level.rank
    let (text, ctx) := if strips then stripBlanks text ctx else (text, ctx)
    let (text, ctx) ← pass? (e.scan d) 0 text 0 { ctx with cancelled := ctx.cancelled || e.cancels }
    passes? d rest (stripped || strips) text ctx

/-- Takes the literals out of the source. -/
def extractLiterals? (d : Definition) (registry : Registry) (ctx : Context) :
    Option (Text × Context) :=
  passes? d registry.extractors false ctx.source ctx

/-- Every answer of an extractor brings its pass nearer to the end of the text, but the largest word as
an invalid place, which aborts it. -/
theorem pass?_eq_some (scan : Nat → Text → Nat → Extraction) (count : Nat) (text : Text)
    (offset : Nat) (ctx : Context) :
    pass? scan count text offset ctx = some (pass scan count text offset ctx) := by
  fun_induction pass scan count text offset ctx with
  | case1 count text offset ctx hle hscan => rw [pass?, if_pos hle, hscan]
  | case2 count text offset ctx hle place hscan hnone =>
    rw [pass?, if_pos hle, hscan]
    simp only [hnone]
  | case3 count text offset ctx hle place hscan next hnext ih =>
    rw [pass?, if_pos hle, hscan, ← ih]
    simp only [hnext]
  | case4 count text offset ctx hle first last value hscan hplace hslice =>
    rw [pass?, if_pos hle, hscan]
    simp only [hplace, hslice, and_self, if_true]
  | case5 count text offset ctx hle first last value hscan hplace before literal rest hslice _ named
      ih =>
    rw [pass?, if_pos hle, hscan, ← ih]
    simp only [hplace, hslice, and_self, if_true]
    rfl
  | case6 count text offset ctx hle first last value hscan hplace =>
    rw [pass?, if_pos hle, hscan]
    exact if_neg hplace
  | case7 count text offset ctx hgt => rw [pass?, if_neg hgt]

theorem passes?_eq_some (d : Definition) (extractors : List Extractor) (stripped : Bool)
    (text : Text) (ctx : Context) :
    passes? d extractors stripped text ctx = some (passes d extractors stripped text ctx) := by
  induction extractors generalizing stripped text ctx with
  | nil => rw [passes?, passes]
  | cons e rest ih =>
    simp only [passes?, passes, pass?_eq_some, ih, Option.bind_eq_bind, Option.bind_some]

/-- Taking the literals out ends. The extractors may answer anything, but that the largest word is an
invalid place: then what ends it is that the compilation is aborted. -/
theorem extractLiterals?_eq_some (d : Definition) (registry : Registry) (ctx : Context) :
    ctx.extractLiterals? d registry = some (ctx.extractLiterals d registry) :=
  passes?_eq_some ..

/-! ### Calls -/

mutual

/-- Takes the calls out of `rest`, the part of `whole` that is still to be looked at. -/
def extractCallsFrom? (tokens : CallTokens) (whole rest : Text) (ctx : Context) :
    Rewriting (Text × Context) :=
  match findCall? tokens.opening rest with
  | none => pure (rest, ctx)
  | some (head, name, tail) =>
    match Text.matchClose? tokens.opening tokens.closing 0 0 tail with
    | none => throw (.unbalanced whole)
    | some (inner, after) => do
      let (operands, ctx) ← ctx |>.extractArguments? tokens whole (tokens.arguments inner)
      let named := ctx.addSymbol (tokens.call name operands) true
      let (text, ctx) ← named.2 |>.extractCallsFrom? tokens whole after
      return (head ++ named.1 ++ text, ctx)
partial_fixpoint

/-- Makes plain operands of arguments. -/
def extractArguments? (tokens : CallTokens) (whole : Text) (args : List Text) (ctx : Context) :
    Rewriting (List Text × Context) :=
  match args with
  | [] => pure ([], ctx)
  | arg :: rest => do
    let (text, ctx) ← ctx |>.extractCallsFrom? tokens arg arg
    if text = [] then throw (.emptyGroup whole)
    else
      let named := if tokens.isPlain text then (text, ctx) else ctx.addSymbol text false
      let (operands, ctx) ← named.2 |>.extractArguments? tokens whole rest
      return (named.1 :: operands, ctx)
partial_fixpoint

end

section

variable {tokens : CallTokens} {whole rest head name tail inner after : Text} {ctx : Context}

theorem extractCallsFrom?_done (hfind : findCall? tokens.opening rest = none) :
    extractCallsFrom? tokens whole rest ctx = .ended (.ok (rest, ctx)) := by
  rw [extractCallsFrom?, hfind]
  rfl

theorem extractCallsFrom?_unclosed
    (hfind : findCall? tokens.opening rest = some (head, name, tail))
    (hclose : Text.matchClose? tokens.opening tokens.closing 0 0 tail = none) :
    extractCallsFrom? tokens whole rest ctx = .ended (.error (.unbalanced whole)) := by
  rw [extractCallsFrom?, hfind]
  dsimp only
  rw [hclose]
  rfl

theorem extractCallsFrom?_call
    (hfind : findCall? tokens.opening rest = some (head, name, tail))
    (hclose : Text.matchClose? tokens.opening tokens.closing 0 0 tail = some (inner, after)) :
    extractCallsFrom? tokens whole rest ctx =
      extractArguments? tokens whole (tokens.arguments inner) ctx >>= fun operands =>
        let named := operands.2.addSymbol (tokens.call name operands.1) true
        extractCallsFrom? tokens whole after named.2 >>= fun result =>
          pure (head ++ named.1 ++ result.1, result.2) := by
  rw [extractCallsFrom?, hfind]
  dsimp only
  rw [hclose]

end

mutual

/-- What follows a call, and each of its arguments, is shorter than the text it stands in. -/
theorem extractCallsFrom?_eq_ended (tokens : CallTokens) (whole rest : Text) (ctx : Context) :
    extractCallsFrom? tokens whole rest ctx
      = .ended (extractCallsFrom tokens whole rest ctx) := by
  rw [extractCallsFrom]
  split
  · next hfind => exact extractCallsFrom?_done hfind
  · next head name tail hfind =>
    split
    · next hclose => exact extractCallsFrom?_unclosed hfind hclose
    · next inner after hclose =>
      have hfound := length_of_findCall? hfind
      have hmatched := Text.length_of_matchClose? hclose
      have hlt : ∀ arg ∈ tokens.arguments inner, arg.length < rest.length := fun arg harg =>
        (tokens.length_le_of_mem_arguments harg).trans_lt (hmatched.1.trans_lt hfound)
      rw [extractCallsFrom?_call hfind hclose,
        extractArguments?_eq_ended tokens whole rest.length (tokens.arguments inner) hlt ctx]
      dsimp only
      cases extractArguments tokens whole rest.length (tokens.arguments inner) hlt ctx with
      | error fault => rfl
      | ok result =>
        rw [Rewriting.ended_ok_bind, extractCallsFrom?_eq_ended tokens whole after]
        dsimp only
        cases extractCallsFrom tokens whole after _ with
        | error fault => rfl
        | ok result => rfl
termination_by (rest.length + 1, 0)
decreasing_by
  all_goals
    first
      | exact Prod.Lex.left _ _ (Nat.lt_succ_self _)
      | exact Prod.Lex.left _ _ (by omega)

theorem extractArguments?_eq_ended (tokens : CallTokens) (whole : Text) (bound : Nat)
    (args : List Text) (hargs : ∀ arg ∈ args, arg.length < bound) (ctx : Context) :
    extractArguments? tokens whole args ctx
      = .ended (extractArguments tokens whole bound args hargs ctx) := by
  match args with
  | [] =>
    rw [extractArguments?, extractArguments]
    rfl
  | arg :: rest =>
    have hlt := hargs arg (List.mem_cons_self ..)
    rw [extractArguments?, extractArguments, extractCallsFrom?_eq_ended tokens arg arg ctx]
    cases extractCallsFrom tokens arg arg ctx with
    | error fault => rfl
    | ok result =>
      obtain ⟨text, ctx⟩ := result
      rw [Rewriting.ended_ok_bind]
      dsimp only
      split
      · rfl
      · rw [extractArguments?_eq_ended tokens whole bound rest
          (fun a ha => hargs a (List.mem_cons_of_mem _ ha))]
        cases extractArguments tokens whole bound rest _ _ with
        | error fault => rfl
        | ok result => rfl
termination_by (bound, args.length)
decreasing_by
  · rcases Nat.lt_or_eq_of_le (Nat.succ_le_of_lt hlt) with hlt | heq
    · exact Prod.Lex.left _ _ hlt
    · rw [← heq]
      exact Prod.Lex.right _ (by simp)
  · exact Prod.Lex.right _ (by simp)

end

/-- Takes all calls out of a text. -/
def extractCalls? (tokens : CallTokens) (text : Text) (ctx : Context) :
    Rewriting (Text × Context) :=
  extractCallsFrom? tokens text text ctx

/-- Taking the calls out ends. -/
theorem extractCalls?_eq_ended (tokens : CallTokens) (text : Text) (ctx : Context) :
    ctx.extractCalls? tokens text = .ended (ctx.extractCalls tokens text) :=
  extractCallsFrom?_eq_ended ..

/-! ### Groups -/

/-- Takes all groups out of the symbols with the given names, in turn. -/
def flattenSymbols? (opening closing : Text) : List Text → Context → Rewriting Context
  | [], ctx => pure ctx
  | key :: keys, ctx =>
    match ctx.symbol? key with
    | none => flattenSymbols? opening closing keys ctx
    | some symbol => do
      let (text, ctx) ← ExceptT.mk (flatten? opening closing symbol.text ctx)
      flattenSymbols? opening closing keys (ctx.setText key text)

/-- Takes all groups out of all symbols that are no calls, in the order of their names. -/
def flattenGroups? (opening closing : Text) (ctx : Context) : Rewriting Context :=
  let keys := (ctx.sortedSymbols.filter fun (_, s) => !s.isCall).map Prod.fst
  flattenSymbols? opening closing keys ctx

end Context

namespace Compiler

/-- The stages from a text without literals to the tables that a tree is built from. -/
def resolve? (c : Compiler) (text : Text) (ctx : Context) : Rewriting Context := do
  if text = [] then throw .empty
  Rewriting.ended (check ctx)
  let ctx := { ctx with symbols := (Context.mainName, { text, isCall := false }) :: ctx.symbols }
  let (text, ctx) ← ctx.extractCalls? c.tokens text
  let ctx := ctx.setText Context.mainName text
  let ctx ← ctx.flattenGroups? c.tokens.opening c.tokens.closing
  Rewriting.ended (ctx.populate c.tokens c.registry)

/-- All rewriting stages, from the source to the tables. -/
def rewrite? (c : Compiler) (source : Text) : Rewriting Context :=
  ((Context.start source).extractLiterals? c.definition c.registry).bind fun result =>
    c.resolve? result.1 result.2

/-- What the rewriting stages give for a source. -/
def rewrite (c : Compiler) (source : Text) : Except CompileFault Context :=
  let result := (Context.start source).extractLiterals c.definition c.registry
  c.resolve result.1 result.2

end Compiler

end Formula
