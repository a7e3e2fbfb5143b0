import Formula.Compile.Basic
import Formula.Proofs.Outcome
import Formula.Proofs.Source.Strings

/-!
# The stages of a compilation as relations

Calls are taken out of a text by a search that turns to the arguments of each call before it goes
on. Groups are taken out one by one. Where these stages succeed, they are a sequence of steps, each
of which adds a symbol or changes the text of one. The relations of this module list the steps, so
that what every step keeps is kept by the stage.

## Main definitions

* `Context.Takes`: taking the calls out of a text, or out of arguments.
* `Context.Flattens`, `Context.FlattensAll`: taking the groups out of a text, or of symbols.

## Main results

* `Context.takes_extractCalls`, `Context.flattens_flattenText`,
  `Context.flattensAll_flattenSymbols`: a stage that succeeds is such a sequence of steps.
* `Context.Takes.preserves`, `Context.FlattensAll.preserves`: what the steps keep.
-/

namespace Formula.Context

/-! ### Calls -/

section Search

variable {tokens : CallTokens} {whole rest head name tail inner after : Text} {ctx : Context}

theorem extractCallsFrom_unclosed (hfind : findCall? tokens.opening rest = some (head, name, tail))
    (hclose : Text.matchClose? tokens.opening tokens.closing 0 0 tail = none) :
    extractCallsFrom tokens whole rest ctx = .error (.unbalanced whole) := by
  rw [extractCallsFrom]
  split
  · next hnone => cases hfind.symm.trans hnone
  · next hsome =>
    cases hfind.symm.trans hsome
    split
    · rfl
    · next hsome => cases hclose.symm.trans hsome

theorem extractCallsFrom_call (whole : Text) (ctx : Context)
    (hfind : findCall? tokens.opening rest = some (head, name, tail))
    (hclose : Text.matchClose? tokens.opening tokens.closing 0 0 tail = some (inner, after)) :
    ∃ hlt : ∀ arg ∈ tokens.arguments inner, arg.length < rest.length,
      extractCallsFrom tokens whole rest ctx =
        extractArguments tokens whole rest.length (tokens.arguments inner) hlt ctx >>= fun found =>
          let named := found.2.addSymbol (tokens.call name found.1) true
          extractCallsFrom tokens whole after named.2 >>= fun result =>
            .ok (head ++ named.1 ++ result.1, result.2) := by
  have hfound := length_of_findCall? hfind
  have hmatched := Text.length_of_matchClose? hclose
  refine ⟨fun arg harg => (tokens.length_le_of_mem_arguments harg).trans_lt
    (hmatched.1.trans_lt hfound), ?_⟩
  rw [extractCallsFrom]
  split
  · next hnone => cases hfind.symm.trans hnone
  · next hsome =>
    cases hfind.symm.trans hsome
    split
    · next hnone => cases hclose.symm.trans hnone
    · next hsome =>
      cases hclose.symm.trans hsome
      dsimp only
      cases extractArguments tokens whole rest.length (tokens.arguments inner) _ ctx with
      | error fault => rfl
      | ok found =>
        dsimp only [ok_bind]
        cases extractCallsFrom tokens whole after _ <;> rfl

end Search

/-- What calls are taken out of: a text, or arguments that become operands. -/
inductive Job where
  | search (rest : Text)
  | arguments (args : List Text)

/-- Taking the calls out, with the text or the operands that are left. -/
inductive Takes (tokens : CallTokens) : Job → Context → List Text → Context → Prop
  | done {rest : Text} {ctx : Context} (hfind : findCall? tokens.opening rest = none) :
      Takes tokens (.search rest) ctx [rest] ctx
  | call {rest head name tail inner after text : Text} {operands : List Text}
      {ctx ctx₁ ctx' : Context}
      (hfind : findCall? tokens.opening rest = some (head, name, tail))
      (hclose : Text.matchClose? tokens.opening tokens.closing 0 0 tail = some (inner, after))
      (hargs : Takes tokens (.arguments (tokens.arguments inner)) ctx operands ctx₁)
      (hrest : Takes tokens (.search after)
        (ctx₁.addSymbol (tokens.call name operands) true).2 [text] ctx') :
      Takes tokens (.search rest) ctx
        [head ++ (ctx₁.addSymbol (tokens.call name operands) true).1 ++ text] ctx'
  | nil (ctx : Context) : Takes tokens (.arguments []) ctx [] ctx
  | plain {arg text : Text} {args operands : List Text} {ctx ctx₁ ctx' : Context}
      (harg : Takes tokens (.search arg) ctx [text] ctx₁) (hne : text ≠ [])
      (hplain : tokens.isPlain text = true)
      (hrest : Takes tokens (.arguments args) ctx₁ operands ctx') :
      Takes tokens (.arguments (arg :: args)) ctx (text :: operands) ctx'
  | named {arg text : Text} {args operands : List Text} {ctx ctx₁ ctx' : Context}
      (harg : Takes tokens (.search arg) ctx [text] ctx₁) (hne : text ≠ [])
      (hplain : tokens.isPlain text = false)
      (hrest : Takes tokens (.arguments args) (ctx₁.addSymbol text false).2 operands ctx') :
      Takes tokens (.arguments (arg :: args)) ctx ((ctx₁.addSymbol text false).1 :: operands) ctx'

mutual

theorem takes_extractCallsFrom {tokens : CallTokens} {whole rest text : Text} {ctx ctx' : Context}
    (h : extractCallsFrom tokens whole rest ctx = .ok (text, ctx')) :
    Takes tokens (.search rest) ctx [text] ctx' := by
  rw [extractCallsFrom] at h
  split at h
  · next hfind =>
    obtain ⟨rfl, rfl⟩ := Prod.mk.inj (Except.ok.inj h)
    exact .done hfind
  · next head name tail hfind =>
    split at h
    · cases h
    · next inner after hclose =>
      have hfound := length_of_findCall? hfind
      have hmatched := Text.length_of_matchClose? hclose
      dsimp only at h
      split at h
      · cases h
      · next operands ctx₁ hargs =>
        split at h
        · cases h
        · next text' ctx₂ hrest =>
          obtain ⟨rfl, rfl⟩ := Prod.mk.inj (Except.ok.inj h)
          exact .call hfind hclose (takes_extractArguments hargs) (takes_extractCallsFrom hrest)
termination_by (rest.length + 1, 0)
decreasing_by
  all_goals
    first
      | exact Prod.Lex.left _ _ (Nat.lt_succ_self _)
      | exact Prod.Lex.left _ _ (by omega)

theorem takes_extractArguments {tokens : CallTokens} {whole : Text} {bound : Nat}
    {args operands : List Text} {hargs : ∀ arg ∈ args, arg.length < bound} {ctx ctx' : Context}
    (h : extractArguments tokens whole bound args hargs ctx = .ok (operands, ctx')) :
    Takes tokens (.arguments args) ctx operands ctx' := by
  match args with
  | [] =>
    rw [extractArguments] at h
    obtain ⟨rfl, rfl⟩ := Prod.mk.inj (Except.ok.inj h)
    exact .nil ctx
  | arg :: rest =>
    have hlt := hargs arg (List.mem_cons_self ..)
    rw [extractArguments] at h
    dsimp only at h
    split at h
    · cases h
    · next text ctx₁ harg =>
      split at h
      · cases h
      · next hne =>
        split at h
        · cases h
        · next operands' ctx₂ hrest =>
          obtain ⟨rfl, rfl⟩ := Prod.mk.inj (Except.ok.inj h)
          cases hplain : tokens.isPlain text with
          | true =>
            rw [hplain, if_pos rfl] at hrest
            rw [if_pos rfl]
            exact .plain (takes_extractCallsFrom harg) hne hplain (takes_extractArguments hrest)
          | false =>
            rw [hplain, if_neg Bool.false_ne_true] at hrest
            rw [if_neg Bool.false_ne_true]
            exact .named (takes_extractCallsFrom harg) hne hplain (takes_extractArguments hrest)
termination_by (bound, args.length)
decreasing_by
  · rcases Nat.lt_or_eq_of_le (Nat.succ_le_of_lt hlt) with hlt | heq
    · exact Prod.Lex.left _ _ hlt
    · rw [← heq]
      exact Prod.Lex.right _ (by simp)
  · exact Prod.Lex.right _ (by simp)
  · rcases Nat.lt_or_eq_of_le (Nat.succ_le_of_lt hlt) with hlt | heq
    · exact Prod.Lex.left _ _ hlt
    · rw [← heq]
      exact Prod.Lex.right _ (by simp)
  · exact Prod.Lex.right _ (by simp)

end

theorem takes_extractCalls {tokens : CallTokens} {rest text : Text} {ctx ctx' : Context}
    (h : ctx.extractCalls tokens rest = .ok (text, ctx')) :
    Takes tokens (.search rest) ctx [text] ctx' :=
  takes_extractCallsFrom h

/-- What adding a symbol keeps is kept by taking calls out. -/
theorem Takes.preserves {P : Context → Prop}
    (hadd : ∀ (ctx : Context) text isCall, P ctx → P (ctx.addSymbol text isCall).2)
    {tokens : CallTokens} {job : Job} {results : List Text} {ctx ctx' : Context}
    (h : Takes tokens job ctx results ctx') (hctx : P ctx) : P ctx' := by
  induction h with
  | done | nil => exact hctx
  | call _ _ _ _ ihargs ihrest => exact ihrest (hadd _ _ _ (ihargs hctx))
  | plain _ _ _ _ iharg ihrest => exact ihrest (iharg hctx)
  | named _ _ _ _ iharg ihrest => exact ihrest (hadd _ _ _ (iharg hctx))

/-! ### Groups -/

/-- Taking the groups out of a text. A group around a known name gives way to the name. -/
inductive Flattens (opening closing : Text) : Text → Context → Text → Context → Prop
  | done {text : Text} {ctx : Context} (hopen : Text.cutLast? opening text = none)
      (hclose : Text.contains closing text = false) : Flattens opening closing text ctx text ctx
  | known {text before tail inner rest text' : Text} {ctx ctx' : Context}
      (hopen : Text.cutLast? opening text = some (before, tail))
      (hclose : Text.cut? closing tail = some (inner, rest)) (hne : inner ≠ [])
      (hknown : ctx.isKnown inner = true)
      (h : Flattens opening closing (before ++ inner ++ rest) ctx text' ctx') :
      Flattens opening closing text ctx text' ctx'
  | group {text before tail inner rest text' : Text} {ctx ctx' : Context}
      (hopen : Text.cutLast? opening text = some (before, tail))
      (hclose : Text.cut? closing tail = some (inner, rest)) (hne : inner ≠ [])
      (hknown : ctx.isKnown inner = false)
      (h : Flattens opening closing (before ++ (ctx.addSymbol inner false).1 ++ rest)
        (ctx.addSymbol inner false).2 text' ctx') :
      Flattens opening closing text ctx text' ctx'

theorem flattens_flatten? {opening closing text text' : Text} {ctx ctx' : Context}
    (h : flatten? opening closing text ctx = some (.ok (text', ctx'))) :
    Flattens opening closing text ctx text' ctx' := by
  -- what holds of the results of the rest of the loop holds of those of the whole
  refine flatten?.partial_correctness opening closing
    (fun text ctx r => ∀ text' ctx', r = .ok (text', ctx') →
      Flattens opening closing text ctx text' ctx') ?_ text ctx _ h text' ctx' rfl
  rintro loop ih text ctx r h text' ctx' rfl
  cases hopen : Text.cutLast? opening text with
  | none =>
    simp only [flattenStep, hopen, Option.map_none, Option.some.injEq] at h
    split at h
    · cases h
    · next hclose =>
      obtain ⟨rfl, rfl⟩ := Prod.mk.inj (Except.ok.inj h)
      exact .done hopen (Bool.eq_false_of_not_eq_true hclose)
  | some parts =>
    obtain ⟨before, tail⟩ := parts
    cases hclose : Text.cut? closing tail with
    | none => simp [flattenStep, hopen, hclose] at h
    | some parts =>
      obtain ⟨inner, rest⟩ := parts
      by_cases hne : inner = []
      · simp [flattenStep, hopen, hclose, hne] at h
      · cases hknown : ctx.isKnown inner with
        | true =>
          simp only [flattenStep, hopen, hclose, hne, hknown, Option.map_some, if_true,
            if_false] at h
          exact .known hopen hclose hne hknown (ih _ _ _ h _ _ rfl)
        | false =>
          simp only [flattenStep, hopen, hclose, hne, hknown, Option.map_some, if_false,
            Bool.false_eq_true] at h
          exact .group hopen hclose hne hknown (ih _ _ _ h _ _ rfl)

theorem flattens_flattenText {opening closing text text' : Text} {ctx ctx' : Context}
    (h : flattenText opening closing text ctx = .ok (text', ctx')) :
    Flattens opening closing text ctx text' ctx' := by
  rw [flattenText] at h
  cases hflat : flatten? opening closing text ctx with
  | none =>
    rw [hflat] at h
    cases h
  | some r =>
    rw [hflat] at h
    exact flattens_flatten? (hflat.trans (congrArg some h))

/-- Taking the groups out of the symbols with given names, in turn. -/
inductive FlattensAll (opening closing : Text) : List Text → Context → Context → Prop
  | nil (ctx : Context) : FlattensAll opening closing [] ctx ctx
  | skip {key : Text} {keys : List Text} {ctx ctx' : Context} (hkey : ctx.symbol? key = none)
      (h : FlattensAll opening closing keys ctx ctx') :
      FlattensAll opening closing (key :: keys) ctx ctx'
  | symbol {key text : Text} {keys : List Text} {symbol : Symbol} {ctx ctx₁ ctx' : Context}
      (hkey : ctx.symbol? key = some symbol)
      (hflat : Flattens opening closing symbol.text ctx text ctx₁)
      (h : FlattensAll opening closing keys (ctx₁.setText key text) ctx') :
      FlattensAll opening closing (key :: keys) ctx ctx'

theorem flattensAll_flattenSymbols {opening closing : Text} {keys : List Text} {ctx ctx' : Context}
    (h : flattenSymbols opening closing keys ctx = .ok ctx') :
    FlattensAll opening closing keys ctx ctx' := by
  induction keys generalizing ctx with
  | nil =>
    obtain rfl := Except.ok.inj h
    exact .nil ctx
  | cons key keys ih =>
    rw [flattenSymbols] at h
    split at h
    · next hkey => exact .skip hkey (ih h)
    · next symbol hkey =>
      split at h
      · cases h
      · next hflat => exact .symbol hkey (flattens_flattenText hflat) (ih h)

theorem Flattens.preserves {P : Context → Prop}
    (hadd : ∀ (ctx : Context) text, P ctx → P (ctx.addSymbol text false).2)
    {opening closing text text' : Text} {ctx ctx' : Context}
    (h : Flattens opening closing text ctx text' ctx') (hctx : P ctx) : P ctx' := by
  induction h with
  | done => exact hctx
  | known _ _ _ _ _ ih => exact ih hctx
  | group _ _ _ _ _ ih => exact ih (hadd _ _ hctx)

/-- What adding a symbol and changing the text of one keep is kept by taking groups out. -/
theorem FlattensAll.preserves {P : Context → Prop}
    (hadd : ∀ (ctx : Context) text, P ctx → P (ctx.addSymbol text false).2)
    (hset : ∀ (ctx : Context) key text, P ctx → P (ctx.setText key text))
    {opening closing : Text} {keys : List Text} {ctx ctx' : Context}
    (h : FlattensAll opening closing keys ctx ctx') (hctx : P ctx) : P ctx' := by
  induction h with
  | nil => exact hctx
  | skip _ _ ih => exact ih hctx
  | symbol _ hflat _ ih => exact ih (hset _ _ _ (hflat.preserves hadd hctx))

end Formula.Context
