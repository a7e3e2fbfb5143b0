import Formula.Expression
import Formula.Proofs.Compile.Ordering
import Formula.Proofs.Source.Parameters
import Formula.Proofs.Text.Pieces

/-!
# White space between tokens

White space is dropped before anything but string literals is looked for, but the source is asked
again later: a generated name must not occur in it, and the names of parameters are looked for in it
with the white space in place. Both questions are settled by the words of the source. So in a source
without string literals nothing counts but its words and its text without white space, and white
space that does not part two characters of names changes neither.

Two sources that agree in this way are compiled in step: at every stage the tables differ in nothing
but the source.

## Main definitions

* `Context.withSource`: the tables as they are for another source.
* `Context.SameNames`: two sources that hold the same generated names.

## Main results

* `Context.pass_withSource`, `Context.extractCallsFrom_withSource`,
  `Context.flattenGroups_withSource`, `Context.populate_withSource`: the stages in step.
* `Compiler.compile_congr`: nothing counts but the words and the text without white space.
* `Compiler.expression_spaced`: white space between tokens does not count.
-/

namespace Formula

open Text

namespace Context

/-- The tables as they are for another source, with names looked for in another text. -/
def withSource (source unquoted : Text) (ctx : Context) : Context :=
  { ctx with source, unquoted }

/-- Two sources hold the same generated names. -/
def SameNames (source source' : Text) : Prop :=
  ∀ n, Text.contains (generatedName n) source = Text.contains (generatedName n) source'

theorem SameNames.symm {source source' : Text} (h : SameNames source source') :
    SameNames source' source :=
  fun n => (h n).symm

/-- Sources with the same words hold the same generated names. -/
theorem sameNames_of_words_eq {source source' : Text} (h : words source = words source') :
    SameNames source source' := by
  intro n
  have hname : ∀ c ∈ generatedName n, isIdentifierChar c = true := fun c hc =>
    isIdentifierChar_of_isWordChar (Sorted.isWordChar_of_mem_generatedName hc)
  have hne : generatedName n ≠ [] := by simp [generatedName]
  rw [contains_eq_any_words hne hname, contains_eq_any_words hne hname, h]

/-! ### Fresh names -/

/-- The search for a free name ends at the first one, however long it may go on. -/
theorem freshNumber_congr {ctx ctx' : Context}
    (htaken : ∀ n, ctx.isTaken (generatedName n) = ctx'.isTaken (generatedName n))
    {bound bound' n : Nat} (h : ctx.isTaken (generatedName (ctx.freshNumber bound n)) = false)
    (h' : ctx'.isTaken (generatedName (ctx'.freshNumber bound' n)) = false) :
    ctx.freshNumber bound n = ctx'.freshNumber bound' n := by
  have hstep (ctx : Context) (bound n : Nat) : ctx.freshNumber (bound + 1) n =
      if ctx.isTaken (generatedName (n + 1)) then ctx.freshNumber bound (n + 1) else n + 1 := rfl
  induction bound generalizing bound' n with
  | zero =>
    have hfree : ctx.isTaken (generatedName (n + 1)) = false := h
    cases bound' with
    | zero => rfl
    | succ bound' =>
      rw [hstep, ← htaken, hfree]
      rfl
  | succ bound ih =>
    cases bound' with
    | zero =>
      have hfree : ctx'.isTaken (generatedName (n + 1)) = false := h'
      rw [hstep, htaken, hfree]
      rfl
    | succ bound' =>
      have hnext := htaken (n + 1)
      rw [hstep] at h h' ⊢
      rw [hstep]
      cases hvalue : ctx'.isTaken (generatedName (n + 1)) with
      | false =>
        rw [hnext, hvalue]
        rfl
      | true =>
        rw [hvalue] at hnext h'
        rw [hnext] at h ⊢
        exact ih h h'

section WithSource

variable {source unquoted : Text} {ctx : Context} (h : SameNames ctx.source source)
include h

theorem freshName_withSource : (ctx.withSource source unquoted).freshName =
    Prod.map id (withSource source unquoted) ctx.freshName := by
  have htaken (n : Nat) : ctx.isTaken (generatedName n) =
      (ctx.withSource source unquoted).isTaken (generatedName n) :=
    congrArg (· || ctx.isKnown (generatedName n)) (h n)
  have hnumber : ctx.freshNumber ctx.takenBound ctx.counter =
      (ctx.withSource source unquoted).freshNumber (ctx.withSource source unquoted).takenBound
        (ctx.withSource source unquoted).counter :=
    freshNumber_congr htaken ctx.freshName_free (ctx.withSource source unquoted).freshName_free
  simp only [freshName]
  rw [← hnumber]
  rfl

theorem intern_withSource (value : Value) (text : Text) :
    (ctx.withSource source unquoted).intern value text =
      Prod.map id (withSource source unquoted) (ctx.intern value text) := by
  have hliterals : (ctx.withSource source unquoted).literals = ctx.literals := rfl
  rw [intern, intern, hliterals]
  cases ctx.literals.lookup text with
  | some name => rfl
  | none =>
    dsimp only
    rw [freshName_withSource h]
    rfl

theorem addSymbol_withSource (text : Text) (isCall : Bool) :
    (ctx.withSource source unquoted).addSymbol text isCall =
      Prod.map id (withSource source unquoted) (ctx.addSymbol text isCall) := by
  rw [addSymbol, addSymbol, freshName_withSource h]
  rfl

end WithSource

@[simp]
theorem source_addSymbol (ctx : Context) (text : Text) (isCall : Bool) :
    (ctx.addSymbol text isCall).2.source = ctx.source := rfl

@[simp]
theorem unquoted_withSource (ctx : Context) (source unquoted : Text) :
    (ctx.withSource source unquoted).unquoted = unquoted := rfl

@[simp]
theorem isKnown_withSource (ctx : Context) (source unquoted key : Text) :
    (ctx.withSource source unquoted).isKnown key = ctx.isKnown key := rfl

/-! ### The stages in step -/

section Stages

variable {source unquoted : Text} {ctx : Context} (h : SameNames ctx.source source)

include h in
theorem pass_withSource (scan : Nat → Text → Nat → Extraction) (count : Nat) (text : Text)
    (offset : Nat) : pass scan count text offset (ctx.withSource source unquoted) =
      Prod.map id (withSource source unquoted) (pass scan count text offset ctx) := by
  fun_induction pass scan count text offset ctx with
  | case1 count text offset ctx hle hscan => rw [pass, dif_pos hle, hscan]; rfl
  | case2 count text offset ctx hle place hscan hnone =>
    rw [pass, dif_pos hle, hscan]
    dsimp only
    split
    · rfl
    · next hsome => cases hnone.symm.trans hsome
  | case3 count text offset ctx hle place hscan next hnext ih =>
    rw [pass, dif_pos hle, hscan]
    dsimp only
    split
    · next hnone => cases hnext.symm.trans hnone
    · next hsome =>
      obtain rfl := Option.some.inj (hnext.symm.trans hsome)
      exact ih h
  | case4 count text offset ctx hle first last value hscan hplace hslice =>
    rw [pass, dif_pos hle, hscan]
    dsimp only
    rw [dif_pos hplace]
    split
    · rfl
    · next hsome =>
      rw [hslice] at hsome
      cases hsome
  | case5 count text offset ctx hle first last value hscan hplace before literal rest hslice _ named
      ih =>
    rw [pass, dif_pos hle, hscan]
    dsimp only
    rw [dif_pos hplace]
    split
    · next hnone =>
      rw [hslice] at hnone
      cases hnone
    · next hsome =>
      obtain ⟨rfl, hparts⟩ := Prod.mk.inj (Option.some.inj (hslice.symm.trans hsome))
      obtain ⟨rfl, rfl⟩ := Prod.mk.inj hparts
      rw [intern_withSource h]
      exact ih (by rwa [source_intern])
  | case6 count text offset ctx hle first last value hscan hplace =>
    rw [pass, dif_pos hle, hscan]
    exact dif_neg hplace
  | case7 count text offset ctx hgt => rw [pass, dif_neg hgt]; rfl

end Stages


/-! ### Calls and groups -/

/-- The source of the tables does not change while calls are taken out. -/
theorem source_extractCallsFrom {tokens : CallTokens} {whole rest text : Text} {ctx ctx' : Context}
    (h : extractCallsFrom tokens whole rest ctx = .ok (text, ctx')) : ctx'.source = ctx.source :=
  (takes_extractCallsFrom h).preserves (P := fun c => c.source = ctx.source)
    (fun _ _ _ h => h) rfl

theorem source_extractArguments {tokens : CallTokens} {whole : Text} {bound : Nat}
    {args operands : List Text} {hargs : ∀ arg ∈ args, arg.length < bound} {ctx ctx' : Context}
    (h : extractArguments tokens whole bound args hargs ctx = .ok (operands, ctx')) :
    ctx'.source = ctx.source :=
  (takes_extractArguments h).preserves (P := fun c => c.source = ctx.source)
    (fun _ _ _ h => h) rfl

mutual

theorem extractCallsFrom_withSource {source : Text} (unquoted : Text) (tokens : CallTokens)
    (whole rest : Text) {ctx : Context} (h : SameNames ctx.source source) :
    extractCallsFrom tokens whole rest (ctx.withSource source unquoted) =
      (extractCallsFrom tokens whole rest ctx).map (Prod.map id (withSource source unquoted)) := by
  cases hfind : findCall? tokens.opening rest with
  | none =>
    rw [extractCallsFrom_done hfind, extractCallsFrom_done hfind]
    rfl
  | some found =>
    obtain ⟨head, name, tail⟩ := found
    cases hclose : Text.matchClose? tokens.opening tokens.closing 0 0 tail with
    | none =>
      rw [extractCallsFrom_unclosed hfind hclose, extractCallsFrom_unclosed hfind hclose]
      rfl
    | some parts =>
      obtain ⟨inner, after⟩ := parts
      have hfound := length_of_findCall? hfind
      have hmatched := Text.length_of_matchClose? hclose
      obtain ⟨hlt, hcall⟩ := extractCallsFrom_call whole ctx hfind hclose
      obtain ⟨hlt', hcall'⟩ := extractCallsFrom_call whole (ctx.withSource source unquoted) hfind
        hclose
      rw [hcall, hcall', extractArguments_withSource unquoted tokens whole rest.length _ hlt h]
      cases hargs : extractArguments tokens whole rest.length (tokens.arguments inner) hlt ctx with
      | error fault => rfl
      | ok operands =>
        have hsource := source_extractArguments hargs
        dsimp only [Except.map, ok_bind, Prod.map, id_eq]
        rw [addSymbol_withSource (by rwa [hsource])]
        dsimp only [Prod.map, id_eq]
        rw [extractCallsFrom_withSource unquoted tokens whole after
          (by rwa [source_addSymbol, hsource])]
        cases extractCallsFrom tokens whole after _ <;> rfl
termination_by (rest.length + 1, 0)
decreasing_by
  all_goals
    first
      | exact Prod.Lex.left _ _ (Nat.lt_succ_self _)
      | exact Prod.Lex.left _ _ (by omega)

theorem extractArguments_withSource {source : Text} (unquoted : Text) (tokens : CallTokens)
    (whole : Text) (bound : Nat) (args : List Text) (hargs : ∀ arg ∈ args, arg.length < bound)
    {ctx : Context} (h : SameNames ctx.source source) :
    extractArguments tokens whole bound args hargs (ctx.withSource source unquoted) =
      (extractArguments tokens whole bound args hargs ctx).map
        (Prod.map id (withSource source unquoted)) := by
  match args with
  | [] =>
    rw [extractArguments, extractArguments]
    rfl
  | arg :: rest =>
    have hlt := hargs arg (List.mem_cons_self ..)
    rw [extractArguments, extractArguments, extractCallsFrom_withSource unquoted tokens arg arg h]
    cases harg : extractCallsFrom tokens arg arg ctx with
    | error fault => rfl
    | ok found =>
      obtain ⟨text, ctx₁⟩ := found
      have hsource := source_extractCallsFrom harg
      dsimp only [Except.map, Prod.map, id]
      split
      · rfl
      · have hnamed : (if tokens.isPlain text then (text, ctx₁.withSource source unquoted)
            else (ctx₁.withSource source unquoted).addSymbol text false) =
              Prod.map id (withSource source unquoted)
                (if tokens.isPlain text then (text, ctx₁) else ctx₁.addSymbol text false) := by
          split
          · rfl
          · exact addSymbol_withSource (by rwa [hsource]) ..
        have hsource' : (if tokens.isPlain text then (text, ctx₁)
            else ctx₁.addSymbol text false).2.source = ctx.source := by
          split <;> exact hsource
        rw [hnamed]
        dsimp only [Prod.map]
        rw [extractArguments_withSource unquoted tokens whole bound rest
          (fun a ha => hargs a (List.mem_cons_of_mem _ ha)) (by rwa [hsource'])]
        cases extractArguments tokens whole bound rest _ _ <;> rfl
termination_by (bound, args.length)
decreasing_by
  · rcases Nat.lt_or_eq_of_le (Nat.succ_le_of_lt hlt) with hlt | heq
    · exact Prod.Lex.left _ _ hlt
    · rw [← heq]
      exact Prod.Lex.right _ (by simp)
  · exact Prod.Lex.right _ (by simp)

end

theorem flattenStep_withSource {source : Text} (unquoted : Text) (opening closing text : Text)
    {ctx : Context} (h : SameNames ctx.source source) :
    flattenStep opening closing text (ctx.withSource source unquoted) =
      (flattenStep opening closing text ctx).map
        (Except.map (Prod.map id (withSource source unquoted))) := by
  rw [flattenStep, flattenStep, Option.map_map]
  congr 1
  funext found
  obtain ⟨before, tail⟩ := found
  dsimp only [Function.comp_apply]
  cases Text.cut? closing tail with
  | none => rfl
  | some parts =>
    obtain ⟨inner, rest⟩ := parts
    dsimp only
    split
    · rfl
    · rw [isKnown_withSource, addSymbol_withSource h]
      split <;> rfl

/-- The source of the tables does not change while a group is taken out. -/
theorem source_flattenStep {opening closing text text' : Text} {ctx ctx' : Context}
    (h : flattenStep opening closing text ctx = some (.ok (text', ctx'))) :
    ctx'.source = ctx.source := by
  obtain ⟨⟨before, tail⟩, -, h⟩ := Option.map_eq_some_iff.mp h
  dsimp only at h
  split at h
  · cases h
  · split at h
    · cases h
    · obtain ⟨-, rfl⟩ := Prod.mk.inj (Except.ok.inj h)
      split <;> rfl

theorem flatten?_withSource_of_some {source : Text} (unquoted : Text) {opening closing text : Text}
    {ctx : Context} (h : SameNames ctx.source source) {r : Except CompileFault (Text × Context)}
    (hflat : flatten? opening closing text ctx = some r) :
    flatten? opening closing text (ctx.withSource source unquoted) =
      some (r.map (Prod.map id (withSource source unquoted))) := by
  -- what the rest of the loop does in step, the whole loop does in step
  refine flatten?.partial_correctness opening closing
    (fun text ctx r => SameNames ctx.source source →
      flatten? opening closing text (ctx.withSource source unquoted) =
        some (r.map (Prod.map id (withSource source unquoted)))) ?_ text ctx r hflat h
  rintro loop ih text ctx r hr h
  rw [flatten?, flattenStep_withSource unquoted opening closing text h]
  cases hstep : flattenStep opening closing text ctx with
  | none =>
    rw [hstep] at hr
    obtain rfl := Option.some.inj hr
    dsimp only [Option.map]
    split <;> rfl
  | some outcome =>
    rw [hstep] at hr
    cases outcome with
    | error fault =>
      obtain rfl := Option.some.inj hr
      rfl
    | ok found =>
      obtain ⟨text', ctx'⟩ := found
      exact ih _ _ _ hr (by rwa [source_flattenStep hstep])

theorem flattenText_withSource {source : Text} (unquoted : Text) (opening closing text : Text)
    {ctx : Context} (h : SameNames ctx.source source) :
    flattenText opening closing text (ctx.withSource source unquoted) =
      (flattenText opening closing text ctx).map (Prod.map id (withSource source unquoted)) := by
  rw [flattenText, flattenText]
  cases hflat : flatten? opening closing text ctx with
  | some r =>
    rw [flatten?_withSource_of_some unquoted h hflat]
    rfl
  | none =>
    cases hflat' : flatten? opening closing text (ctx.withSource source unquoted) with
    | none => rfl
    | some r =>
      have hback := @flatten?_withSource_of_some ctx.source ctx.unquoted _ _ _ _ h.symm _ hflat'
      rw [show (ctx.withSource source unquoted).withSource ctx.source ctx.unquoted = ctx from rfl,
        hflat] at hback
      cases hback

theorem source_flattenText {opening closing text text' : Text} {ctx ctx' : Context}
    (h : flattenText opening closing text ctx = .ok (text', ctx')) : ctx'.source = ctx.source :=
  (flattens_flattenText h).preserves (P := fun c => c.source = ctx.source) (fun _ _ h => h) rfl

theorem flattenSymbols_withSource {source : Text} (unquoted : Text) (opening closing : Text)
    (keys : List Text) {ctx : Context} (h : SameNames ctx.source source) :
    flattenSymbols opening closing keys (ctx.withSource source unquoted) =
      (flattenSymbols opening closing keys ctx).map (withSource source unquoted) := by
  induction keys generalizing ctx with
  | nil => rfl
  | cons key keys ih =>
    have hsymbol : (ctx.withSource source unquoted).symbol? key = ctx.symbol? key := rfl
    rw [flattenSymbols, flattenSymbols, hsymbol]
    cases ctx.symbol? key with
    | none => exact ih h
    | some symbol =>
      dsimp only
      rw [flattenText_withSource unquoted opening closing symbol.text h]
      cases hflat : flattenText opening closing symbol.text ctx with
      | error fault => rfl
      | ok found =>
        obtain ⟨text', ctx'⟩ := found
        have hsource : ctx'.source = ctx.source := source_flattenText hflat
        have hset : (ctx'.setText key text').source = ctx.source := hsource
        exact ih (by rwa [hset])

theorem flattenGroups_withSource {source : Text} (unquoted : Text) (opening closing : Text)
    {ctx : Context} (h : SameNames ctx.source source) :
    (ctx.withSource source unquoted).flattenGroups opening closing =
      (ctx.flattenGroups opening closing).map (withSource source unquoted) :=
  flattenSymbols_withSource unquoted opening closing _ h

/-! ### Operands -/

/-- What the operands leave in the tables: the names of the literals, and the parameters. -/
def sorted (result : List (Nat × Text) × Context) : Context :=
  { result.2 with params := orderedParameters result.1 }

/-- Two texts with the same words find the same identifiers. -/
theorem isSome_firstWord?_congr {name text text' : Text} (hwords : words text = words text')
    (hname : Text.isIdentifier name = true) :
    (Text.firstWord? name text).isSome = (Text.firstWord? name text').isSome := by
  have hfound {text text' : Text} (hwords : words text = words text')
      (h : (Text.firstWord? name text).isSome = true) :
      (Text.firstWord? name text').isSome = true := by
    obtain ⟨place, hplace⟩ := Option.isSome_iff_exists.mp h
    obtain ⟨place', hplace'⟩ :=
      exists_firstWord?_of_mem_words hname (hwords ▸ mem_words_of_firstWord? hname hplace)
    rw [hplace']
    rfl
  exact Bool.eq_iff_iff.mpr ⟨hfound hwords, hfound hwords.symm⟩

/-- The places of the parameters may differ, but not what is left in the tables. -/
theorem classify_withSource {source unquoted : Text} (registry : Registry) (operands : List Text)
    {found found' : List (Nat × Text)} {ctx : Context} (h : SameNames ctx.source source)
    (hwords : words ctx.unquoted = words unquoted) (hfound : Found ctx.unquoted [] found)
    (hfound' : Found unquoted [] found') (hnames : found.map Prod.snd = found'.map Prod.snd) :
    (classify registry operands found' (ctx.withSource source unquoted)).map sorted =
      ((classify registry operands found ctx).map sorted).map (withSource source unquoted) := by
  induction operands generalizing found found' ctx with
  | nil =>
    have hparams : orderedParameters found' = orderedParameters found :=
      (orderedParameters_congr hwords hnames hfound.distinct hfound.identifier hfound.word
        hfound'.word).symm
    simp only [classify, Except.map, sorted, hparams]
    rfl
  | cons operand rest ih =>
    have hany (found : List (Nat × Text)) : (found.any fun entry => entry.2 == operand) =
        (found.map Prod.snd).contains operand := by
      rw [List.contains_eq_any_beq, List.any_map]
      congr 1
      funext entry
      exact BEq.comm
    have hseen : ((ctx.withSource source unquoted).isKnown operand ||
        found'.any fun entry => entry.2 == operand) =
          (ctx.isKnown operand || found.any fun entry => entry.2 == operand) := by
      rw [isKnown_withSource, hany, hany, hnames]
    rw [classify, classify, hseen]
    split
    · exact ih h hwords hfound hfound' hnames
    · next hnew =>
      rw [Bool.not_eq_true, Bool.or_eq_false_iff] at hnew
      have hnew' : (found'.any fun entry => entry.2 == operand) = false := by
        rw [hany, ← hnames, ← hany, hnew.2]
      cases hparse : Literal.parse registry operand with
      | mk value cancelled =>
      let asked : Context := { ctx with cancelled := ctx.cancelled || cancelled }
      have hasked : SameNames asked.source source := h
      dsimp only
      cases value with
      | some value =>
        have hintern : ((asked.withSource source unquoted).intern value operand).2 =
            (asked.intern value operand).2.withSource source unquoted :=
          congrArg Prod.snd (intern_withSource hasked value operand)
        have hkept : SameNames (asked.intern value operand).2.source source := by
          rwa [source_intern]
        have hnext := ih hkept (by rwa [unquoted_intern]) (by rwa [unquoted_intern]) hfound' hnames
        rw [← hintern] at hnext
        exact hnext
      | none =>
        -- an operand that is no identifier is refused, whether it is found or not
        cases hidentifier : Text.isIdentifier operand with
        | false =>
          simp only [Bool.false_eq_true, if_false]
          split <;> split <;> rfl
        | true =>
          have hsome := isSome_firstWord?_congr hwords hidentifier
          cases hplace : Text.firstWord? operand ctx.unquoted with
          | none =>
            rw [hplace, Option.isSome_none] at hsome
            have hplace' := Option.isNone_iff_eq_none.mp (Option.isSome_eq_false_iff.mp hsome.symm)
            simp only [unquoted_withSource, hplace']
            rfl
          | some place =>
            rw [hplace, Option.isSome_some] at hsome
            obtain ⟨place', hplace'⟩ := Option.isSome_iff_exists.mp hsome.symm
            simp only [unquoted_withSource, hplace', if_true]
            refine ih hasked hwords
              (hfound.append hplace hidentifier (List.not_mem_nil) hnew.2)
              (hfound'.append hplace' hidentifier (List.not_mem_nil) hnew') ?_
            rw [List.map_append, List.map_append, hnames]
            rfl

/-- What is left in the tables when the operands are sorted out. -/
theorem populate_withSource {source unquoted : Text} (tokens : CallTokens) (registry : Registry)
    {ctx : Context} (h : SameNames ctx.source source)
    (hwords : words ctx.unquoted = words unquoted) :
    (ctx.withSource source unquoted).populate tokens registry =
      (ctx.populate tokens registry).map (withSource source unquoted) := by
  have hempty (unquoted : Text) : Found unquoted [] [] := ⟨by simp, by simp, by simp, by simp⟩
  rw [populate_eq, populate_eq]
  have hmarked : SameNames (ctx.markSymbols tokens.markers).source source := h
  exact classify_withSource registry _ hmarked hwords
    (hempty _) (hempty _) rfl

end Context

/-! ### The tree -/

namespace TreeBuilder

variable (t : TreeBuilder) (ctx : Context)

theorem firstSuccess_withContext (text : Text) (ways : List (BuildM Node)) :
    firstSuccess { t with context := ctx } text ways = t.firstSuccess text ways := by
  induction ways with
  | nil => rfl
  | cons way ways ih =>
    rw [firstSuccess, firstSuccess, ih]
    rfl

/-- A text is split in the same way, whatever the names in it stand for. -/
theorem buildComposite_withContext (build : Text → BuildM Node) (text : Text) :
    buildComposite { t with context := ctx } build text = t.buildComposite build text := by
  rw [buildComposite, buildComposite]
  simp only [firstSuccess_withContext]
  rfl

/-- The tree is built from the names alone. -/
theorem buildWithin_withSource (source unquoted : Text) (depth : Nat) :
    buildWithin { t with context := t.context.withSource source unquoted } depth =
      t.buildWithin depth := by
  induction depth with
  | zero => rfl
  | succ depth ih =>
    funext key
    rw [buildWithin, buildWithin, ih, buildStep, buildStep, buildComposite_withContext]
    rfl

end TreeBuilder

namespace Compiler

theorem buildTree_withSource (c : Compiler) (ctx : Context) (source unquoted : Text) :
    c.buildTree (ctx.withSource source unquoted) = c.buildTree ctx := by
  have hbuild : (TreeBuilder.ofDefinition c.definition c.tokens c.registry
      (ctx.withSource source unquoted)).build Context.mainName =
        (TreeBuilder.ofDefinition c.definition c.tokens c.registry ctx).build Context.mainName :=
    congrFun (TreeBuilder.buildWithin_withSource
      (TreeBuilder.ofDefinition c.definition c.tokens c.registry ctx) source unquoted _) _
  rw [buildTree, buildTree]
  dsimp only
  rw [hbuild]
  rfl

theorem resolve_withSource {source unquoted : Text} (c : Compiler) (text : Text) {ctx : Context}
    (h : Context.SameNames ctx.source source) (hwords : words ctx.unquoted = words unquoted) :
    c.resolve text (ctx.withSource source unquoted) =
      (c.resolve text ctx).map (Context.withSource source unquoted) := by
  let start : Context := { ctx with symbols := (Context.mainName, ⟨text, false⟩) :: ctx.symbols }
  by_cases hne : text = []
  · rw [resolve, resolve, if_pos hne, if_pos hne]
    rfl
  have hcheck : check (ctx.withSource source unquoted) = check ctx := rfl
  have hstart : Context.SameNames start.source source := h
  rw [resolve, resolve, if_neg hne, if_neg hne, hcheck]
  cases check ctx with
  | error fault => rfl
  | ok =>
    change (start.withSource source unquoted).extractCalls c.tokens text >>= _ =
      (start.extractCalls c.tokens text >>= _).map _
    rw [Context.extractCalls, Context.extractCalls,
      Context.extractCallsFrom_withSource unquoted c.tokens text text hstart]
    cases hcalls : Context.extractCallsFrom c.tokens text text start with
    | error fault => rfl
    | ok found =>
      have htakes : Context.Takes c.tokens (.search text) start [found.1] found.2 :=
        Context.takes_extractCallsFrom hcalls
      have horigin : found.2.source = ctx.source ∧ found.2.unquoted = ctx.unquoted :=
        htakes.preserves (P := fun c => c.source = ctx.source ∧ c.unquoted = ctx.unquoted) (fun _ _ _ h => h)
          ⟨rfl, rfl⟩
      let named := found.2.setText Context.mainName found.1
      have hnamed : Context.SameNames named.source source :=
        (show named.source = ctx.source from horigin.1) ▸ h
      change (named.withSource source unquoted).flattenGroups c.tokens.opening c.tokens.closing >>= _ =
        (named.flattenGroups c.tokens.opening c.tokens.closing >>= _).map _
      rw [Context.flattenGroups_withSource unquoted c.tokens.opening c.tokens.closing hnamed]
      cases hgroups : named.flattenGroups c.tokens.opening c.tokens.closing with
      | error fault => rfl
      | ok flat =>
        have hflat : flat.source = ctx.source ∧ flat.unquoted = ctx.unquoted :=
          (Context.flattensAll_flattenSymbols hgroups).preserves
            (P := fun c => c.source = ctx.source ∧ c.unquoted = ctx.unquoted) (fun _ _ h => h)
            (fun _ _ _ h => h) horigin
        exact Context.populate_withSource c.tokens c.registry (by rwa [hflat.1]) (by rwa [hflat.2])

/-- A source without string literals is compiled by its words and by its text without white space:
nothing else in it counts. -/
theorem compile_congr (style : Precedence) {source source' : Text} (hquote : '"' ∉ source)
    (hquote' : '"' ∉ source') (hwords : words source = words source')
    (hblanks : withoutBlanks source = withoutBlanks source') :
    (common style).compile source' false = (common style).compile source false := by
  have hnames := Context.sameNames_of_words_eq hwords
  have hliterals : (Context.start source').extractLiterals (common style).definition
      (common style).registry = Prod.map id (Context.withSource source' source')
        ((Context.start source).extractLiterals (common style).definition
          (common style).registry) := by
    refine (Context.extractLiterals_unquoted style hquote').trans ?_
    refine Eq.trans ?_ (congrArg _ (Context.extractLiterals_unquoted style hquote).symm)
    have hstart : Context.start source' = (Context.start source).withSource source' source' := rfl
    rw [← hblanks, hstart, Context.pass_withSource hnames]
    exact Context.pass_withSource (by
      rwa [Context.pass_preserves (P := fun c => c.source = source)
        (fun _ _ _ h => (Context.source_intern ..).trans h) _ _ _ _ rfl]) _ _ _ _
  have horigin : ((Context.start source).extractLiterals (common style).definition
      (common style).registry).2.source = source ∧ ((Context.start source).extractLiterals
        (common style).definition (common style).registry).2.unquoted = source := by
    rw [show (Context.start source).extractLiterals (common style).definition
      (common style).registry = _ from Context.extractLiterals_unquoted style hquote]
    have hintern (ctx : Context) (value : Value) (text : Text)
        (h : ctx.source = source ∧ ctx.unquoted = source) :
        (ctx.intern value text).2.source = source ∧ (ctx.intern value text).2.unquoted = source := by
      rwa [Context.source_intern, Context.unquoted_intern]
    exact Context.pass_preserves hintern _ _ _ _ (Context.pass_preserves hintern _ _ _ _ ⟨rfl, rfl⟩)
  rw [compile, compile]
  dsimp only
  rw [hliterals]
  generalize (Context.start source).extractLiterals (common style).definition
    (common style).registry = found at horigin ⊢
  have hresolve : (common style).resolve found.1 (found.2.withSource source' source') =
      ((common style).resolve found.1 found.2).map (Context.withSource source' source') :=
    resolve_withSource (common style) found.1 (by rwa [horigin.1]) (by rwa [horigin.2])
  simp only [Bool.false_eq_true, if_false, Prod.map_fst, Prod.map_snd, id_eq, hresolve]
  cases (common style).resolve found.1 found.2 with
  | error fault => rfl
  | ok ctx =>
    dsimp only [Except.map]
    rw [buildTree_withSource]
    rfl

end Compiler

/-! ### The outcome of an evaluation -/

theorem Expression.program_source (e : Expression) (source : String) (body : Body)
    (types : List ValueType) (tolerance : Option Tolerance) :
    program { e with source } body types tolerance =
      (e.program body types tolerance).map fun result =>
        (result.1, result.2.1, { result.2.2 with source }) := by
  rw [program, program]
  dsimp only
  split
  · cases lower body types _ <;> rfl
  · split
    · rfl
    · cases lower body types _ <;> rfl

/-- The source has no part in the outcome of an evaluation. -/
theorem Expression.outcome_evaluate_source (e : Expression) (source : String) (draws : Draws)
    (args : List Value) (tolerance : Option Tolerance) :
    (evaluate { e with source } draws args tolerance).outcome =
      (e.evaluate draws args tolerance).outcome := by
  have hbody : ({ e with source } : Expression).body = e.body := rfl
  rw [evaluate, evaluate, hbody]
  split
  · rfl
  · next body _ =>
    split
    · rfl
    · split
      · rfl
      · cases coerceAll e.registry body.params args with
        | error fault => rfl
        | ok args =>
          dsimp only
          rw [program_source]
          cases e.program body (args.map Value.type) tolerance <;> rfl

/-! ### White space between tokens -/

/-- White space that does not part two characters of names parts no word. -/
theorem Text.words_spaced {u v blanks : Text}
    (hbetween : ¬(u.getLast?.any isIdentifierChar = true ∧ v.head?.any isIdentifierChar = true))
    (hblanks : ∀ c ∈ blanks, isBlank c = true) : words (u ++ blanks ++ v) = words (u ++ v) := by
  have hedge : (∀ c ∈ u.getLast?, isIdentifierChar c = false) ∨
      ∀ c ∈ v.head?, isIdentifierChar c = false := by
    rcases not_and_or.mp hbetween with h | h
    · refine .inl fun c hc => ?_
      simpa [Option.mem_def.mp hc] using h
    · refine .inr fun c hc => ?_
      simpa [Option.mem_def.mp hc] using h
  by_cases hne : blanks = []
  · rw [hne, List.append_nil]
  have hblank (c : Char) (hc : c ∈ blanks) : isIdentifierChar c = false :=
    isIdentifierChar_of_isBlank (hblanks c hc)
  have hright : words (blanks ++ v) = words v := by
    rw [words_append (.inl fun c hc => hblank c (List.mem_of_getLast? hc)), words_blanks hblanks,
      List.nil_append]
  have hhead : ∀ c ∈ (blanks ++ v).head?, isIdentifierChar c = false := by
    obtain ⟨d, blanks, rfl⟩ := List.exists_cons_of_ne_nil hne
    rintro c ⟨⟩
    exact hblank d (List.mem_cons_self ..)
  rw [List.append_assoc, words_append (.inr hhead), hright, words_append hedge]

namespace Compiler

/-- White space between tokens does not count: where a source has no string literal, and the place is
not between two characters of names, any white space gives the same expression, with another
source. -/
theorem expression_spaced (style : Precedence) {u v blanks : Text} (hquote : '"' ∉ u ++ v)
    (hbetween : ¬(u.getLast?.any isIdentifierChar = true ∧ v.head?.any isIdentifierChar = true))
    (hblanks : ∀ c ∈ blanks, isBlank c = true) :
    let e := (common style).expression (String.ofList (u ++ v))
    let spaced := (common style).expression (String.ofList (u ++ blanks ++ v))
    spaced = { e with source := String.ofList (u ++ blanks ++ v) } ∧
      ∀ draws args tolerance, (spaced.evaluate draws args tolerance).outcome =
        (e.evaluate draws args tolerance).outcome := by
  have hquote' : '"' ∉ u ++ blanks ++ v := by
    simp only [List.mem_append, not_or] at hquote ⊢
    exact ⟨⟨hquote.1, fun h => absurd (hblanks _ h) (by decide)⟩, hquote.2⟩
  have hstripped : withoutBlanks (u ++ v) = withoutBlanks (u ++ blanks ++ v) := by
    rw [withoutBlanks_append, withoutBlanks_append, withoutBlanks_append,
      withoutBlanks_eq_nil.mpr hblanks, List.append_nil]
  have hcompile := compile_congr style hquote hquote' (words_spaced hbetween hblanks).symm hstripped
  have heq : (common style).expression (String.ofList (u ++ blanks ++ v)) =
      { (common style).expression (String.ofList (u ++ v)) with
        source := String.ofList (u ++ blanks ++ v) } := by
    rw [expression, expression, String.toList_ofList, String.toList_ofList, hcompile]
    rfl
  refine ⟨heq, fun draws args tolerance => ?_⟩
  rw [heq, Expression.outcome_evaluate_source]

/-- A blank in front of the operator of `x+y` does not count. -/
theorem expression_spaced_sum :
    ('"' ∉ ['x'] ++ ['+', 'y'] ∧
      ¬(['x'].getLast?.any isIdentifierChar = true ∧
        ['+', 'y'].head?.any isIdentifierChar = true) ∧ ∀ c ∈ [' '], isBlank c = true) ∧
    (common .mathematical).expression "x +y" =
      { (common .mathematical).expression "x+y" with source := "x +y" } := by
  have hquote : '"' ∉ ['x'] ++ ['+', 'y'] := by decide
  have hbetween : ¬(['x'].getLast?.any isIdentifierChar = true ∧
      ['+', 'y'].head?.any isIdentifierChar = true) := by decide
  have hblanks : ∀ c ∈ [' '], isBlank c = true := List.all_eq_true.mp rfl
  exact ⟨⟨hquote, hbetween, hblanks⟩,
    (expression_spaced .mathematical hquote hbetween hblanks).1⟩

end Compiler

end Formula
