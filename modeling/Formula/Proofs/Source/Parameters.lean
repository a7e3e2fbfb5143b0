import Mathlib.Data.List.Nodup
import Formula.Proofs.Compile.ChainBuilding
import Formula.Proofs.Compile.Memo
import Formula.Proofs.Source.Stages

/-!
# Parameters come from the source

An operand that is neither known nor a literal is the name of a parameter if it is found as a whole
word where names are looked for: in the source with names for its string literals. As long as no
string literal touches a name or another string literal, these words are the words of the source
outside its string literals, and the names put in for the literals. The latter are known. So every
parameter is named by a word of the source outside its string literals, and holds no generated name,
because no generated name occurs in the source.

A string literal that does touch a name is glued to it: `x"y"` has a parameter that holds a generated
name.

## Main definitions

* `Context.generatedNames`: the names generated for literals and parts of the text.
* `Context.Sourced`: what every stage keeps of the source.
* `Context.Found`: what is known of the parameters found.
* `Compiler.Resolves`: the tables that a source is resolved to.

## Main results

* `Context.classify_found`: the operands that become parameters.
* `Compiler.Resolves.found`: the parameters of a source.
* `Compiler.parameter_mem_words`: every parameter is a word of the source.
* `Compiler.parameter_glued`: a string literal that touches a name is glued to it.
-/

namespace Formula

namespace Context

/-! ### What the stages keep -/

/-- The names generated for literals and for parts of the text. -/
def generatedNames (ctx : Context) : List Text :=
  ctx.literals.map Prod.snd ++ (ctx.symbols.map Prod.fst).filter (· ≠ mainName)

/-- The source, the text in which names are looked for, and names of literals. No generated name
occurs in the source, and the names of literals stand for constants. -/
structure Sourced (source unquoted : Text) (names : List Text) (ctx : Context) : Prop where
  source_eq : ctx.source = source
  unquoted_eq : ctx.unquoted = unquoted
  fresh : ∀ name ∈ ctx.generatedNames,
    Text.contains name source = false ∧ ∃ n, name = generatedName n
  names : ∀ name ∈ names, name ∈ ctx.literals.map Prod.snd
  constants : ∀ name ∈ ctx.literals.map Prod.snd, name ∈ ctx.constants.map Prod.fst

theorem contains_freshName (ctx : Context) :
    Text.contains ctx.freshName.1 ctx.source = false ∧ ∃ n, ctx.freshName.1 = generatedName n := by
  have hfree := ctx.freshName_free
  rw [isTaken, Bool.or_eq_false_iff] at hfree
  exact ⟨hfree.1, _, rfl⟩

namespace Sourced

variable {source unquoted : Text} {names : List Text} {ctx : Context}

theorem intern (h : Sourced source unquoted names ctx) (value : Value) (text : Text) :
    Sourced source unquoted names (ctx.intern value text).2 := by
  rw [Context.intern]
  split
  · exact h
  · have hfresh := h.source_eq ▸ contains_freshName ctx
    refine ⟨h.source_eq, h.unquoted_eq, ?_, fun name hname => List.mem_cons_of_mem _ (h.names name hname),
      fun name hname => ?_⟩
    · intro name hname
      rcases List.mem_cons.mp hname with rfl | hname
      · exact hfresh
      · exact h.fresh name hname
    · rcases List.mem_cons.mp hname with rfl | hname
      · exact List.mem_cons_self ..
      · exact List.mem_cons_of_mem _ (h.constants name hname)

theorem addSymbol (h : Sourced source unquoted names ctx) (text : Text) (isCall : Bool) :
    Sourced source unquoted names (ctx.addSymbol text isCall).2 := by
  have hfresh := h.source_eq ▸ contains_freshName ctx
  refine ⟨h.source_eq, h.unquoted_eq, fun name hname => ?_, h.names, h.constants⟩
  rcases List.mem_append.mp hname with hname | hname
  · exact h.fresh name (List.mem_append_left _ hname)
  · obtain ⟨hmem, hne⟩ := List.mem_filter.mp hname
    rcases List.mem_cons.mp hmem with rfl | hmem
    · exact hfresh
    · exact h.fresh name (List.mem_append_right _ (List.mem_filter.mpr ⟨hmem, hne⟩))

theorem setText (h : Sourced source unquoted names ctx) (key text : Text) :
    Sourced source unquoted names (ctx.setText key text) := by
  refine ⟨h.source_eq, h.unquoted_eq, fun name hname => h.fresh name ?_, h.names, h.constants⟩
  simpa [generatedNames, Context.setText, Function.comp_def] using hname

theorem markSymbols (h : Sourced source unquoted names ctx) (markers : Markers) :
    Sourced source unquoted names (ctx.markSymbols markers) := by
  refine ⟨h.source_eq, h.unquoted_eq, fun name hname => h.fresh name ?_, h.names, h.constants⟩
  simpa [generatedNames, Context.markSymbols, Function.comp_def] using hname

end Sourced

/-! ### The operands that become parameters -/

/-- The parameters found so far, with their places: each is an identifier and a whole word where names
are looked for, none is one of some known names, and none is there twice. -/
structure Found (unquoted : Text) (names : List Text) (found : List (Nat × Text)) : Prop where
  word : ∀ entry ∈ found, Text.firstWord? entry.2 unquoted = some entry.1
  identifier : ∀ entry ∈ found, Text.isIdentifier entry.2 = true
  unknown : ∀ entry ∈ found, entry.2 ∉ names
  distinct : (found.map Prod.snd).Nodup

theorem Found.append {unquoted name : Text} {names : List Text} {found : List (Nat × Text)}
    {place : Nat} (h : Found unquoted names found)
    (hplace : Text.firstWord? name unquoted = some place)
    (hidentifier : Text.isIdentifier name = true) (hunknown : name ∉ names)
    (hnew : (found.any fun entry => entry.2 == name) = false) :
    Found unquoted names (found ++ [(place, name)]) := by
  refine ⟨?_, ?_, ?_, ?_⟩
  · exact List.forall_mem_append.mpr ⟨h.word, List.forall_mem_singleton.mpr hplace⟩
  · exact List.forall_mem_append.mpr ⟨h.identifier, List.forall_mem_singleton.mpr hidentifier⟩
  · exact List.forall_mem_append.mpr ⟨h.unknown, List.forall_mem_singleton.mpr hunknown⟩
  · rw [List.map_append, List.map_singleton, List.nodup_append]
    refine ⟨h.distinct, List.nodup_singleton _, fun a ha b hb => ?_⟩
    obtain rfl := List.mem_singleton.mp hb
    rintro rfl
    obtain ⟨entry, hentry, rfl⟩ := List.mem_map.mp ha
    exact absurd hnew (by simpa using ⟨entry.1, hentry⟩)

theorem isKnown_of_mem {ctx : Context} {name : Text} (h : name ∈ ctx.constants.map Prod.fst) :
    ctx.isKnown name = true := by
  have hlookup : (ctx.constants.lookup name).isSome = true := by
    obtain ⟨entry, hentry, rfl⟩ := List.mem_map.mp h
    rw [List.lookup_isSome_iff]
    exact ⟨entry, hentry, beq_self_eq_true _⟩
  rw [isKnown, constant?, Option.isSome_or, hlookup]
  rfl

theorem classify_found {registry : Registry} {operands : List Text} {source unquoted : Text}
    {names : List Text} {found found' : List (Nat × Text)} {ctx ctx' : Context}
    (h : classify registry operands found ctx = .ok (found', ctx'))
    (hctx : Sourced source unquoted names ctx) (hfound : Found unquoted names found) :
    Sourced source unquoted names ctx' ∧ Found unquoted names found' := by
  induction operands generalizing found ctx with
  | nil =>
    obtain ⟨rfl, rfl⟩ := Prod.mk.inj (Except.ok.inj h)
    exact ⟨hctx, hfound⟩
  | cons operand rest ih =>
    rw [classify] at h
    split at h
    · exact ih h hctx hfound
    · next hnew =>
      rw [Bool.or_eq_true, not_or, Bool.not_eq_true, Bool.not_eq_true] at hnew
      dsimp only at h
      have hasked : Sourced source unquoted names
          { ctx with cancelled := ctx.cancelled || (Literal.parse registry operand).2 } :=
        ⟨hctx.source_eq, hctx.unquoted_eq, hctx.fresh, hctx.names, hctx.constants⟩
      split at h
      · exact ih h (hasked.intern _ _) hfound
      · split at h
        · next place hplace =>
          split at h
          · next hidentifier =>
            have hunknown : operand ∉ names := fun hmem => by
              rw [isKnown_of_mem (hctx.constants _ (hctx.names _ hmem))] at hnew
              exact absurd hnew.1 (by decide)
            exact ih h hasked
              (hfound.append (hctx.unquoted_eq ▸ hplace) hidentifier hunknown hnew.2)
          · cases h
        · cases h

/-- Sorting operands out brings no symbols. -/
theorem symbols_classify {registry : Registry} {operands : List Text} {found found' : List (Nat × Text)}
    {ctx ctx' : Context} (h : classify registry operands found ctx = .ok (found', ctx')) :
    ctx'.symbols = ctx.symbols := by
  induction operands generalizing found ctx with
  | nil =>
    obtain ⟨-, rfl⟩ := Prod.mk.inj (Except.ok.inj h)
    rfl
  | cons operand rest ih =>
    rw [classify] at h
    split at h
    · exact ih h
    · dsimp only at h
      split at h
      · exact (ih h).trans (symbols_intern ..)
      · split at h
        · split at h
          · exact (ih h).trans rfl
          · cases h
        · cases h

theorem classify_parameter {registry : Registry} {operand : Text} {rest : List Text}
    {found : List (Nat × Text)} {ctx : Context} {place : Nat} (hknown : ctx.isKnown operand = false)
    (hnew : (found.any fun entry => entry.2 == operand) = false)
    (hparse : Literal.parse registry operand = (none, false))
    (hplace : Text.firstWord? operand ctx.unquoted = some place)
    (hidentifier : Text.isIdentifier operand = true) :
    classify registry (operand :: rest) found ctx =
      classify registry rest (found ++ [(place, operand)]) ctx := by
  rw [classify, if_neg (by rw [hknown, hnew]; decide), hparse]
  dsimp only
  rw [hplace, Bool.or_false]
  exact if_pos hidentifier

theorem classify_known {registry : Registry} {operand : Text} {rest : List Text}
    {found : List (Nat × Text)} {ctx : Context} (hknown : ctx.isKnown operand = true) :
    classify registry (operand :: rest) found ctx = classify registry rest found ctx := by
  rw [classify, hknown, Bool.true_or, if_pos rfl]

theorem orderedParameters_singleton (place : Nat) (name : Text) :
    orderedParameters [(place, name)] = [⟨String.ofList name, TypeMask.all⟩] := by
  rw [orderedParameters, List.mergeSort_singleton]
  rfl

theorem mergeSort_pair {α : Type} (le : α → α → Bool) (a b : α) :
    [a, b].mergeSort le = if le a b then [a, b] else [b, a] := by
  simp [List.mergeSort, List.MergeSort.Internal.splitInTwo, List.merge]

/-- A scan that finds nothing ends a pass. -/
theorem pass_of_exhausted {scan : Nat → Text → Nat → Extraction} {text : Text}
    (h : scan 0 text 0 = .exhausted) (ctx : Context) : pass scan 0 text 0 ctx = (text, ctx) := by
  rw [pass, dif_pos (Nat.zero_le _), h]

end Context

namespace TreeBuilder

/-- A text is split at the first of its places if both sides are built and go together. -/
theorem run_buildComposite_split {t : TreeBuilder} {build : Text → BuildM Node} {text : Text}
    {s s₁ s₂ s₃ : BuildState} {split : Split} {splits : List Split} {left right node : Node}
    (hcall : t.splitCall? text = none) (hcandidates : t.candidates text = split :: splits)
    (hlimit : ¬maxSplits < s.splits + 1)
    (hleft : (build (text.take split.place)).run (spent s) = (.ok left, s₁))
    (hright : (build (text.drop (split.place + split.width))).run s₁ = (.ok right, s₂))
    (hassemble : (assemble (.binary split.op) [left, right]).run s₂ = (.ok node, s₃)) :
    (t.buildComposite build text).run s = (.ok (node.fold t.registry (t.plain text)), s₃) := by
  have hway : (splitWay build text split).run (spent s) = (.ok node, s₃) := by
    rw [splitWay, BuildM.run_bind, hleft]
    dsimp only
    rw [BuildM.run_bind, hright]
    exact hassemble
  rw [buildComposite, hcall, if_neg (by simp), binaryWays_eq_map, hcandidates, List.map_cons,
    firstSuccess, BuildM.run_bind, BuildM.run_bind, run_attempt_ok hlimit hway]
  rfl

/-- A text that is not remembered is built. -/
theorem run_remember_new {text : Text} {build : BuildM Node} {s s' : BuildState} {node : Node}
    (hnew : s.built[({ text, masks := s.masks } : BuildKey)]? = none)
    (hbuild : build.run s = (.ok node, s')) :
    ∃ built, (remember text build).run s = (.ok node, { s' with built }) := by
  rw [run_remember, hnew, hbuild]
  exact ⟨_, rfl⟩

end TreeBuilder

/-! ### The parameters of a source -/

namespace Compiler

/-- The tables that a source is resolved to. -/
def Resolves (c : Compiler) (source : Text) (ctx : Context) : Prop :=
  c.resolve ((Context.start source).extractLiterals c.definition c.registry).1
    ((Context.start source).extractLiterals c.definition c.registry).2 = .ok ctx

theorem delimiters_common (style : Precedence) : (common style).tokens.opening = ['('] ∧
    (common style).tokens.closing = [')'] ∧ (common style).tokens.separator = [','] := by
  cases style <;> decide

/-- The stages between the text without literals and the tables: calls are taken out, then groups, then
the operands are sorted out. -/
theorem exists_stages {c : Compiler} {text : Text} {ctx ctx' : Context}
    (h : c.resolve text ctx = .ok ctx') :
    text ≠ [] ∧ ∃ text₁ ctx₁ ctx₂ sorted,
      Context.Takes c.tokens (.search text)
        { ctx with symbols := (Context.mainName, ⟨text, false⟩) :: ctx.symbols } [text₁] ctx₁ ∧
      Context.FlattensAll c.tokens.opening c.tokens.closing
        (ctx₁.setText Context.mainName text₁).plainKeys (ctx₁.setText Context.mainName text₁) ctx₂ ∧
      Context.classify c.registry
        ((ctx₂.markSymbols c.tokens.markers).tableOperands c.tokens) []
        (ctx₂.markSymbols c.tokens.markers) = .ok sorted ∧
      ctx' = { sorted.2 with params := Context.orderedParameters sorted.1 } := by
  rw [resolve] at h
  split at h
  · cases h
  · next hne =>
    obtain ⟨-, -, h⟩ := bind_eq_ok_iff.mp h
    obtain ⟨⟨text₁, ctx₁⟩, hcalls, h⟩ := bind_eq_ok_iff.mp h
    obtain ⟨ctx₂, hgroups, h⟩ := bind_eq_ok_iff.mp h
    rw [Context.flattenGroups_eq] at hgroups
    rw [Context.populate_eq] at h
    cases hclassify : Context.classify c.registry
        ((ctx₂.markSymbols c.tokens.markers).tableOperands c.tokens) []
        (ctx₂.markSymbols c.tokens.markers) with
    | error fault =>
      rw [hclassify] at h
      cases h
    | ok sorted =>
      rw [hclassify] at h
      exact ⟨hne, text₁, ctx₁, ctx₂, sorted, Context.takes_extractCalls hcalls,
        Context.flattensAll_flattenSymbols hgroups, hclassify, (Except.ok.inj h).symm⟩

/-- A text that compiles is resolved to tables, and its parameters are named as those. -/
theorem exists_resolves {c : Compiler} {source : Text} {cancelled : Bool} {root : Node}
    {params : List Parameter} (h : (c.compile source cancelled).outcome = .ok (root, params)) :
    ∃ ctx, c.Resolves source ctx ∧ c.buildTree ctx = .ok (root, params) := by
  rw [compile] at h
  dsimp only at h
  split at h
  · cases h
  · split at h
    · cases h
    · split at h
      · cases h
      · next hresolve => exact ⟨_, hresolve, h⟩

/-- The literals of a source are taken out of it with nothing known but themselves. -/
theorem sourced_extractLiterals (style : Precedence) (source : Text) :
    Context.Sourced source (Context.takeStrings source (Context.start source)).1
      ((Context.takeStrings source (Context.start source)).2.literals.map Prod.snd)
      ((Context.start source).extractLiterals (common style).definition (common style).registry).2 := by
  have hstart : Context.Sourced source source [] (Context.start source) :=
    ⟨rfl, rfl, by simp [Context.generatedNames], by simp, by simp⟩
  have hstrings : Context.Sourced source source []
      (Context.takeStrings source (Context.start source)).2 :=
    Context.takeStrings_preserves (fun _ value text h => h.intern value text) source hstart
  rw [show ((Context.start source).extractLiterals (common style).definition
    (common style).registry) = _ from Context.extractLiterals_common style source]
  refine Context.pass_preserves (fun _ value text h => h.intern value text) _ _ _ _ ?_
  refine Context.pass_preserves (fun _ value text h => h.intern value text) _ _ _ _ ?_
  exact ⟨hstrings.source_eq, rfl, hstrings.fresh, fun _ hname => hname, hstrings.constants⟩

namespace Resolves

variable {style : Precedence} {source : Text} {ctx : Context}

/-- The parameters of a source are found among its operands. -/
theorem found (h : (common style).Resolves source ctx) :
    Context.Sourced source (Context.takeStrings source (Context.start source)).1
        ((Context.takeStrings source (Context.start source)).2.literals.map Prod.snd) ctx ∧
      ∃ found, ctx.params = Context.orderedParameters found ∧
        Context.Found (Context.takeStrings source (Context.start source)).1
          ((Context.takeStrings source (Context.start source)).2.literals.map Prod.snd) found := by
  obtain ⟨-, text₁, ctx₁, ctx₂, sorted, hcalls, hgroups, hclassify, rfl⟩ := exists_stages h
  have hliterals := sourced_extractLiterals style source
  have hmain : Context.Sourced source (Context.takeStrings source (Context.start source)).1
      ((Context.takeStrings source (Context.start source)).2.literals.map Prod.snd) ctx₁ :=
    hcalls.preserves (fun _ text isCall h => h.addSymbol text isCall)
      ⟨hliterals.source_eq, hliterals.unquoted_eq, fun name hname => hliterals.fresh name (by
        simpa [Context.generatedNames] using hname), hliterals.names, hliterals.constants⟩
  have hflat := hgroups.preserves (fun _ text h => h.addSymbol text false)
    (fun _ key text h => h.setText key text) (hmain.setText Context.mainName text₁)
  obtain ⟨hkept, hfound⟩ := Context.classify_found hclassify (hflat.markSymbols _)
    ⟨by simp, by simp, by simp, by simp⟩
  exact ⟨⟨hkept.source_eq, hkept.unquoted_eq, hkept.fresh, hkept.names, hkept.constants⟩, sorted.1,
    rfl, hfound⟩

end Resolves

/-- Every parameter comes from the source. If no string literal touches a name or another string
literal, a parameter is an identifier that is a whole word of the source outside its string literals,
and no generated name is part of it. -/
theorem parameter_mem_words {style : Precedence} {source : Text} {cancelled : Bool} {root : Node}
    {params : List Parameter}
    (h : ((common style).compile source cancelled).outcome = .ok (root, params))
    (hapart : Source.QuotesApart (Source.outside source)) :
    ∃ ctx, (common style).Resolves source ctx ∧ ∀ p ∈ params,
      Text.isIdentifier p.name.toList = true ∧
        p.name.toList ∈ Text.words (Source.outside source) ∧
        ∀ name ∈ ctx.generatedNames, Text.contains name p.name.toList = false := by
  obtain ⟨ctx, hresolves, hbuild⟩ := exists_resolves h
  obtain ⟨hsourced, found, hparams, hfound⟩ := hresolves.found
  refine ⟨ctx, hresolves, fun p hp => ?_⟩
  obtain ⟨entry, hentry, hname⟩ : ∃ entry ∈ found, entry.2 = p.name.toList := by
    have hmem : p.name ∈ ctx.params.map Parameter.name :=
      (derives_of_buildTree hbuild).1 ▸ List.mem_map_of_mem hp
    obtain ⟨q, hq, hqname⟩ := List.mem_map.mp hmem
    obtain ⟨entry, hentry, heq⟩ :=
      List.mem_map.mp (Context.mem_orderedParameters.mp (hparams ▸ hq)).2
    exact ⟨entry, hentry, heq.trans (congrArg String.toList hqname)⟩
  have hidentifier : Text.isIdentifier p.name.toList = true := hname ▸ hfound.identifier entry hentry
  have hmem : p.name.toList ∈ Text.words (Source.outside source) := by
    have hword := Text.mem_words_of_firstWord? hidentifier (hname ▸ hfound.word entry hentry)
    have hunknown := hname ▸ hfound.unknown entry hentry
    have hkept : p.name.toList ∈ (Text.words (Source.outside source)).filter fun word =>
        decide (word ∉ (Context.takeStrings source (Context.start source)).2.literals.map
          Prod.snd) := by
      rw [← (Context.fills_takeStrings source (Context.start source)).filter_words hapart]
      · exact List.mem_filter.mpr ⟨hword, decide_eq_true hunknown⟩
      · intro name hname
        obtain ⟨-, n, rfl⟩ := hsourced.fresh name (List.mem_append_left _ (hsourced.names name hname))
        exact ⟨by simp [Context.generatedName], fun c hc =>
          Text.isIdentifierChar_of_isWordChar (Context.Sorted.isWordChar_of_mem_generatedName hc)⟩
      · intro name hname
        exact decide_eq_false (not_not_intro hname)
    exact List.mem_of_mem_filter hkept
  refine ⟨hidentifier, hmem, fun name hgenerated => ?_⟩
  obtain ⟨before, rest, houtside, -⟩ := Text.exists_of_mem_words hmem
  have hquote : '"' ∉ p.name.toList := fun hquote =>
    absurd ((Text.isIdentifierChar_of_isIdentifier hidentifier).2 _ hquote) (by decide)
  obtain ⟨before, rest, hsource⟩ := Text.contains_iff.mp
    (Source.contains_of_contains_outside hquote (Text.contains_iff.mpr ⟨before, rest, houtside⟩))
  by_contra hcontains
  obtain ⟨u, v, huv⟩ := Text.contains_iff.mp (Bool.not_eq_false _ ▸ hcontains)
  have hfresh := (hsourced.fresh name hgenerated).1
  rw [Text.contains_iff.mpr ⟨before ++ u, v ++ rest, by rw [hsource, huv]; simp⟩] at hfresh
  cases hfresh

/-! ### Strings and names -/

/-- From a source without brackets, numbers and white space, only the strings are taken out. -/
theorem extractLiterals_of_strings {style : Precedence} {source text : Text} {ctx : Context}
    (hstrings : Context.takeStrings source (Context.start source) = (text, ctx))
    (hblanks : Text.withoutBlanks text = text) (hbracket : '[' ∉ text)
    (hnumbers : Extractor.scanNumber text 0 = .exhausted) :
    (Context.start source).extractLiterals (common style).definition (common style).registry =
      (text, { ctx with unquoted := text }) := by
  have hscan (ctx : Context) :
      Context.pass (fun _ => Extractor.scanSymbol { precedence := style }) 0 text 0 ctx = (text, ctx) :=
    Context.pass_of_exhausted
      (Extractor.scanSymbol_eq_exhausted (c := '[') (by simp) hbracket 0) ctx
  refine (Context.extractLiterals_common style source).trans ?_
  rw [hstrings]
  dsimp only
  rw [hblanks, hscan, Context.pass_of_exhausted hnumbers]

/-- A source without parentheses whose literals are strings, with the tables it is resolved to. -/
theorem resolves_of_strings {style : Precedence} {source text : Text} {ctx : Context}
    {operands : List Text} {found : List (Nat × Text)} {params : List Parameter}
    (hstrings : Context.takeStrings source (Context.start source) = (text, ctx))
    (hblanks : Text.withoutBlanks text = text) (hne : text ≠ [])
    (hbracket : '[' ∉ text) (hopen : '(' ∉ text) (hclose : ')' ∉ text)
    (hnumbers : Extractor.scanNumber text 0 = .exhausted) (hcancelled : ctx.cancelled = false)
    (hsymbols : ctx.symbols = [])
    (hmark : Markers.common.mark text = text) (hoperands : Markers.common.operands text = operands)
    (hclassify : Context.classify Registry.standard operands []
      { ctx with unquoted := text, symbols := [(Context.mainName, ⟨text, false⟩)] } =
        .ok (found, { ctx with unquoted := text, symbols := [(Context.mainName, ⟨text, false⟩)] }))
    (hparams : Context.orderedParameters found = params) :
    (common style).Resolves source
      { ctx with unquoted := text, symbols := [(Context.mainName, ⟨text, false⟩)], params } := by
  rw [Resolves, extractLiterals_of_strings hstrings hblanks hbracket hnumbers]
  dsimp only
  refine Eq.trans (resolve_flat hne hopen hclose ?_ ?_) ?_
  · exact hcancelled
  · exact hsymbols
  rw [Context.populate_eq]
  have hmarked : ({ ctx with unquoted := text, symbols := [(Context.mainName, ⟨text, false⟩)] } :
      Context).markSymbols (common style).tokens.markers =
        { ctx with unquoted := text, symbols := [(Context.mainName, ⟨text, false⟩)] } := by
    change ({ ctx with unquoted := text, symbols :=
      [(Context.mainName, ⟨Markers.common.mark text, false⟩)] } : Context) = _
    rw [hmark]
  have htable : ({ ctx with unquoted := text, symbols := [(Context.mainName, ⟨text, false⟩)] } :
      Context).tableOperands (common style).tokens = operands := by
    rw [Context.tableOperands, Context.sortedSymbols, List.mergeSort_singleton, ← hoperands]
    exact List.append_nil _
  rw [hmarked, htable, hclassify, ← hparams]
  rfl

/-- The tables of the text `x="y"`. -/
def comparisonTables : Context :=
  { ((Context.start "x=\"y\"".toList).intern (.string "y") "\"y\"".toList).2 with
    unquoted := "x=item0001".toList
    symbols := [(Context.mainName, ⟨"x=item0001".toList, false⟩)]
    params := [⟨"x", TypeMask.all⟩] }

theorem resolves_comparison :
    (common .mathematical).Resolves "x=\"y\"".toList comparisonTables := by
  have hfirst : Source.firstString? "x=\"y\"".toList =
      some ⟨['x', '='], "\"y\"".toList, ['y'], []⟩ := by rfl
  have hstrings : Context.takeStrings "x=\"y\"".toList (Context.start "x=\"y\"".toList) =
      ("x=item0001".toList,
        ((Context.start "x=\"y\"".toList).intern (.string "y") "\"y\"".toList).2) := by
    rw [Context.takeStrings_of_some hfirst, Context.takeStrings_of_none rfl]
    exact congrArg (·, _) (by decide)
  have hoperands : Markers.common.operands "x=item0001".toList = [['x'], "item0001".toList] := by
    decide
  have hplace : Text.firstWord? ['x'] "x=item0001".toList = some 0 := by decide
  refine resolves_of_strings hstrings (by decide) (by decide) (by decide) (by decide)
    (by decide) (by decide) rfl rfl (by decide) hoperands ?_
    (Context.orderedParameters_singleton 0 ['x'])
  rw [Context.classify_parameter (by decide) rfl (by decide) hplace (by decide),
    Context.classify_known (by decide)]
  rfl

/-- A text that can be split between two operands that go together is built. -/
theorem exists_buildTree_of_split {style : Precedence} {ctx : Context} (text : Text) (depth : Nat)
    (split : TreeBuilder.Split) (left right : Node) (hcancelled : ctx.cancelled = false)
    {t : TreeBuilder} (ht : t = TreeBuilder.ofDefinition (common style).definition
      (common style).tokens (common style).registry ctx)
    (hrun : (t.build Context.mainName).run { params := ctx.params } =
      (TreeBuilder.remember text (t.buildComposite (t.buildWithin depth) text)).run
        { params := ctx.params })
    (hcall : t.splitCall? text = none) (hcandidates : t.candidates text = [split])
    (hleft : (t.buildWithin depth (text.take split.place)).run
        (TreeBuilder.spent { params := ctx.params }) =
      (.ok left, TreeBuilder.spent { params := ctx.params }))
    (hright : (t.buildWithin depth (text.drop (split.place + split.width))).run
        (TreeBuilder.spent { params := ctx.params }) =
      (.ok right, TreeBuilder.spent { params := ctx.params }))
    (hassembled : (((TreeBuilder.assemble (.binary split.op) [left, right]).run
      (TreeBuilder.spent { params := ctx.params })).1.toOption.any fun node =>
        ((node.fold t.registry (t.plain text)).refresh
          ((TreeBuilder.assemble (.binary split.op) [left, right]).run
            (TreeBuilder.spent { params := ctx.params })).2.params).2.isNone) = true) :
    ∃ root params, (common style).buildTree ctx = .ok (root, params) := by
  have hlimit : ¬maxSplits < ({ params := ctx.params } : BuildState).splits + 1 :=
    show ¬maxSplits < 0 + 1 by decide
  cases hassemble : (TreeBuilder.assemble (.binary split.op) [left, right]).run
      (TreeBuilder.spent { params := ctx.params }) with
  | mk outcome s =>
  rw [hassemble] at hassembled
  cases outcome with
  | error fault => cases hassembled
  | ok node =>
    have hbuild :=
      TreeBuilder.run_buildComposite_split hcall hcandidates hlimit hleft hright hassemble
    obtain ⟨built, hremember⟩ :=
      TreeBuilder.run_remember_new (by exact Std.HashMap.getElem?_empty) hbuild
    rw [buildTree_eq hcancelled, ← ht, hrun.trans hremember]
    dsimp only
    split
    · exact ⟨_, _, rfl⟩
    · next hrefresh =>
      have hfine : ((node.fold t.registry (t.plain text)).refresh s.params).2.isNone = true :=
        hassembled
      rw [hrefresh] at hfine
      cases hfine

theorem buildTree_comparison :
    ∃ root params, (common .mathematical).buildTree comparisonTables = .ok (root, params) := by
  let t := TreeBuilder.ofDefinition (common .mathematical).definition (common .mathematical).tokens
    (common .mathematical).registry comparisonTables
  have hplain : t.plain "x=item0001".toList = "x=item0001" := by decide
  have hcandidates : t.candidates "x=item0001".toList = [⟨.compare .eq, 0, 1, 1⟩] :=
    (TreeBuilder.candidates_of_inner (by decide)).trans (List.mergeSort_singleton _)
  refine exists_buildTree_of_split "x=item0001".toList 22 ⟨.compare .eq, 0, 1, 1⟩ (.parameter 0)
    (.constant (.string "y") "\"y\"") rfl (t := t) rfl rfl (by decide) hcandidates rfl rfl ?_
  rw [hplain]
  decide +kernel

/-- In the text `x="y"` the string stands apart, and the parameter is a word of it. -/
theorem parameter_mem_words_comparison :
    Source.QuotesApart (Source.outside "x=\"y\"".toList) ∧
      ∃ root params, ((common .mathematical).compile "x=\"y\"".toList false).outcome =
          .ok (root, params) ∧ params.map Parameter.name = ["x"] ∧
        ∃ ctx, (common .mathematical).Resolves "x=\"y\"".toList ctx ∧ ∀ p ∈ params,
          Text.isIdentifier p.name.toList = true ∧
            p.name.toList ∈ Text.words (Source.outside "x=\"y\"".toList) ∧
            ∀ name ∈ ctx.generatedNames, Text.contains name p.name.toList = false := by
  have hfirst : Source.firstString? "x=\"y\"".toList =
      some ⟨['x', '='], "\"y\"".toList, ['y'], []⟩ := by rfl
  have hapart : Source.QuotesApart (Source.outside "x=\"y\"".toList) := by
    rw [Source.outside_of_some hfirst, Source.outside_of_none rfl]
    decide
  obtain ⟨root, params, hbuild⟩ := buildTree_comparison
  have hcompile := (outcome_compile rfl resolves_comparison).trans hbuild
  exact ⟨hapart, root, params, hcompile, (derives_of_buildTree hbuild).1, parameter_mem_words hcompile hapart⟩

/-- The tables of the text `x"y"`. -/
def gluedTables : Context :=
  { ((Context.start "x\"y\"".toList).intern (.string "y") "\"y\"".toList).2 with
    unquoted := "xitem0001".toList
    symbols := [(Context.mainName, ⟨"xitem0001".toList, false⟩)]
    params := [⟨"xitem0001", TypeMask.all⟩] }

theorem resolves_glued : (common .mathematical).Resolves "x\"y\"".toList gluedTables := by
  have hfirst : Source.firstString? "x\"y\"".toList =
      some ⟨['x'], "\"y\"".toList, ['y'], []⟩ := by rfl
  have hstrings : Context.takeStrings "x\"y\"".toList (Context.start "x\"y\"".toList) =
      ("xitem0001".toList,
        ((Context.start "x\"y\"".toList).intern (.string "y") "\"y\"".toList).2) := by
    rw [Context.takeStrings_of_some hfirst, Context.takeStrings_of_none rfl]
    exact congrArg (·, _) (by decide)
  have hoperands : Markers.common.operands "xitem0001".toList = ["xitem0001".toList] := by
    decide
  have hplace : Text.firstWord? "xitem0001".toList "xitem0001".toList = some 0 := by decide
  refine resolves_of_strings hstrings (by decide) (by decide) (by decide) (by decide)
    (by decide) (by decide) rfl rfl (by decide) hoperands ?_
    (Context.orderedParameters_singleton 0 "xitem0001".toList)
  rw [Context.classify_parameter (by decide) rfl (by decide) hplace (by decide)]
  rfl

/-- A string literal that touches a name is glued to it: the text `x"y"` has a parameter that is no
word of it, and a generated name is part of that parameter. -/
theorem parameter_glued :
    ∃ root params, ((common .mathematical).compile "x\"y\"".toList false).outcome =
        .ok (root, params) ∧ params.map Parameter.name = ["xitem0001"] ∧
      "xitem0001".toList ∉ Text.words (Source.outside "x\"y\"".toList) ∧
      ∃ ctx, (common .mathematical).Resolves "x\"y\"".toList ctx ∧
        ∃ name ∈ ctx.generatedNames, Text.contains name "xitem0001".toList = true := by
  have hfirst : Source.firstString? "x\"y\"".toList =
      some ⟨['x'], "\"y\"".toList, ['y'], []⟩ := by rfl
  have hwords : "xitem0001".toList ∉ Text.words (Source.outside "x\"y\"".toList) := by
    rw [Source.outside_of_some hfirst, Source.outside_of_none rfl]
    decide
  have hbuild : ∃ root, (common .mathematical).buildTree gluedTables =
      .ok (root, gluedTables.params) := by
    have hrun : ((TreeBuilder.ofDefinition (common .mathematical).definition
        (common .mathematical).tokens (common .mathematical).registry gluedTables).build
          Context.mainName).run { params := gluedTables.params } =
        (.ok (.parameter 0), { params := gluedTables.params }) := by rfl
    rw [buildTree_eq rfl, hrun]
    exact ⟨_, rfl⟩
  obtain ⟨root, hbuild⟩ := hbuild
  refine ⟨root, gluedTables.params, (outcome_compile rfl resolves_glued).trans hbuild, rfl, hwords,
    gluedTables, resolves_glued, "item0001".toList, ?_, by decide⟩
  exact List.mem_append_left _ (by decide)

end Compiler

end Formula
