import Formula.Expression
import Formula.Proofs.Source.Parameters

/-!
# Sources of one operand

Once the literals are taken out of a source, what is left may be a single operand: characters of
names, and commas, but no operator, no parenthesis and no white space. Such a text goes through the
other stages as it is. If it names a constant, or is a literal of the grammars, the tree is that
constant.

## Main definitions

* `Text.Bare`: a text that is a single operand.

## Main results

* `Compiler.outcome_known`: a source that is left as the name of a constant is that constant.
* `Compiler.outcome_literal`: a source that is left as a literal of the grammars is that literal.
* `Compiler.outcome_foreign`: a source that is left as an operand of no kind is refused.
* `Extractor.scanNumber_generatedName`: no number is found in a generated name.
-/

namespace Formula

open Text

/-! ### Bare texts -/

/-- A text without operators, parentheses and white space. -/
structure Text.Bare (text : Text) : Prop where
  ne_nil : text ≠ []
  chars : ∀ c ∈ text, isBareChar c = true

namespace Text

theorem isBlank_of_isBareChar {c : Char} (h : isBareChar c = true) : isBlank c = false := by
  rw [isBareChar, isIdentifierChar, Bool.or_eq_true, Bool.or_eq_true] at h
  rcases h with (hword | hpoint) | hcomma
  · exact Literal.isBlank_of_isWordChar hword
  · obtain rfl := eq_of_beq hpoint
    decide
  · obtain rfl := eq_of_beq hcomma
    decide

theorem bare_generatedName (n : Nat) : Bare (Context.generatedName n) :=
  ⟨by simp [Context.generatedName], fun _ hc =>
    isBareChar_of_isWordChar (Context.Sorted.isWordChar_of_mem_generatedName hc)⟩

namespace Bare

variable {text : Text} (h : Bare text)
include h

theorem not_mem {c : Char} (hc : isBareChar c = false) : c ∉ text := fun hmem => by
  rw [h.chars c hmem] at hc
  cases hc

theorem withoutBlanks : Text.withoutBlanks text = text := by
  rw [Text.withoutBlanks, List.filter_eq_self]
  intro c hc
  rw [isBlank_of_isBareChar (h.chars c hc)]
  rfl

theorem mark_eq : Markers.common.mark text = text :=
  Markers.mark_eq_self (by
    simp only [List.forall_mem_cons, List.not_mem_nil, false_imp_iff, implies_true, and_true]
    exact ⟨h.not_mem (by decide), h.not_mem (by decide), h.not_mem (by decide)⟩)

/-- A bare text has no other operand than itself. -/
theorem operands_eq : Markers.common.operands text = [text] := by
  have hfrom := Markers.operandsFrom_append h.chars []
  rw [List.append_nil] at hfrom
  rw [Markers.operands, hfrom, Markers.operandsFrom, List.modifyHead_cons, List.append_nil,
    List.filter_cons_of_pos (by simpa using h.ne_nil), List.filter_nil]

end Bare

end Text

/-- Only the strings are taken out of a source that is left as a bare text without a number. -/
theorem Context.extractLiterals_bare {style : Precedence} {source text : Text} {ctx : Context}
    (hstrings : takeStrings source (start source) = (text, ctx)) (hbare : Bare text)
    (hnumbers : ∀ start first last value, Extractor.scanNumber text start ≠ .found first last value) :
    (start source).extractLiterals { precedence := style } Registry.standard =
      (text, { ctx with unquoted := text }) := by
  have hsymbols (ctx : Context) :
      pass (fun _ => Extractor.scanSymbol { precedence := style }) 0 text 0 ctx = (text, ctx) :=
    pass_of_exhausted
      (Extractor.scanSymbol_eq_exhausted (c := '[') (by simp) (hbare.not_mem (by decide)) 0) ctx
  rw [extractLiterals_common, hstrings]
  dsimp only
  rw [hbare.withoutBlanks, hsymbols]
  exact pass_eq_self (fun _ => hnumbers) 0 0 _

/-! ### The tree of one operand -/

namespace Compiler

/-- A text that is one operand, and is known in the end, has the tree of a constant. -/
theorem buildTree_bare {style : Precedence} {text : Text} {ctx : Context} {known : Constant}
    (hne : text ≠ []) (hcancelled : ctx.cancelled = false)
    (hsymbols : ctx.symbols = [(Context.mainName, ⟨text, false⟩)]) (hparams : ctx.params = [])
    (hmain : ctx.constant? Context.mainName = none) (hknown : ctx.constant? text = some known) :
    (common style).buildTree ctx = .ok (.constant known.value (String.ofList known.text), []) := by
  let t := TreeBuilder.ofDefinition (common style).definition (common style).tokens
    (common style).registry ctx
  have hsymbol : t.context.symbol? Context.mainName = some ⟨text, false⟩ := by
    change ctx.symbols.lookup _ = _
    rw [hsymbols, List.lookup_cons_self]
  obtain ⟨depth, hdepth⟩ : ∃ depth, t.depthBound = depth + 2 := by
    refine Nat.exists_eq_add_of_le' ?_
    change 2 ≤ (ctx.symbols.length + 1) * (_ + 2)
    exact (Nat.le_add_left 2 _).trans (Nat.le_mul_of_pos_left _ (Nat.succ_pos _))
  have hrun : (t.build Context.mainName).run { params := ctx.params } =
      (.ok (.constant known.value (String.ofList known.text)), { params := [] }) := by
    rw [TreeBuilder.build, hdepth, TreeBuilder.buildWithin,
      TreeBuilder.run_buildStep_symbol (t := t) hmain (by rw [hparams]; rfl) hsymbol]
    dsimp only
    rw [if_neg (show text ≠ Context.mainName from hne), if_neg (by simp), TreeBuilder.buildWithin,
      TreeBuilder.run_buildStep_constant (t := t) hknown, hparams]
  rw [buildTree_eq hcancelled, hrun]
  rfl

/-- A text that is one operand leaves only that operand to be sorted out. -/
theorem resolve_bare {style : Precedence} {text : Text} {ctx : Context} (hbare : Bare text)
    (hcancelled : ctx.cancelled = false) (hsymbols : ctx.symbols = []) :
    (common style).resolve text ctx =
      (Context.classify Registry.standard [text] []
        { ctx with symbols := [(Context.mainName, ⟨text, false⟩)] }).map fun sorted =>
          { sorted.2 with params := Context.orderedParameters sorted.1 } := by
  have hmarked : ({ ctx with symbols := [(Context.mainName, ⟨text, false⟩)] } :
      Context).markSymbols Markers.common =
        { ctx with symbols := [(Context.mainName, ⟨text, false⟩)] } := by
    change ({ ctx with symbols := [(Context.mainName, ⟨Markers.common.mark text, false⟩)] } :
      Context) = _
    rw [hbare.mark_eq]
  have htable : ({ ctx with symbols := [(Context.mainName, ⟨text, false⟩)] } :
      Context).tableOperands (common style).tokens = [text] := by
    rw [Context.tableOperands, Context.sortedSymbols, List.mergeSort_singleton,
      List.flatMap_singleton]
    exact hbare.operands_eq
  rw [resolve_flat hbare.ne_nil (hbare.not_mem (by decide)) (hbare.not_mem (by decide)) hcancelled
    hsymbols, Context.populate_eq, markers_common, hmarked, htable]

/-- A source that is left as one operand has the tree of the constant that is known for it in the
end. -/
theorem outcome_bare {style : Precedence} {source text : Text} {ctx ctx' : Context}
    (known : Constant)
    (hliterals : (Context.start source).extractLiterals { precedence := style }
      Registry.standard = (text, ctx))
    (hbare : Bare text) (hcancelled : ctx.cancelled = false) (hsymbols : ctx.symbols = [])
    (hclassify : Context.classify Registry.standard [text] []
      { ctx with symbols := [(Context.mainName, ⟨text, false⟩)] } = .ok ([], ctx'))
    (hcancelled' : ctx'.cancelled = false)
    (hsymbols' : ctx'.symbols = [(Context.mainName, ⟨text, false⟩)])
    (hmain : ctx'.constant? Context.mainName = none)
    (hknown : ctx'.constant? text = some known) :
    ((common style).compile source false).outcome =
      .ok (.constant known.value (String.ofList known.text), []) := by
  have hresolve : (common style).resolve text ctx = .ok { ctx' with params := [] } := by
    rw [resolve_bare hbare hcancelled hsymbols, hclassify]
    simp [Except.map, Context.orderedParameters]
  rw [outcome_compile hliterals hresolve]
  exact buildTree_bare hbare.ne_nil hcancelled' hsymbols' rfl hmain hknown

/-- A source that is left as the name of a constant is that constant. -/
theorem outcome_known {style : Precedence} {source text : Text} {ctx : Context} (known : Constant)
    (hliterals : (Context.start source).extractLiterals { precedence := style }
      Registry.standard = (text, ctx))
    (hbare : Bare text) (hcancelled : ctx.cancelled = false) (hsymbols : ctx.symbols = [])
    (hmain : ctx.constant? Context.mainName = none) (hknown : ctx.constant? text = some known) :
    ((common style).compile source false).outcome =
      .ok (.constant known.value (String.ofList known.text), []) := by
  have hisKnown : ({ ctx with symbols := [(Context.mainName, ⟨text, false⟩)] } :
      Context).isKnown text = true := by
    change ((ctx.constant? text).isSome || _ || _) = true
    rw [hknown]
    rfl
  exact outcome_bare known hliterals hbare hcancelled hsymbols (Context.classify_known hisKnown)
    hcancelled rfl hmain hknown

/-- An expression that compiles to a constant is recognized, has no parameters, and has the value of
the constant. -/
theorem expression_constant {c : Compiler} {source literal : String} {value : Value}
    (h : (c.compile source.toList false).outcome = .ok (.constant value literal, [])) :
    (c.expression source).isRecognized = true ∧ (c.expression source).isConstant = true ∧
      (c.expression source).parameters = [] ∧
        ∀ draws tolerance, ((c.expression source).evaluate draws [] tolerance).outcome = .ok value := by
  rw [expression, h]
  exact ⟨rfl, rfl, rfl, fun _ _ => rfl⟩

end Compiler

/-! ### The first literal -/

namespace Context

/-- Nothing but the named constants is known. -/
structure Pristine (ctx : Context) : Prop where
  literals : ctx.literals = []
  constants : ctx.constants.map Prod.fst = constantNames

theorem pristine_start (source : Text) : (start source).Pristine :=
  ⟨rfl, by simp [start, constantNames]⟩

namespace Pristine

variable {ctx : Context} (h : ctx.Pristine) (value : Value) {literal : Text}
include h

theorem lookup_eq_none {key : Text} (hkey : key ∉ constantNames) :
    ctx.constants.lookup key = none := by
  by_contra hsome
  exact hkey (h.constants ▸ mem_map_fst_of_lookup (Option.ne_none_iff_isSome.mp hsome))

theorem constant?_eq_none {key : Text} (hkey : key ∉ constantNames) : ctx.constant? key = none := by
  rw [constant?, h.lookup_eq_none hkey, h.literals]
  rfl

theorem intern_eq (literal : Text) :
    ctx.intern value literal = (ctx.freshName.1, { ctx.freshName.2 with
      constants := (ctx.freshName.1, ⟨value, literal⟩) :: ctx.constants
      literals := [(literal, ctx.freshName.1)] }) := by
  simp only [intern, h.literals, freshName, List.lookup_nil]

/-- A text that is neither the literal nor the name of a constant is not known. -/
theorem constant?_intern_eq_none {key : Text} (hliteral : key ≠ literal)
    (hname : key ≠ ctx.freshName.1) (hunnamed : key ∉ constantNames) :
    (ctx.intern value literal).2.constant? key = none := by
  rw [h.intern_eq, constant?]
  dsimp only
  rw [List.lookup_cons, beq_false_of_ne hname, List.lookup_cons, beq_false_of_ne hliteral]
  change (ctx.constants.lookup key).or none = none
  rw [h.lookup_eq_none hunnamed, Option.or_none]

/-- The whole text has no name among the constants. -/
theorem constant?_mainName (hne : literal ≠ []) :
    (ctx.intern value literal).2.constant? mainName = none :=
  h.constant?_intern_eq_none value (Ne.symm hne)
    (by simp [freshName, generatedName, mainName]) (by decide)

/-- The name of a literal stands for it. -/
theorem constant?_name (literal : Text) :
    (ctx.intern value literal).2.constant? (ctx.intern value literal).1 =
      some ⟨value, literal⟩ := by
  rw [h.intern_eq, constant?]
  dsimp only
  rw [List.lookup_cons_self, Option.some_or]

/-- The text of a literal stands for it, unless it is the name of a constant. -/
theorem constant?_literal (hunnamed : literal ∉ constantNames) :
    (ctx.intern value literal).2.constant? literal = some ⟨value, literal⟩ := by
  rw [h.intern_eq, constant?]
  dsimp only
  rw [List.lookup_cons_self, Option.bind_some, List.lookup_cons_self, List.lookup_cons]
  split
  · rfl
  · rw [h.lookup_eq_none hunnamed, Option.none_or]

/-- Nothing is known but the named constants and the whole text. -/
theorem isKnown_single {text : Text} {symbol : Symbol} (hne : text ≠ [])
    (hunnamed : text ∉ constantNames) (hparams : ctx.params = []) :
    ({ ctx with symbols := [(mainName, symbol)] } : Context).isKnown text = false := by
  have hsymbol : ([(mainName, symbol)] : List (Text × Symbol)).lookup text = none := by
    rw [List.lookup_cons, beq_false_of_ne (show text ≠ mainName from hne), List.lookup_nil]
  change ((ctx.constant? text).isSome || (List.lookup text _).isSome ||
    (parameterIndex? ctx.params text).isSome) = false
  rw [h.constant?_eq_none hunnamed, hsymbol, hparams]
  rfl

end Pristine

end Context

namespace Compiler

variable {style : Precedence} {source text : Text}

/-- A source that is left as a literal of the grammars is that literal. -/
theorem outcome_literal {value : Value}
    (hliterals : (Context.start source).extractLiterals { precedence := style }
      Registry.standard = (text, Context.start source))
    (hbare : Bare text) (hunnamed : text ∉ Context.constantNames)
    (hvalue : Literal.ofGrammar? text = some value) :
    ((common style).compile source false).outcome =
      .ok (.constant value (String.ofList text), []) := by
  let ctx : Context := { Context.start source with
    symbols := [(Context.mainName, ⟨text, false⟩)] }
  have hpristine : ctx.Pristine := ⟨rfl, (Context.pristine_start source).constants⟩
  have hunknown : ctx.isKnown text = false :=
    (Context.pristine_start source).isKnown_single hbare.ne_nil hunnamed rfl
  have hclassify : Context.classify Registry.standard [text] [] ctx =
      .ok ([], (ctx.intern value text).2) := by
    have hparse : Literal.parse Registry.standard text = (some value, false) :=
      congrArg (·, false) hvalue
    rw [Context.classify, if_neg (by rw [hunknown]; simp), hparse]
    rfl
  have hintern := hpristine.intern_eq value text
  refine outcome_bare ⟨value, text⟩ hliterals hbare rfl rfl hclassify ?_ ?_
    (hpristine.constant?_mainName value hbare.ne_nil) (hpristine.constant?_literal value hunnamed)
  · rw [hintern]
    rfl
  · rw [hintern]
    rfl

/-- A source that is left as one operand is refused if that operand is neither a literal nor a word
of the source. -/
theorem outcome_foreign
    (hliterals : (Context.start source).extractLiterals { precedence := style }
      Registry.standard = (text, Context.start source))
    (hbare : Bare text) (hunnamed : text ∉ Context.constantNames)
    (hvalue : Literal.ofGrammar? text = none) (hplace : Text.firstWord? text source = none) :
    ((common style).compile source false).outcome = .error (.invalidOperand text) := by
  let ctx : Context := { Context.start source with
    symbols := [(Context.mainName, ⟨text, false⟩)] }
  have hunknown : ctx.isKnown text = false :=
    (Context.pristine_start source).isKnown_single hbare.ne_nil hunnamed rfl
  have hclassify : Context.classify Registry.standard [text] [] ctx =
      .error (.invalidOperand text) := by
    have hparse : Literal.parse Registry.standard text = (none, false) :=
      congrArg (·, false) hvalue
    have hplace : Text.firstWord? text ctx.unquoted = none := hplace
    rw [Context.classify, if_neg (by rw [hunknown]; simp), hparse]
    dsimp only
    rw [hplace]
  have hresolve : (common style).resolve text (Context.start source) =
      .error (.invalidOperand text) := by
    rw [resolve_bare hbare rfl rfl, hclassify]
    rfl
  exact outcome_compile_error hliterals hresolve

end Compiler

/-! ### Numbers and generated names -/

/-- No number is found in a generated name: it would touch the characters before it. -/
theorem Extractor.scanNumber_generatedName (n start first last : Nat) (value : Value) :
    scanNumber (Context.generatedName n) start ≠ .found first last value := by
  refine scanNumber_ne_found_of_touches (fun before rest htext hnumber => ?_) start first last value
  cases before using List.reverseRecOn with
  | nil =>
    rw [← List.nil_append rest, ← htext] at hnumber
    cases hnumber
  | append_singleton before c =>
    have hc : c ∈ Context.generatedName n := by
      rw [htext]
      simp
    rw [List.getLast?_append, List.getLast?_singleton]
    exact isIdentifierChar_of_isWordChar (Context.Sorted.isWordChar_of_mem_generatedName hc)

end Formula
