import Formula.Proofs.Compile.Splits
import Formula.Proofs.Folding.Constant
import Formula.Proofs.Numbers.Arithmetic
import Formula.Proofs.Source.Numerals

/-!
# Integers as sources

A source has no literals with a sign: a minus sign before digits is an operator, and the application
of it to a literal is folded. So the text of a negative integer stands for that integer as long as the
integer without its sign is one, too. This is so for all of them but the least: the digits of that one
are a floating point number, and so is what they are folded to.

## Main results

* `Node.fold_negate`: a negated literal is folded.
* `Compiler.outcome_negated`: a minus sign and digits compile to the negated literal.
* `Compiler.expression_integer`: the decimal text of an integer is an expression for it.
-/

namespace Formula

open Text

theorem Decimal.naturalOf_eq_ofDigitChars (digits : Text) :
    naturalOf digits = Nat.ofDigitChars 10 digits 0 := by
  simp only [naturalOf, Nat.ofDigitChars, Nat.mul_comm]

/-- The decimal digits of a number are read as that number. -/
theorem Decimal.naturalOf_toDigits (n : Nat) : naturalOf (Nat.toDigits 10 n) = n := by
  rw [naturalOf_eq_ofDigitChars, Nat.ofDigitChars_ten_toDigits]

/-! ### Folding a negated literal -/

/-- A minus sign before a number is assembled, and then replaced by the negated number. -/
theorem Node.fold_negate {v w : Value} (hreproducible : v ≠ .numeric (-0))
    (hvalue : UnaryOp.negate.apply v = .ok w) (hnumber : v.type = .integer ∨ v.type = .numeric)
    (registry : Registry) (literal text : String) :
    ∃ node, (∀ params, assemble (.unary .negate) [.constant v literal] params = (.ok node, params)) ∧
      node.fold registry text = .constant w text := by
  have hne : (Typing.costsFor ((Head.unary .negate).signatures 1)
      ((constantTypes [(v, literal)]).map fun t => CostTable.single 0 t 0)).isEmpty = false := by
    change (Typing.costsFor _ ([v.type].map _)).isEmpty = false
    rcases hnumber with h | h
    all_goals
      rw [h]
      decide
  obtain ⟨typing, -, -, -, hassemble, -⟩ :=
    exists_assemble_constants (.unary .negate) [(v, literal)] rfl hne
  refine ⟨_, hassemble, ?_⟩
  let env : Environment := ⟨registry, fun _ => 0, none, id, []⟩
  let term : Term := .unary .negate (.constant v literal)
  have hterm : term.isReproducible = true := by simpa [term, Term.isReproducible]
  have heval : term.eval env = .ok w := by
    simp only [term, Term.eval, ok_bind, Head.run, hvalue]
    rfl
  have hparts : term.parts? = some (.unary .negate, Term.ofConstants [(v, literal)]) := rfl
  have hconstant := Term.constantValue?_eq hterm hparts (hassemble [])
    (show env.tolerance = none from rfl)
  rw [heval] at hconstant
  rw [fold, show isFoldable (apply (.unary .negate) (constants [(v, literal)]) typing) = true from rfl,
    if_pos rfl, hconstant]
  rfl

/-! ### A minus sign and digits -/

namespace Compiler

variable {style : Precedence} {digits : Text} {value : Value}

/-- The tables of a minus sign and digits, with nothing known but the whole text. -/
def negatedStart (digits : Text) : Context :=
  { Context.start ('-' :: digits) with
    symbols := [(Context.mainName, ⟨'-' :: digits, false⟩)] }

/-- The tables of a minus sign and digits, with the literal. -/
def negatedTables (digits : Text) (value : Value) : Context :=
  ((negatedStart digits).intern value digits).2

theorem pristine_negatedStart (digits : Text) : (negatedStart digits).Pristine :=
  ⟨rfl, (Context.pristine_start ('-' :: digits)).constants⟩

@[simp]
theorem symbols_negatedTables (digits : Text) (value : Value) :
    (negatedTables digits value).symbols = [(Context.mainName, ⟨'-' :: digits, false⟩)] := by
  rw [negatedTables, (pristine_negatedStart digits).intern_eq]
  rfl

@[simp]
theorem cancelled_negatedTables (digits : Text) (value : Value) :
    (negatedTables digits value).cancelled = false := by
  rw [negatedTables, (pristine_negatedStart digits).intern_eq]
  rfl

/-- The whole text is no constant. -/
theorem constant?_negated (digits : Text) (value : Value) :
    (negatedTables digits value).constant? ('-' :: digits) = none := by
  refine (pristine_negatedStart digits).constant?_intern_eq_none value (List.cons_ne_self _ _) ?_ ?_
  · simp [Context.freshName, Context.generatedName]
  · intro hmem
    have hall : (Context.constantNames.all fun name => '-' ∉ name) = true := by decide
    have hname := List.all_eq_true.mp hall _ hmem
    simp at hname

section Digits

variable (hdigits : ∀ c ∈ digits, c.isDigit = true)
include hdigits

/-- No characters but the sign and digits. -/
theorem not_mem_negated {c : Char} (hdigit : c.isDigit = false) (hsign : c ≠ '-') :
    c ∉ '-' :: digits := by
  intro hmem
  rcases List.mem_cons.mp hmem with h | h
  · exact hsign h
  · rw [hdigits c h] at hdigit
    cases hdigit

/-- No literals are taken out. -/
theorem extractLiterals_negated (style : Precedence) :
    (Context.start ('-' :: digits)).extractLiterals { precedence := style } Registry.standard =
      ('-' :: digits, Context.start ('-' :: digits)) := by
  have hblanks : Text.withoutBlanks ('-' :: digits) = '-' :: digits := by
    rw [Text.withoutBlanks, List.filter_eq_self]
    rintro c (_ | ⟨_, hc⟩)
    · rfl
    · rw [Literal.isBlank_of_isWordChar (isWordChar_of_isDigit (hdigits c hc))]
      rfl
  refine Context.extractLiterals_eq_self hblanks (not_mem_negated hdigits (by decide) (by decide))
    (not_mem_negated hdigits (by decide) (by decide))
    (Extractor.scanNumber_ne_found_of_touches fun before rest htext hnumber => ?_) style
  cases before with
  | nil =>
    obtain rfl : '-' :: digits = rest := htext
    rw [Extractor.takeNumber?_cons_eq_none (by decide) (by decide)] at hnumber
    cases hnumber
  | cons c before =>
    obtain ⟨rfl, rfl⟩ := List.cons.inj htext
    rw [Extractor.takeNumber?_grouped fun c hc =>
      .inl (hdigits c (List.mem_append_right _ hc))] at hnumber
    cases hnumber

/-- The digits are the only operand. -/
theorem operands_negated (hne : digits ≠ []) : Markers.common.operands ('-' :: digits) = [digits] := by
  have hbare : ∀ c ∈ digits, isBareChar c = true := fun c hc =>
    isBareChar_of_isWordChar (isWordChar_of_isDigit (hdigits c hc))
  have hfrom := Markers.operandsFrom_append hbare []
  rw [List.append_nil] at hfrom
  rw [Markers.operands, Markers.operandsFrom_mark (f := .arithmetic) (by decide), hfrom,
    Markers.operandsFrom, List.modifyHead_cons, List.append_nil, List.filter_cons_of_neg (by simp),
    List.filter_cons_of_pos (by simpa using hne), List.filter_nil]

/-- The digits are sorted out as a literal. -/
theorem resolve_negated (style : Precedence) (hvalue : Literal.ofGrammar? digits = some value) :
    (common style).resolve ('-' :: digits) (Context.start ('-' :: digits)) =
      .ok { negatedTables digits value with params := [] } := by
  have hne := Literal.ne_nil_of_ofGrammar? hvalue
  let ctx := negatedStart digits
  have hmark : Markers.common.mark ('-' :: digits) = '-' :: digits := by
    refine Markers.mark_eq_self fun c hc => ?_
    simp only [List.mem_cons, List.not_mem_nil, or_false] at hc
    rcases hc with rfl | rfl | rfl
    all_goals exact not_mem_negated hdigits (by decide) (by decide)
  have hmarked : ctx.markSymbols Markers.common = ctx := by
    change ({ Context.start ('-' :: digits) with symbols :=
      [(Context.mainName, ⟨Markers.common.mark ('-' :: digits), false⟩)] } : Context) = _
    rw [hmark]
    rfl
  have htable : ctx.tableOperands (common style).tokens = [digits] := by
    have hsorted : ctx.sortedSymbols = ctx.symbols := List.mergeSort_singleton _
    rw [Context.tableOperands, hsorted]
    exact (List.append_nil _).trans (operands_negated hdigits hne)
  have hparse : Literal.parse Registry.standard digits = (some value, false) :=
    congrArg (·, false) hvalue
  have hunknown : ctx.isKnown digits = false :=
    (Context.pristine_start _).isKnown_single hne (Literal.not_mem_constantNames hvalue) rfl
  have hclassify : Context.classify Registry.standard [digits] [] ctx =
      .ok ([], negatedTables digits value) := by
    rw [Context.classify, if_neg (by rw [hunknown]; simp), hparse]
    rfl
  rw [resolve_flat (List.cons_ne_nil _ _) (not_mem_negated hdigits (by decide) (by decide))
    (not_mem_negated hdigits (by decide) (by decide)) rfl rfl, Context.populate_eq, markers_common]
  change (Context.classify Registry.standard
    ((ctx.markSymbols Markers.common).tableOperands (common style).tokens) []
      (ctx.markSymbols Markers.common)).map _ = _
  rw [hmarked, htable, hclassify]
  simp [Except.map, Context.orderedParameters]

/-- There is no place where a minus sign and digits can be split. -/
theorem candidates_negated (ctx : Context) :
    (TreeBuilder.common style ctx).candidates ('-' :: digits) = [] := by
  refine List.eq_nil_iff_forall_not_mem.mpr fun split hsplit => ?_
  have hchars : ∀ c ∈ '-' :: digits, c ∈ Family.arithmetic.marks ∨ isWordChar c = true := by
    rintro c (_ | ⟨_, hc⟩)
    · exact .inl (by decide)
    · exact .inr (isWordChar_of_isDigit (hdigits c hc))
  obtain ⟨op, hop, -, hget, hpos, -⟩ := (TreeBuilder.mem_candidates_iff hchars).mp hsplit
  obtain ⟨n, hn⟩ : ∃ n, split.place = n + 1 := ⟨split.place - 1, by omega⟩
  rw [hn, List.getElem?_cons_succ] at hget
  have hword := Family.isWordChar_of_mem_marks (Family.mark_mem_marks hop)
  rw [isWordChar_of_isDigit (hdigits _ (List.mem_of_getElem? hget))] at hword
  cases hword

/-- The only way to build a minus sign and digits is to take off the sign. -/
theorem run_buildComposite_negated (style : Precedence) (ctx : Context)
    {build : Text → BuildM Node} {operand node : Node} (hne : digits ≠ [])
    (hbuild : (build digits).run (TreeBuilder.spent { params := [] }) =
      (.ok operand, TreeBuilder.spent { params := [] }))
    (hassemble : Node.assemble (.unary .negate) [operand] [] = (.ok node, [])) :
    let t := TreeBuilder.common style ctx
    (t.buildComposite build ('-' :: digits)).run { params := [] } =
      (.ok (node.fold t.registry (t.plain ('-' :: digits))), TreeBuilder.spent { params := [] }) := by
  intro t
  have hcall : t.splitCall? ('-' :: digits) = none := by
    refine TreeBuilder.splitCall?_eq_none (c := '(') ?_
      (not_mem_negated hdigits (by decide) (by decide))
    change '(' ∈ (common style).tokens.opening
    rw [(delimiters_common style).1]
    exact List.mem_singleton_self _
  have hways : t.unaryWays build ('-' :: digits) =
      [do TreeBuilder.assemble (.unary .negate) [← build digits]] := by
    have hunary : t.unary = [(.negate, ['-']), (.not, ['!'])] := by cases style <;> rfl
    obtain ⟨c, rest, rfl⟩ := List.exists_cons_of_ne_nil hne
    rw [TreeBuilder.unaryWays, hunary]
    rfl
  have hway : (do TreeBuilder.assemble (.unary .negate) [← build digits] : BuildM Node).run
      (TreeBuilder.spent { params := [] }) = (.ok node, TreeBuilder.spent { params := [] }) := by
    rw [BuildM.run_bind, hbuild]
    dsimp only
    rw [TreeBuilder.assemble, BuildM.run_bind, BuildM.run_get]
    dsimp only [TreeBuilder.spent]
    rw [hassemble]
    rfl
  rw [TreeBuilder.buildComposite, hcall, if_neg (by simp), TreeBuilder.binaryWays,
    candidates_negated hdigits, List.map_nil, TreeBuilder.firstSuccess, hways,
    TreeBuilder.firstSuccess, BuildM.run_bind, BuildM.run_pure]
  dsimp only
  rw [BuildM.run_bind, BuildM.run_bind,
    TreeBuilder.run_attempt_ok (show ¬maxSplits < 0 + 1 by decide) hway]
  rfl

/-- The tree of a minus sign and digits is the negated literal. -/
theorem buildTree_negated (style : Precedence) (hvalue : Literal.ofGrammar? digits = some value)
    {negated : Value}
    (hreproducible : value ≠ .numeric (-0)) (hnumber : value.type = .integer ∨ value.type = .numeric)
    (hnegated : UnaryOp.negate.apply value = .ok negated) :
    ∃ text, (common style).buildTree { negatedTables digits value with params := [] } =
      .ok (.constant negated text, []) := by
  have hne := Literal.ne_nil_of_ofGrammar? hvalue
  have hname : '-' :: digits ≠ Context.mainName := List.cons_ne_nil _ _
  let t := TreeBuilder.common style { negatedTables digits value with params := [] }
  have hsymbols : t.context.symbols = [(Context.mainName, ⟨'-' :: digits, false⟩)] :=
    symbols_negatedTables digits value
  have hmain : t.context.constant? Context.mainName = none :=
    (pristine_negatedStart digits).constant?_mainName value hne
  have hdigit : t.context.constant? digits = some ⟨value, digits⟩ :=
    (pristine_negatedStart digits).constant?_literal value (Literal.not_mem_constantNames hvalue)
  have hsymbol : t.context.symbol? Context.mainName = some ⟨'-' :: digits, false⟩ := by
    rw [Context.symbol?, hsymbols, List.lookup_cons_self]
  have hnosymbol : t.context.symbol? ('-' :: digits) = none := by
    rw [Context.symbol?, hsymbols, List.lookup_cons, List.lookup_nil, beq_false_of_ne hname]
  obtain ⟨depth, hdepth⟩ : ∃ depth, t.depthBound = depth + 3 := by
    refine Nat.exists_eq_add_of_le' ?_
    change 3 ≤ (t.context.symbols.length + 1) * (t.context.symbols.foldl _ 0 + 2)
    rw [hsymbols]
    rw [List.length_singleton]
    omega
  obtain ⟨node, hassemble, hfold⟩ := Node.fold_negate hreproducible hnegated hnumber t.registry
    (String.ofList digits) (t.plain ('-' :: digits))
  have hliteral : (t.buildWithin (depth + 1) digits).run (TreeBuilder.spent { params := [] }) =
      (.ok (.constant value (String.ofList digits)), TreeBuilder.spent { params := [] }) :=
    TreeBuilder.run_buildStep_constant hdigit
  have hcomposite :=
    run_buildComposite_negated hdigits style t.context hne hliteral (hassemble [])
  obtain ⟨built, hremember⟩ :=
    TreeBuilder.run_remember_new (by exact Std.HashMap.getElem?_empty) hcomposite
  have hrun : (t.build Context.mainName).run { params := [] } =
      (.ok (.constant negated (t.plain ('-' :: digits))),
        { TreeBuilder.spent { params := [] } with built }) := by
    rw [TreeBuilder.build, hdepth, TreeBuilder.buildWithin,
      TreeBuilder.run_buildStep_symbol hmain rfl hsymbol]
    dsimp only
    rw [if_neg hname, if_neg (by simp), TreeBuilder.buildWithin,
      TreeBuilder.run_buildStep_text (constant?_negated digits value) rfl hnosymbol, ← hfold]
    exact hremember
  refine ⟨t.plain ('-' :: digits), ?_⟩
  exact buildTree_common (show t.context.cancelled = false from cancelled_negatedTables digits value)
    hrun (.constant _ _)

/-- A minus sign and digits compile to the negated literal. -/
theorem outcome_negated (style : Precedence) (hvalue : Literal.ofGrammar? digits = some value)
    {negated : Value}
    (hreproducible : value ≠ .numeric (-0)) (hnumber : value.type = .integer ∨ value.type = .numeric)
    (hnegated : UnaryOp.negate.apply value = .ok negated) :
    ∃ text, ((common style).compile ('-' :: digits) false).outcome = .ok (.constant negated text, []) := by
  obtain ⟨text, hbuild⟩ :=
    buildTree_negated hdigits style hvalue hreproducible hnumber hnegated
  exact ⟨text, (outcome_compile (extractLiterals_negated hdigits style)
    (resolve_negated hdigits style hvalue)).trans hbuild⟩

end Digits

/-! ### The decimal text of an integer -/

/-- The decimal text of a natural number of 63 bits is an integer literal. -/
theorem ofGrammar?_toDigits {n : Nat} (hn : n < 2 ^ 63) :
    Literal.ofGrammar? (Nat.toDigits 10 n) = some (.integer (Int64.ofNat n)) := by
  have hvalue := Literal.ofGrammar?_digits (x := Nat.toDigits 10 n) Nat.toDigits_ne_nil
    (fun c hc => Nat.isDigit_of_mem_toDigits (by decide) (by decide) hc)
    (by rwa [Decimal.naturalOf_toDigits])
  rwa [Decimal.naturalOf_toDigits] at hvalue

theorem isDigit_of_mem_toDigits (n : Nat) : ∀ c ∈ Nat.toDigits 10 n, c.isDigit = true :=
  fun _ hc => Nat.isDigit_of_mem_toDigits (by decide) (by decide) hc

/-- The decimal text of an integer, with a sign if it is negative. -/
theorem toList_toString (i : Int) : (toString i).toList =
    if i < 0 then '-' :: Nat.toDigits 10 i.natAbs else Nat.toDigits 10 i.natAbs := by
  rw [Int.toString_eq_repr, Int.repr_eq_if]
  split
  · next hpos =>
    rw [if_neg (by omega), Nat.toList_repr, show i.natAbs = i.toNat by omega]
  · next hneg =>
    rw [if_pos (by omega), String.toList_append, Nat.toList_repr,
      show i.natAbs = (-i).toNat by omega]
    rfl

/-- The decimal text of every integer but the least is an expression for it. -/
theorem expression_integer (style : Precedence) {n : Int64} (hn : n ≠ Int64.minValue) :
    let e := (common style).expression (toString n.toInt)
    e.isRecognized = true ∧ e.isConstant = true ∧ e.parameters = [] ∧
      ∀ draws tolerance, (e.evaluate draws [] tolerance).outcome = .ok (.integer n) := by
  have hmin : Int64.minValue.toInt = -2 ^ 63 := rfl
  have hlow := Int64.minValue_le_toInt n
  have hhigh := n.toInt_lt
  have hne : n.toInt ≠ Int64.minValue.toInt := fun h => hn (Int64.toInt_inj.mp h)
  have htext := toList_toString n.toInt
  have hdigits := isDigit_of_mem_toDigits n.toInt.natAbs
  have hvalue := ofGrammar?_toDigits (show n.toInt.natAbs < 2 ^ 63 by omega)
  split at htext
  · next hsign =>
    have hnegated : UnaryOp.negate.apply (.integer (Int64.ofNat n.toInt.natAbs)) =
        .ok (.integer n) := by
      have hint : -(Int64.ofNat n.toInt.natAbs).toInt = n.toInt := by
        rw [Int64.toInt_ofNat_of_lt (by omega)]
        omega
      rw [UnaryOp.apply, Word.neg?, hint, Word.ofInt?_toInt]
    obtain ⟨literal, houtcome⟩ := outcome_negated hdigits style hvalue (by simp) (.inl rfl) hnegated
    rw [← htext] at houtcome
    exact expression_constant houtcome
  · next hsign =>
    have hcast : Int64.ofNat n.toInt.natAbs = n := by
      rw [← Int64.ofInt_eq_ofNat, Int.natAbs_of_nonneg (by omega), Int64.ofInt_toInt]
    have hquote : '"' ∉ Nat.toDigits 10 n.toInt.natAbs := fun hmem => by
      cases hdigits _ hmem
    have houtcome := outcome_spelling style hquote
      (Literal.Spelling.word fun c hc => Literal.isIdentifierChar_of_isDigit (hdigits c hc)).withoutBlanks
      (.word fun c hc => Literal.isIdentifierChar_of_isDigit (hdigits c hc)) hvalue
    rw [← htext, hcast] at houtcome
    exact expression_constant houtcome

/-- The least integer but one is written with the digits of the greatest. -/
theorem expression_integer_low :
    Int64.minValue + 1 ≠ Int64.minValue ∧
      ((common .mathematical).expression "-9223372036854775807").isConstant = true ∧
      ∀ draws tolerance, (((common .mathematical).expression "-9223372036854775807").evaluate draws []
        tolerance).outcome = .ok (.integer (Int64.minValue + 1)) := by
  have hne : Int64.minValue + 1 ≠ Int64.minValue := by decide
  have h := expression_integer .mathematical hne
  have htext : toString (Int64.minValue + 1).toInt = "-9223372036854775807" := by decide
  rw [htext] at h
  exact ⟨hne, h.2.1, h.2.2.2⟩

/-- The digits of the least integer are a floating point number, and so is the value of its text. -/
theorem expression_integer_least :
    toString Int64.minValue.toInt = "-9223372036854775808" ∧
      ∀ draws tolerance, (((common .mathematical).expression "-9223372036854775808").evaluate draws []
        tolerance).outcome = .ok (.numeric (-9223372036854775808)) := by
  refine ⟨by decide, ?_⟩
  have hdigits : ∀ c ∈ "9223372036854775808".toList, c.isDigit = true := List.all_eq_true.mp rfl
  have hvalue : Literal.ofGrammar? "9223372036854775808".toList =
      some (.numeric 9223372036854775808) := by decide
  have hreproducible : Value.numeric 9223372036854775808 ≠ .numeric (-0) := by decide
  have hnumber : (Value.numeric 9223372036854775808).type = .integer ∨
      (Value.numeric 9223372036854775808).type = .numeric := .inr rfl
  have hnegated : UnaryOp.negate.apply (.numeric 9223372036854775808) =
      .ok (.numeric (-9223372036854775808)) := rfl
  obtain ⟨literal, houtcome⟩ :=
    outcome_negated hdigits .mathematical hvalue hreproducible hnumber hnegated
  have htext : "-9223372036854775808".toList = '-' :: "9223372036854775808".toList := by decide
  rw [← htext] at houtcome
  exact (expression_constant houtcome).2.2.2

end Compiler

end Formula
