import Formula.Proofs.Source.Correspondence

/-!
# Parentheses around an operand

In a text of words and operators a word may be put in parentheses: the text is recognized as well, and
has the same parameters and values. The word in parentheses gets a name of its own, which stands for it,
unless it is the name of a constant. Only numbers must not be found in the text with the parentheses:
`x&h1` is the operator between two parameters, and `(x)&h1` is not recognized.

## Main definitions

* `Source.bracket`: a text with a word in parentheses.
* `Source.Bracketed`: a word of a text of words and operators that may be put in parentheses.
* `Source.bracketTable`: the symbols of such a text.

## Main results

* `Source.Bracketed.exists_tables`: a text with a word in parentheses has tables.
* `Compiler.matches_bracketed`: parentheses around a word of a text of words and operators.
-/

namespace Formula

open Text Context

namespace Source

/-- The symbols of a text in which a name stands for a word, unless it is the word itself. -/
def bracketTable (text word name : Text) : List (Text × Symbol) :=
  if name = word then [(mainName, ⟨text, false⟩)]
  else [(name, ⟨word, false⟩), (mainName, ⟨text, false⟩)]

theorem mem_bracketTable_iff {text word name key : Text} :
    key ∈ (bracketTable text word name).map Prod.fst ↔ key = mainName ∨ key = name ∧ name ≠ word := by
  rw [bracketTable]
  split
  · next heq => simp [heq]
  · next hne => simp [hne, or_comm]

/-- A text with a word in parentheses. -/
def bracket (before word rest : Text) : Text :=
  before ++ '(' :: (word ++ ')' :: rest)

/-- The tables of a text with a word in parentheses, before the parentheses are taken out. -/
def startBracket (before word rest : Text) : Context :=
  { start (bracket before word rest) with
    symbols := [(mainName, ⟨bracket before word rest, false⟩)] }

/-- A word of a text of words and operators that may be put in parentheses. -/
structure Bracketed (before word rest : Text) : Prop where
  ne_nil : word ≠ []
  chars : ∀ c ∈ word, isIdentifierChar c = true
  isolated : IsolatedBy before rest
  flat : Flat (before ++ word ++ rest)
  unnumbered : Unnumbered (bracket before word rest)

namespace Bracketed

variable {before word rest : Text} (h : Bracketed before word rest)
include h

/-- No call is found at the parenthesis. -/
theorem findCall?_eq_none : findCall? ['('] (bracket before word rest) = none := by
  have hopen : '(' ∉ before ++ word ++ rest := h.flat.not_mem (by decide) (.inl (by decide))
  simp only [List.mem_append, not_or] at hopen
  have hcuts : cuts ['('] (bracket before word rest) = [(before, word ++ ')' :: rest)] := by
    rw [bracket]
    have hnil {u : Text} (hu : '(' ∉ u) : cuts ['('] u = [] :=
      cuts_eq_nil (List.mem_singleton_self _) hu
    rw [cuts_append, cuts_cons, hnil hopen.1.1, hnil (by simp [hopen.1.2, hopen.2])]
    simp
  have hlast : (lastWord before).2 = [] := by
    have := lastWord_append_left (u := before) (v := []) (.inl fun c hc =>
      Bool.eq_false_of_not_eq_true fun hword => by
        cases (h.isolated.left c hc).symm.trans (isIdentifierChar_of_isWordChar hword))
    rw [List.append_nil] at this
    rw [this]
    rfl
  rw [findCall?, hcuts, List.findSome?_cons]
  dsimp only
  rw [hlast]
  rfl

/-- The group is taken out, and a name stands for the word unless it is known. -/
theorem flattenText_eq {named : Text × Context} {ctx : Context}
    (hnamed : named = if ctx.isKnown word then (word, ctx) else ctx.addSymbol word false)
    (hopen : '(' ∉ named.1) (hclose : ')' ∉ named.1) :
    flattenText ['('] [')'] (bracket before word rest) ctx =
      .ok (before ++ named.1 ++ rest, named.2) := by
  have hopening : '(' ∉ before ++ word ++ rest := h.flat.not_mem (by decide) (.inl (by decide))
  have hclosing : ')' ∉ before ++ word ++ rest := h.flat.not_mem (by decide) (.inl (by decide))
  simp only [List.mem_append, not_or] at hopening hclosing
  have hstep : flattenStep ['('] [')'] (bracket before word rest) ctx =
      some (.ok (before ++ named.1 ++ rest, named.2)) := by
    rw [bracket, flattenStep, cutLast?_append_cons before (by simp [hopening.1.2, hopening.2]),
      Option.map_some]
    dsimp only
    rw [cut?_append_cons hclosing.1.2]
    dsimp only
    rw [if_neg h.ne_nil, ← hnamed]
  rw [flattenText, flatten?, hstep]
  dsimp only
  rw [flatten?_eq_self (List.mem_singleton_self '(') (List.mem_singleton_self ')')
    (by simp [hopening.1.1, hopening.2, hopen]) (by simp [hclosing.1.1, hclosing.2, hclose])]
  rfl

omit h in
theorem contains_word : Text.contains word (bracket before word rest) = true :=
  Text.contains_iff.mpr ⟨before ++ ['('], ')' :: rest, by simp [bracket]⟩

/-- The text is resolved with what stands for the word in the place of the parentheses. -/
theorem resolve_eq (style : Precedence) (named : Text × Context)
    (hnamed : named = if (startBracket before word rest).isKnown word then
      (word, startBracket before word rest) else (startBracket before word rest).addSymbol word false)
    (hopen : '(' ∉ named.1) (hclose : ')' ∉ named.1) :
    (Compiler.common style).resolve (bracket before word rest) (start (bracket before word rest)) =
      (named.2.setText mainName (before ++ named.1 ++ rest)).populate (Compiler.common style).tokens
        Registry.standard :=
  Compiler.resolve_of_groups style (by simp [bracket]) rfl rfl h.findCall?_eq_none
    (h.flattenText_eq hnamed hopen hclose)

/-- The operands are sorted out in a text where the word, or a fresh name, stands without
parentheses. -/
theorem exists_resolve (style : Precedence) : ∃ name counter,
    (name = word ∨ IsFreshName (bracket before word rest) name) ∧
      (Compiler.common style).resolve (bracket before word rest)
        (start (bracket before word rest)) =
      (classify Registry.standard ((startTables (bracket before word rest)
        (bracketTable (Markers.common.mark (before ++ name ++ rest)) word name) counter).tableOperands
          (Compiler.common style).tokens) [] (startTables (bracket before word rest)
        (bracketTable (Markers.common.mark (before ++ name ++ rest)) word name) counter)).map
          fun p => { p.2 with params := orderedParameters p.1 } := by
  have hplain (c : Char) (hc : isIdentifierChar c = false) : c ∉ word := fun hmem => by
    cases hc.symm.trans (h.chars c hmem)
  have hmark : Markers.common.mark word = word := Markers.mark_eq_self fun c hc => by
    have hall : (['=', '<', '>'].all fun c => !isIdentifierChar c) = true := by decide
    exact hplain c ((Bool.not_eq_true' _).mp (List.all_eq_true.mp hall c hc))
  have hresolve := h.resolve_eq style
  generalize hbase : startBracket before word rest = base at hresolve
  cases hknown : base.isKnown word with
  | true =>
    refine ⟨word, 0, .inl rfl, ?_⟩
    rw [hresolve (word, base) (by rw [hknown]; rfl) (hplain _ (by decide)) (hplain _ (by decide)),
      populate_eq, bracketTable, if_pos rfl, ← hbase]
    rfl
  | false =>
    have hfresh : IsFreshName (bracket before word rest) base.freshName.1 := by
      have := isFreshName_freshName base
      rwa [← hbase] at this ⊢
    have hchars {c : Char} (hc : isIdentifierChar c = false) : c ∉ base.freshName.1 := fun hmem => by
      have := isIdentifierChar_of_isWordChar (Sorted.isWordChar_of_mem_generatedName hmem)
      cases hc.symm.trans this
    have hne : base.freshName.1 ≠ word := by
      rintro heq
      have := hfresh.2
      rw [heq, contains_word] at this
      cases this
    have hmain : mainName ≠ base.freshName.1 := by
      rw [mainName]
      intro heq
      simp [freshName, generatedName] at heq
    refine ⟨base.freshName.1, base.freshName.2.counter, .inr hfresh, ?_⟩
    rw [hresolve (base.addSymbol word false) (by rw [hknown]; rfl) (hchars (by decide))
      (hchars (by decide)), populate_eq]
    have htables : ((base.addSymbol word false).2.setText mainName
        (before ++ (base.addSymbol word false).1 ++ rest)).markSymbols Markers.common =
          startTables (bracket before word rest) (bracketTable
            (Markers.common.mark (before ++ base.freshName.1 ++ rest)) word base.freshName.1)
              base.freshName.2.counter := by
      rw [bracketTable, if_neg hne]
      subst hbase
      simp only [addSymbol, setText, markSymbols, List.map_cons, if_neg hmain.symm, Bool.false_eq_true,
        if_false, hmark]
      rfl
    rw [Compiler.markers_common, htables]

theorem mem_words : word ∈ words (before ++ word ++ rest) := by
  rw [words_isolated h.ne_nil h.chars h.isolated]
  exact List.mem_append_right _ (List.mem_cons_self ..)

theorem words_bracket : words (bracket before word rest) = words (before ++ word ++ rest) := by
  have hinner : IsolatedBy (before ++ ['(']) (')' :: rest) :=
    ⟨fun c hc => by
      obtain rfl : '(' = c := by simpa using hc
      decide, fun c hc => by
      obtain rfl : ')' = c := by simpa using hc
      decide⟩
  have htext : bracket before word rest = before ++ ['('] ++ word ++ ')' :: rest := by simp [bracket]
  rw [htext, words_isolated h.ne_nil h.chars hinner, words_isolated h.ne_nil h.chars h.isolated,
    words_append_cons (by decide), words_cons (by decide), words_nil, List.append_nil]

/-- The operands are the words, and the name that stands for the word. -/
theorem mem_tableOperands (style : Precedence) (counter : Nat) {name : Text}
    (hname : name ≠ [] ∧ ∀ c ∈ name, isIdentifierChar c = true) {w : Text} :
    w ∈ (startTables (bracket before word rest) (bracketTable
        (Markers.common.mark (before ++ name ++ rest)) word name) counter).tableOperands
      (Compiler.common style).tokens ↔ w = name ∨ w ∈ words (bracket before word rest) := by
  have hplain {x : Text} (hx : ∀ c ∈ x, isIdentifierChar c = true) : '@' ∉ x := fun hmem => by
    have hat : isIdentifierChar '@' = false := by decide
    cases hat.symm.trans (hx _ hmem)
  have hat : '@' ∉ before ++ word ++ rest := h.flat.not_mem (by decide) (.inr rfl)
  simp only [List.mem_append, not_or] at hat
  have hmain : Markers.common.operands (Markers.common.mark (before ++ name ++ rest)) =
      words before ++ name :: words rest := by
    rw [(marked_mark (by simp [hat.1.1, hat.2, hplain hname.2])).operands_eq fun c hc => ?_,
      words_isolated hname.1 hname.2 h.isolated]
    simp only [List.mem_append] at hc
    rcases hc with (hc | hc) | hc
    · exact (h.flat.chars c (by simp [hc])).imp_right And.left
    · exact .inl (hname.2 c hc)
    · exact (h.flat.chars c (by simp [hc])).imp_right And.left
  have hword : Markers.common.operands word = [word] := by
    rw [(Marked.of_not_mem (hplain h.chars)).operands_eq fun c hc => .inl (h.chars c hc),
      words_of_name h.ne_nil h.chars]
  have hsymbol (text : Text) : symbolOperands (Compiler.common style).tokens ⟨text, false⟩ =
      Markers.common.operands text := by
    rw [symbolOperands, if_neg Bool.false_ne_true, Compiler.markers_common]
  rw [tableOperands, List.mem_flatMap]
  simp only [sortedSymbols, List.mem_mergeSort]
  rw [h.words_bracket, words_isolated h.ne_nil h.chars h.isolated, startTables, bracketTable]
  generalize Markers.common.mark (before ++ name ++ rest) = text at hmain
  split
  · next heq =>
    simp only [List.mem_cons, List.not_mem_nil, or_false, exists_eq_left, hsymbol, hmain, heq,
      List.mem_append]
    tauto
  · simp only [List.mem_cons, List.not_mem_nil, or_false, exists_eq_or_imp, exists_eq_left, hsymbol, hword,
      hmain, List.mem_append]
    tauto

/-- The tables of a text with a word in parentheses: a name stands for the word, unless it is the word
itself. -/
structure Tables (before word rest : Text) (style : Precedence) (name : Text) (ctx : Context) : Prop where
  knows : KnowsWords (bracket before word rest) ctx
  cancelled : ctx.cancelled = false
  symbols : ctx.symbols = bracketTable (Markers.common.mark (before ++ name ++ rest)) word name
  fresh : name = word ∨ IsFreshName (bracket before word rest) name ∧ ctx.constant? name = none
  outcome : ((Compiler.common style).compile (bracket before word rest) false).outcome =
    (Compiler.common style).buildTree ctx

theorem withoutBlanks : Text.withoutBlanks (bracket before word rest) = bracket before word rest := by
  have hblanks := h.flat.withoutBlanks
  rw [Text.withoutBlanks, List.filter_eq_self] at hblanks ⊢
  intro c hc
  simp only [bracket, List.mem_append, List.mem_cons] at hc
  rcases hc with hc | rfl | hc | rfl | hc
  · exact hblanks c (by simp [hc])
  · decide
  · exact hblanks c (by simp [hc])
  · decide
  · exact hblanks c (by simp [hc])

theorem extractLiterals (style : Precedence) :
    (start (bracket before word rest)).extractLiterals (Compiler.common style).definition
      (Compiler.common style).registry = (bracket before word rest, start (bracket before word rest)) := by
  have hnot {c : Char} (hc : isIdentifierChar c = false) (hop : isOperatorChar c = false)
      (hparentheses : c ≠ '(' ∧ c ≠ ')') : c ∉ bracket before word rest := fun hmem => by
    have := h.flat.not_mem hc (.inl hop)
    simp only [bracket, List.mem_append, List.mem_cons, not_or] at hmem this
    tauto
  exact extractLiterals_eq_self h.withoutBlanks (hnot (by decide) (by decide) (by decide))
    (hnot (by decide) (by decide) (by decide)) h.unnumbered style

theorem exists_tables (style : Precedence) (hwords : ∀ w ∈ words (before ++ word ++ rest),
    (wordConstant? w).isSome ∨ isIdentifier w = true) :
    ∃ name ctx, Tables before word rest style name ctx := by
  obtain ⟨name, counter, hname, hresolve⟩ := h.exists_resolve style
  have hchars : name ≠ [] ∧ ∀ c ∈ name, isIdentifierChar c = true := by
    rcases hname with rfl | ⟨⟨n, rfl⟩, -⟩
    · exact ⟨h.ne_nil, h.chars⟩
    · exact Source.generatedName_word n
  have hword : word ∈ words (bracket before word rest) := h.words_bracket ▸ h.mem_words
  have hmem {w : Text} := h.mem_tableOperands style counter hchars (w := w)
  generalize htable : bracketTable (Markers.common.mark (before ++ name ++ rest)) word name = table
    at hresolve hmem
  have hkeys {key : Text} : key ∈ table.map Prod.fst ↔ key = mainName ∨ key = name ∧ name ≠ word :=
    htable ▸ mem_bracketTable_iff
  generalize hoperands : (startTables (bracket before word rest) table counter).tableOperands
    (Compiler.common style).tokens = operands at hresolve hmem
  have hcases {w : Text} (hw : w ∈ operands) :
      w ∈ table.map Prod.fst ∨ w ∈ words (bracket before word rest) := by
    rcases hmem.mp hw with rfl | hw
    · by_cases heq : w = word
      · exact .inr (heq ▸ hword)
      · exact .inl (hkeys.mpr (.inr ⟨rfl, heq⟩))
    · exact .inr hw
  obtain ⟨⟨found, ctx⟩, hsorted⟩ := exists_classify_startTables (bracket before word rest)
    table counter fun w hw => (hcases hw).imp_right fun hin => ⟨hin, hwords w (h.words_bracket ▸ hin)⟩
  obtain ⟨hknows, hcancelled, hsymbols⟩ := knowsWords_of_classify hsorted
    (fun key hkey => (hkeys.mp hkey).imp_right fun ⟨heq, hne⟩ => heq ▸ hname.resolve_left hne)
    (fun w hw => hmem.mpr (.inr hw)) fun w hw => hcases hw
  refine ⟨name, { ctx with params := orderedParameters found }, hknows, hcancelled,
    hsymbols.trans htable.symm, ?_, ?_⟩
  · by_cases heq : name = word
    · exact .inl heq
    · have hfresh := hname.resolve_left heq
      exact .inr ⟨hfresh, apart_classify hsorted
        (isSome_symbol?_startTables.mpr (hkeys.mpr (.inr ⟨rfl, heq⟩))) hfresh.lookup_eq_none rfl⟩
  · rw [Compiler.outcome_compile_eq_bind (h.extractLiterals style), hresolve, hsorted]
    rfl

end Bracketed

end Source

namespace Source.Bracketed.Tables

variable {before word rest name : Text} {style : Precedence} {ctx : Context}
  (h : Tables before word rest style name ctx)
include h

theorem generated (key : Text) (hkey : (ctx.symbol? key).isSome) :
    key = mainName ∨ IsFreshName (bracket before word rest) key := by
  rw [isSome_symbol?_iff, h.symbols, mem_bracketTable_iff] at hkey
  exact hkey.imp_right fun ⟨heq, hne⟩ => heq ▸ (h.fresh.resolve_left hne).1

theorem isName (hne : word ≠ []) (hchars : ∀ c ∈ word, isIdentifierChar c = true) :
    name ≠ [] ∧ ∀ c ∈ name, isIdentifierChar c = true := by
  rcases h.fresh with rfl | ⟨⟨⟨n, rfl⟩, -⟩, -⟩
  · exact ⟨hne, hchars⟩
  · exact Source.generatedName_word n

theorem name_not_mem_markerNames (hword : word ∉ markerNames) : name ∉ markerNames := by
  rcases h.fresh with rfl | ⟨⟨⟨n, rfl⟩, -⟩, -⟩
  · exact hword
  · exact fun hmem => (unnamed_of_mem_markerNames hmem).1 n rfl

theorem symbol?_mainName (hname : name ≠ mainName) : ctx.symbol? mainName =
    some ⟨Markers.common.mark (before ++ name ++ rest), false⟩ := by
  rw [symbol?, h.symbols, bracketTable]
  split
  · rfl
  · rw [List.lookup_cons, beq_false_of_ne hname.symm]
    rfl

/-- The name in place of the word stands for it. -/
theorem standsFor : (TreeBuilder.common style ctx).StandsFor name word := by
  rcases h.fresh with rfl | ⟨hfresh, hconstant⟩
  · exact .refl _
  · by_cases heq : name = word
    · exact heq ▸ .refl _
    · have hsymbol : ctx.symbol? name = some ⟨word, false⟩ := by
        rw [symbol?, h.symbols, bracketTable, if_neg heq, List.lookup_cons_self]
      refine .step ?_ (.refl _)
      rw [TreeBuilder.analyze, show (TreeBuilder.common style ctx).context = ctx from rfl, hconstant,
        h.knows.parameterIndex?_eq_none fun hmem => not_isFreshName_of_mem_words hmem hfresh, hsymbol]
      exact if_neg (Ne.symm heq)

end Source.Bracketed.Tables

namespace Source.Bracketed

/-- What stands in the place of a word, or of the name of a mark, once a name stands for a word. -/
def Replaces (source word name x y : Text) : Prop :=
  x ∈ markerNames ∧ y = x ∨ x ∈ words source ∧ (y = x ∨ x = word ∧ y = name)

theorem Replaces.keepsMarks (word : Text) {source name : Text} (hmarkers : ∀ w ∈ markerNames, w ∉ words source)
    (hname : name ∉ markerNames) : KeepsMarks (Replaces source word name) := by
  refine .of_words hmarkers ?_
  rintro x hmem y (rfl | ⟨-, rfl⟩)
  · exact fun hmarker => hmarkers _ hmarker hmem
  · exact hname

variable {before word rest : Text} (h : Bracketed before word rest)
include h

/-- The texts with the word and with the name for it differ in their words only. -/
theorem respells {name : Text} (hne : name ≠ []) (hchars : ∀ c ∈ name, isIdentifierChar c = true) :
    Respells (Replaces (before ++ word ++ rest) word name) (before ++ word ++ rest)
      (before ++ name ++ rest) := by
  have hwords := words_isolated h.ne_nil h.chars h.isolated
  refine .of_pieces (List.rel_append (Respells.refl before fun x hx => .inr ⟨?_, .inl rfl⟩)
    (.cons (.atom (.inr ⟨h.mem_words, .inr ⟨rfl, rfl⟩⟩))
      (Respells.refl rest fun x hx => .inr ⟨?_, .inl rfl⟩)))
    (pieces_isolated h.ne_nil h.chars h.isolated) (pieces_isolated hne hchars h.isolated)
  · rw [hwords]
    exact List.mem_append_right _ (List.mem_cons_of_mem _ hx)
  · rw [hwords]
    exact List.mem_append_left _ hx

end Source.Bracketed

/-- A word of a text of words and operators may be put in parentheses: the text is recognized as well,
with the same parameters and values, unless it is given up. -/
theorem Compiler.matches_bracketed (style : Precedence) {before word rest : Text}
    (h : Source.Bracketed before word rest)
    (hmarkers : ∀ w ∈ Source.markerNames, w ∉ words (before ++ word ++ rest))
    (hrecognized :
      ((common style).expression (String.ofList (before ++ word ++ rest))).isRecognized = true)
    (hcomplex : ((common style).compile (Source.bracket before word rest) false).outcome ≠
      .error .tooComplex) :
    ((common style).expression (String.ofList (before ++ word ++ rest))).Matches id
      ((common style).expression (String.ofList (Source.bracket before word rest))) := by
  obtain ⟨ctx, hctx⟩ := h.flat.exists_tables hrecognized
  obtain ⟨name, ctx', hctx'⟩ := h.exists_tables style fun w hw => by
    cases hconstant : wordConstant? w with
    | some c => exact .inl rfl
    | none => exact .inr (hctx.knows.isIdentifier hw hconstant)
  have hcorresponds : Corresponds id (before ++ word ++ rest) (Source.bracket before word rest) ctx ctx' :=
    ⟨hctx.knows, hctx'.knows, hctx.generated, hctx'.generated, by rw [h.words_bracket, List.map_id],
      fun _ _ _ _ => id, fun _ _ => rfl⟩
  obtain ⟨hne, hchars⟩ := hctx'.isName h.ne_nil h.chars
  have hkeeps := Source.Bracketed.Replaces.keepsMarks word hmarkers
    (hctx'.name_not_mem_markerNames fun hmem => hmarkers word hmem h.mem_words)
  refine matches_of_corresponds hcorresponds (hcorresponds.sameMeaning hkeeps
    (fun w hw => ⟨hmarkers w hw, h.words_bracket ▸ hmarkers w hw⟩) (fun x y hxy => ?_)
    ⟨_, _, hctx.symbol?_mainName, hctx'.symbol?_mainName hne, h.flat.mark_ne_nil,
      h.flat.not_mem_mark, hkeeps.respells_mark (h.respells hne hchars)⟩)
    hctx.outcome hctx'.outcome hctx.cancelled hctx'.cancelled hrecognized hcomplex
  refine hxy.imp_right fun ⟨hx, hy⟩ => ⟨hx, ?_⟩
  rcases hy with rfl | ⟨rfl, rfl⟩
  · exact .refl _
  · exact hctx'.standsFor

/-! ### A letter in parentheses -/

theorem Source.bracketed_letter : Bracketed [] ['x'] [] where
  ne_nil := List.cons_ne_nil _ _
  chars := List.forall_mem_singleton.mpr (by decide)
  isolated := ⟨by simp, by simp⟩
  flat := flat_letter (.inl rfl)
  unnumbered := unnumbered_of_all (by decide)

/-- The tables of the text `(x)`, before there are parameters. -/
def Source.bracketedTables : Context :=
  startTables (bracket [] ['x'] []) (bracketTable "item0001".toList ['x'] "item0001".toList) 1

namespace Compiler

open Source

theorem resolve_bracketed :
    (common .mathematical).resolve (bracket [] ['x'] []) (start (bracket [] ['x'] [])) =
      .ok { bracketedTables with params := [⟨"x", TypeMask.all⟩] } := by
  let symbols : List (Text × Symbol) :=
    [("item0001".toList, ⟨['x'], false⟩), (mainName, ⟨bracket [] ['x'] [], false⟩)]
  have hnamed : (startBracket [] ['x'] []).addSymbol ['x'] false =
      ("item0001".toList, { bracketedTables with symbols }) := rfl
  have htables : ((({ bracketedTables with symbols } : Context).setText
      mainName ([] ++ "item0001".toList ++ [])).markSymbols Markers.common) = bracketedTables := rfl
  have hoperands : bracketedTables.tableOperands (common .mathematical).tokens =
      ["item0001".toList, ['x']] := by
    rw [tableOperands, sortedSymbols, bracketedTables, startTables]
    change List.flatMap _ (List.mergeSort [_, _] _) = _
    rw [mergeSort_pair]
    rfl
  have hclassify : classify Registry.standard ["item0001".toList, ['x']] [] bracketedTables =
      .ok ([(1, ['x'])], bracketedTables) := rfl
  rw [bracketed_letter.resolve_eq .mathematical _ hnamed.symm (by decide) (by decide), populate_eq,
    markers_common]
  dsimp only
  rw [htables, hoperands, hclassify]
  change Except.ok { bracketedTables with params := orderedParameters [(1, ['x'])] } = _
  rw [orderedParameters_singleton]

/-- The text `x` may as well be `(x)`. -/
theorem matches_bracketed_letter : ((common .mathematical).expression (String.ofList ['x'])).Matches id
    ((common .mathematical).expression (String.ofList (bracket [] ['x'] []))) := by
  refine matches_bracketed .mathematical bracketed_letter (by decide) (isRecognized_letter (.inl rfl)) ?_
  have hrun : ((TreeBuilder.common .mathematical { bracketedTables with
      params := [⟨"x", TypeMask.all⟩] }).build mainName).run { params := [⟨"x", TypeMask.all⟩] } =
      (.ok (.parameter 0), { params := [⟨"x", TypeMask.all⟩] }) := rfl
  rw [outcome_compile_eq_bind (bracketed_letter.extractLiterals .mathematical), resolve_bracketed]
  intro herror
  cases (buildTree_common rfl hrun (Node.refresh_eq_iff.mp rfl).1).symm.trans herror

end Compiler

end Formula
