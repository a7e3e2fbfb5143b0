import Formula.Proofs.Compile.Ordering
import Formula.Proofs.Source.FirstUse
import Formula.Proofs.Source.Operand
import Formula.Proofs.Typing.Labels

/-!
# Texts of words and operators

A text of words and operators is not taken apart before its operands are sorted out, so its operands
are its words. What a word stands for is then a matter of the word alone: it is the name of a constant,
or a literal, or else a parameter. Names that are generated on the way do not occur in the source, and
so are none of its words.

## Main definitions

* `Source.Flat`: a text of words and operators.
* `Context.wordConstant?`: the constant that a word stands for.
* `Context.Valued`: constants that are named ones, or literals under generated names.
* `Context.KnowsWords`: tables in which every word stands for what it stands for by itself.

## Main results

* `Source.Marked.operands_eq`: the operands of a marked text are the words of the text.
* `Context.exists_classify`: operands that are sorted out.
* `Context.KnowsWords.of_classify`: the tables once the words are sorted out.
* `Context.KnowsWords.names`: the parameters of texts whose words correspond to each other.
-/

namespace Formula

open Text

namespace Source

/-- A text in which no number is found that is to be taken out. -/
def Unnumbered (source : Text) : Prop :=
  ∀ start first last v, Extractor.scanNumber source start ≠ .found first last v

/-- Numbers are found at digits and at `&` only. -/
theorem unnumbered_of_all {source : Text}
    (h : (source.all fun c => !isDecimalDigit c && c != '&') = true) : Unnumbered source := by
  refine Extractor.scanNumber_ne_found_of_touches fun before rest htext hnumber => ?_
  cases rest with
  | nil => cases hnumber
  | cons c rest =>
    have hc := List.all_eq_true.mp h c (by simp [htext])
    simp only [Bool.and_eq_true, Bool.not_eq_true', bne_iff_ne] at hc
    rw [Extractor.takeNumber?_cons_eq_none hc.1 hc.2] at hnumber
    cases hnumber

/-- A text of words and operators, from which nothing is taken out. -/
structure Flat (source : Text) : Prop where
  ne_nil : source ≠ []
  chars : ∀ c ∈ source, isIdentifierChar c = true ∨ isOperatorChar c = true ∧ c ≠ '@'
  unnumbered : Unnumbered source

/-! ### Operands are words -/

/-- Behind a token the words are those of the text. -/
theorem exists_splitOnP_append {token : Text} (hne : token ≠ [])
    (htoken : ∀ c ∈ token, isIdentifierChar c = false) (text : Text) :
    ∃ zs, ((token ++ text).splitOnP fun c => !isIdentifierChar c) = [] :: zs ∧
      zs.filter (· ≠ []) = words text := by
  obtain ⟨c, token, rfl⟩ := List.exists_cons_of_ne_nil hne
  obtain ⟨hc, hrest⟩ := List.forall_mem_cons.mp htoken
  refine ⟨(token ++ text).splitOnP fun c => !isIdentifierChar c, ?_, ?_⟩
  · rw [List.cons_append, List.splitOnP_cons_eq_if_modifyHead, if_pos (by simp [hc])]
  · change words (token ++ text) = words text
    clear hne htoken hc
    induction token with
    | nil => rfl
    | cons d token ih =>
      obtain ⟨hd, hrest⟩ := List.forall_mem_cons.mp hrest
      rw [List.cons_append, words_cons hd, ih hrest]

/-- The operands of a marked text are the words of the text, if all else in it is operators. -/
theorem Marked.operands_eq {text marked : Text} (h : Marked text marked)
    (hchars : ∀ c ∈ text, isIdentifierChar c = true ∨ isOperatorChar c = true) :
    Markers.common.operands marked = words text := by
  -- what stands before a text may continue its first operand, so that one is kept apart
  have hjoin {text marked : Text} (h : ∃ y ys zs, Markers.common.operandsFrom 0 marked = y :: ys ∧
      (text.splitOnP fun c => !isIdentifierChar c) = y :: zs ∧
        ys.filter (· ≠ []) = zs.filter (· ≠ [])) : Markers.common.operands marked = words text := by
    obtain ⟨y, ys, zs, hoperands, hsplit, heq⟩ := h
    rw [Markers.operands, hoperands, words, hsplit, List.filter_cons, List.filter_cons, heq]
  have hpassed {token mark text marked : Text} (htoken : (token, mark) ∈ Markers.common.tokens)
      (hoperands : Markers.common.operands marked = words text) :
      ∃ y ys zs, Markers.common.operandsFrom 0 (mark ++ marked) = y :: ys ∧
        ((token ++ text).splitOnP fun c => !isIdentifierChar c) = y :: zs ∧
          ys.filter (· ≠ []) = zs.filter (· ≠ []) := by
    obtain ⟨hne, htokenChars, -⟩ := token_cases htoken
    obtain ⟨zs, hsplit, hzs⟩ := exists_splitOnP_append hne
      (fun c hc => isIdentifierChar_of_isOperatorChar (htokenChars c hc).1) text
    exact ⟨[], _, zs, operandsFrom_token htoken marked, hsplit, hoperands.trans hzs.symm⟩
  refine hjoin ?_
  induction h with
  | nil => exact ⟨[], [], [], rfl, rfl, rfl⟩
  | @char c text marked hc h ih =>
    obtain ⟨hfirst, hchars⟩ := List.forall_mem_cons.mp hchars
    rcases hfirst with hword | hop
    · obtain ⟨y, ys, zs, hoperands, hsplit, heq⟩ := ih hchars
      refine ⟨c :: y, ys, zs, ?_, ?_, heq⟩
      · have happend := Markers.operandsFrom_append (x := [c])
          (List.forall_mem_singleton.mpr (by rw [isBareChar, hword, Bool.true_or])) marked
        rw [List.singleton_append, hoperands] at happend
        exact happend
      · rw [List.splitOnP_cons_eq_if_modifyHead, if_neg (by simp [hword]), hsplit]
        rfl
    · exact hpassed (mem_tokens_of_isOperatorChar hop hc) (hjoin (ih hchars))
  | @mark token w text marked hw htoken h ih =>
    simpa using hpassed htoken (hjoin (ih fun c hc => hchars c (List.mem_append_right _ hc)))

end Source

namespace Context

/-! ### Constants -/

/-- The constant that a word stands for by itself: a named one, or a literal. -/
def wordConstant? (word : Text) : Option Constant :=
  ((start []).constants.lookup word).or ((Literal.ofGrammar? word).map fun v => ⟨v, word⟩)

/-- A generated name that does not occur in the source. -/
def IsFreshName (source key : Text) : Prop :=
  (∃ n, key = generatedName n) ∧ Text.contains key source = false

theorem not_isFreshName_of_mem_words {source word : Text} (h : word ∈ words source) :
    ¬IsFreshName source word := fun hfresh => by
  obtain ⟨before, rest, heq, -⟩ := exists_of_mem_words h
  have := Text.contains_iff.mpr ⟨before, rest, heq⟩
  rw [hfresh.2] at this
  cases this

/-- A generated name is not the name of a constant. -/
theorem IsFreshName.lookup_eq_none {source key : Text} (h : IsFreshName source key) :
    (start []).constants.lookup key = none := by
  obtain ⟨⟨n, rfl⟩, -⟩ := h
  have hall : ((start []).constants.all fun entry => entry.1.head? != some 'i') = true := by decide
  refine List.lookup_eq_none_iff.mpr fun entry hentry => bne_iff_ne.mpr fun heq => ?_
  have := List.all_eq_true.mp hall entry hentry
  rw [← heq] at this
  cases this

theorem isFreshName_freshName (ctx : Context) : IsFreshName ctx.source ctx.freshName.1 :=
  ⟨⟨_, rfl⟩, (contains_freshName ctx).1⟩

/-- The constants are the named ones, and the literals under generated names. -/
structure Valued (ctx : Context) : Prop where
  named : ∀ key, ¬IsFreshName ctx.source key →
    ctx.constants.lookup key = (start []).constants.lookup key
  literal : ∀ key name, ctx.literals.lookup key = some name → (∀ c ∈ key, isIdentifierChar c = true) ∧
    ∃ v, Literal.ofGrammar? key = some v ∧ ctx.constants.lookup name = some ⟨v, key⟩

namespace Valued

variable {ctx : Context} {key : Text} (h : Valued ctx)
include h

/-- A constant is the one that the word stands for by itself. -/
theorem constant?_eq (hkey : ¬IsFreshName ctx.source key) (hsome : (ctx.constant? key).isSome) :
    ctx.constant? key = wordConstant? key := by
  rw [constant?, h.named key hkey] at hsome ⊢
  rw [wordConstant?]
  cases hnamed : (start []).constants.lookup key with
  | some c => rfl
  | none =>
    rw [hnamed, Option.none_or] at hsome
    cases hlookup : ctx.literals.lookup key with
    | none =>
      rw [hlookup] at hsome
      cases hsome
    | some name =>
      obtain ⟨-, v, hv, hconstant⟩ := h.literal key name hlookup
      rw [Option.none_or, Option.none_or, Option.bind_some, hconstant, hv]
      rfl

theorem isSome_constant?_iff (hkey : ¬IsFreshName ctx.source key) : (ctx.constant? key).isSome ↔
    ((start []).constants.lookup key).isSome ∨ (ctx.literals.lookup key).isSome := by
  rw [constant?, h.named key hkey, Option.isSome_or, Bool.or_eq_true]
  refine or_congr_right ⟨fun hsome => ?_, fun hsome => ?_⟩
  · obtain ⟨c, hc⟩ := Option.isSome_iff_exists.mp hsome
    obtain ⟨name, hname, -⟩ := Option.bind_eq_some_iff.mp hc
    rw [hname]
    rfl
  · obtain ⟨name, hname⟩ := Option.isSome_iff_exists.mp hsome
    obtain ⟨-, v, -, hconstant⟩ := h.literal key name hname
    rw [hname, Option.bind_some, hconstant]
    rfl

theorem intern {text : Text} {v : Value} (hchars : ∀ c ∈ text, isIdentifierChar c = true)
    (hvalue : Literal.ofGrammar? text = some v) : Valued (ctx.intern v text).2 := by
  rw [Context.intern]
  split
  · exact h
  · have hfresh := isFreshName_freshName ctx
    have hfree := ctx.freshName_free
    simp only [isTaken, isKnown, Bool.or_eq_false_iff] at hfree
    have hunknown : ctx.constants.lookup ctx.freshName.1 = none := by
      have hconstant := hfree.2.1.1
      rw [constant?, Option.isSome_or, Bool.or_eq_false_iff] at hconstant
      simpa using hconstant.1
    refine ⟨fun key hkey => ?_, fun key name hlookup => ?_⟩
    · change ¬IsFreshName ctx.source key at hkey
      change List.lookup key ((ctx.freshName.1, _) :: ctx.constants) = _
      have hne : key ≠ ctx.freshName.1 := by
        rintro rfl
        exact hkey hfresh
      rw [List.lookup_cons, beq_false_of_ne hne]
      exact h.named key hkey
    · change List.lookup key ((text, ctx.freshName.1) :: ctx.literals) = some name at hlookup
      change _ ∧ ∃ w, _ ∧
        List.lookup name ((ctx.freshName.1, ⟨v, text⟩) :: ctx.constants) = some ⟨w, key⟩
      rw [List.lookup_cons] at hlookup
      split at hlookup
      · next heq =>
        obtain rfl := eq_of_beq heq
        obtain rfl := Option.some.inj hlookup
        exact ⟨hchars, v, hvalue, List.lookup_cons_self ..⟩
      · obtain ⟨hkey, w, hw, hname⟩ := h.literal key name hlookup
        have hne : name ≠ ctx.freshName.1 := by
          rintro rfl
          rw [hunknown] at hname
          cases hname
        refine ⟨hkey, w, hw, ?_⟩
        rw [List.lookup_cons, beq_false_of_ne hne]
        exact hname

end Valued

/-! ### Sorting words out -/

/-- What one operand does when operands are sorted out: nothing if it is known or found, else it is a
literal, or it is found. -/
theorem classify_cons_cases {operand : Text} {rest : List Text} {found : List (Nat × Text)}
    {ctx : Context} {sorted : List (Nat × Text) × Context}
    (h : classify Registry.standard (operand :: rest) found ctx = .ok sorted) :
    ((ctx.isKnown operand = true ∨ operand ∈ found.map Prod.snd) ∧
      classify Registry.standard rest found ctx = .ok sorted) ∨
    ctx.isKnown operand = false ∧
      ((∃ v, Literal.ofGrammar? operand = some v ∧
        classify Registry.standard rest found (ctx.intern v operand).2 = .ok sorted) ∨
      Literal.ofGrammar? operand = none ∧ ∃ place,
        classify Registry.standard rest (found ++ [(place, operand)]) ctx = .ok sorted) := by
  have hctx : { ctx with cancelled := ctx.cancelled || false } = ctx := by rw [Bool.or_false]
  have hparse : Literal.parse Registry.standard operand = (Literal.ofGrammar? operand, false) := rfl
  rw [classify] at h
  split at h
  · next hold =>
    refine .inl ⟨(Bool.or_eq_true_iff.mp hold).imp_right fun hfound => ?_, h⟩
    obtain ⟨entry, hentry, heq⟩ := List.any_eq_true.mp hfound
    exact List.mem_map.mpr ⟨entry, hentry, eq_of_beq heq⟩
  · next hnew =>
    rw [Bool.or_eq_true, not_or, Bool.not_eq_true] at hnew
    refine .inr ⟨hnew.1, ?_⟩
    rw [hparse] at h
    dsimp only at h
    rw [hctx] at h
    split at h
    · next v hv => exact .inl ⟨v, hv, h⟩
    · next hv =>
      split at h
      · split at h
        · exact .inr ⟨hv, _, h⟩
        · cases h
      · cases h

theorem isSome_lookup_intern {ctx : Context} {key : Text} (value : Value) (text : Text)
    (h : (ctx.literals.lookup key).isSome) :
    ((ctx.intern value text).2.literals.lookup key).isSome := by
  rw [intern]
  split
  · exact h
  · change (List.lookup key ((text, ctx.freshName.1) :: ctx.literals)).isSome
    rw [List.lookup_cons]
    split
    · rfl
    · exact h

theorem isSome_lookup_intern_self (ctx : Context) (value : Value) (text : Text) :
    ((ctx.intern value text).2.literals.lookup text).isSome := by
  rw [intern]
  split
  · next hname =>
    rw [hname]
    rfl
  · change (List.lookup text ((text, ctx.freshName.1) :: ctx.literals)).isSome
    rw [List.lookup_cons_self]
    rfl

/-- A word has been sorted out if it is a constant, or found as a word that is none. -/
def IsSettled (word : Text) (found : List (Nat × Text)) (ctx : Context) : Prop :=
  (ctx.constant? word).isSome ∨ wordConstant? word = none ∧ word ∈ found.map Prod.snd

theorem IsSettled.intern {word : Text} {found : List (Nat × Text)} {ctx : Context}
    (h : IsSettled word found ctx) (hvalued : Valued ctx) (hword : ¬IsFreshName ctx.source word)
    {v : Value} {text : Text} (hinterned : Valued (ctx.intern v text).2) :
    IsSettled word found (ctx.intern v text).2 := by
  refine h.imp_left fun hsome => ?_
  rw [hinterned.isSome_constant?_iff (by rwa [source_intern])]
  exact ((hvalued.isSome_constant?_iff hword).mp hsome).imp_right (isSome_lookup_intern v text)

/-- What is known or found before there are parameters has been sorted out, unless it is a symbol. -/
theorem IsSettled.of_isKnown {word : Text} {found : List (Nat × Text)} {ctx : Context}
    (h : ctx.isKnown word = true ∨ word ∈ found.map Prod.snd) (hsymbol : ctx.symbol? word = none)
    (hparams : ctx.params = []) (hfound : ∀ p ∈ found, wordConstant? p.2 = none) :
    IsSettled word found ctx := by
  rcases h with hknown | hmem
  · left
    simpa [isKnown, hsymbol, hparams, parameterIndex?] using hknown
  · obtain ⟨p, hp, rfl⟩ := List.mem_map.mp hmem
    exact .inr ⟨hfound p hp, hmem⟩

theorem IsSettled.append {word : Text} {found : List (Nat × Text)} {ctx : Context}
    (h : IsSettled word found ctx) (more : List (Nat × Text)) :
    IsSettled word (found ++ more) ctx := by
  refine h.imp_right fun hword => ⟨hword.1, ?_⟩
  rw [List.map_append]
  exact List.mem_append_left _ hword.2

/-- An operand that is not known is no constant if it is no literal. -/
theorem wordConstant?_of_not_known {operand : Text} {ctx : Context} (hvalued : Valued ctx)
    (hfresh : ¬IsFreshName ctx.source operand) (hconstant : ctx.constant? operand = none)
    (hliteral : Literal.ofGrammar? operand = none) : wordConstant? operand = none := by
  rw [constant?, Option.or_eq_none_iff, hvalued.named operand hfresh] at hconstant
  rw [wordConstant?, hconstant.1, hliteral]
  rfl

/-- Sorting operands out settles all of them that are words of the source, and nothing that is
found is a constant. -/
theorem classify_settled {operands : List Text} {found found' : List (Nat × Text)} {ctx ctx' : Context}
    (h : classify Registry.standard operands found ctx = .ok (found', ctx'))
    (hvalued : Valued ctx) (hparams : ctx.params = [])
    (hfound : ∀ p ∈ found, wordConstant? p.2 = none)
    (hoperands : ∀ w ∈ operands, (ctx.symbol? w).isSome ∨
      ¬IsFreshName ctx.source w ∧ ∀ c ∈ w, isIdentifierChar c = true) :
    Valued ctx' ∧ (∀ p ∈ found', wordConstant? p.2 = none) ∧
      ∀ w, ¬IsFreshName ctx.source w → ctx.symbol? w = none ∧ w ∈ operands ∨ IsSettled w found ctx →
        IsSettled w found' ctx' := by
  induction operands generalizing found ctx with
  | nil =>
    obtain ⟨rfl, rfl⟩ := Prod.mk.inj (Except.ok.inj h)
    exact ⟨hvalued, hfound, fun w _ hw => hw.resolve_left (by simp)⟩
  | cons operand rest ih =>
    obtain ⟨hoperand, hrest⟩ := List.forall_mem_cons.mp hoperands
    -- what is settled stays so, and the operand is settled as well
    have hnext {found₁ : List (Nat × Text)} {ctx₁ : Context}
        (h : classify Registry.standard rest found₁ ctx₁ = .ok (found', ctx')) (hvalued : Valued ctx₁)
        (hsource : ctx₁.source = ctx.source) (hsymbols : ctx₁.symbols = ctx.symbols)
        (hparams : ctx₁.params = []) (hfound : ∀ p ∈ found₁, wordConstant? p.2 = none)
        (hkept : ∀ w, ¬IsFreshName ctx.source w → IsSettled w found ctx → IsSettled w found₁ ctx₁)
        (hself : ctx.symbol? operand = none → IsSettled operand found₁ ctx₁) :
        Valued ctx' ∧ (∀ p ∈ found', wordConstant? p.2 = none) ∧
          ∀ w, ¬IsFreshName ctx.source w →
            ctx.symbol? w = none ∧ w ∈ operand :: rest ∨ IsSettled w found ctx →
              IsSettled w found' ctx' := by
      have hlookup (key : Text) : ctx₁.symbol? key = ctx.symbol? key := by
        rw [symbol?, hsymbols, symbol?]
      obtain ⟨hvalued', hfound', hsettled⟩ := ih h hvalued hparams hfound fun w hw => by
        rw [hlookup, hsource]
        exact hrest w hw
      refine ⟨hvalued', hfound', fun w hw hcase => hsettled w (by rwa [hsource]) ?_⟩
      rw [hlookup]
      rcases hcase with ⟨hsymbol, hmem⟩ | hcase
      · rcases List.mem_cons.mp hmem with rfl | hmem
        · exact .inr (hself hsymbol)
        · exact .inl ⟨hsymbol, hmem⟩
      · exact .inr (hkept w hw hcase)
    rcases classify_cons_cases h with ⟨hold, h⟩ | ⟨hnew, hcases⟩
    · exact hnext h hvalued rfl rfl hparams hfound (fun _ _ => id) fun hsymbol =>
        .of_isKnown hold hsymbol hparams hfound
    simp only [isKnown, Bool.or_eq_false_iff, Option.isSome_eq_false_iff,
      Option.isNone_iff_eq_none] at hnew
    obtain ⟨⟨hconstant, hsymbol⟩, -⟩ := hnew
    obtain ⟨hfresh, hchars⟩ := hoperand.resolve_left (by simp [hsymbol])
    rcases hcases with ⟨v, hv, h⟩ | ⟨hv, place, h⟩
    · have hinterned := hvalued.intern hchars hv
      refine hnext h hinterned (source_intern ..) (symbols_intern ..)
        ((params_intern ..).trans hparams) hfound (fun w hw hsettled =>
          hsettled.intern hvalued hw hinterned) fun _ => .inl ?_
      rw [hinterned.isSome_constant?_iff (by rwa [source_intern])]
      exact .inr (isSome_lookup_intern_self ctx v operand)
    · have hnone := wordConstant?_of_not_known hvalued hfresh hconstant hv
      exact hnext h hvalued rfl rfl hparams
        (List.forall_mem_append.mpr ⟨hfound, List.forall_mem_singleton.mpr hnone⟩)
        (fun _ _ hsettled => hsettled.append _) fun _ => .inr ⟨hnone, by simp⟩

/-- Operands are sorted out if each is a symbol, a constant, or the name of a parameter. -/
theorem exists_classify {operands : List Text} {found : List (Nat × Text)} {ctx : Context}
    (hvalued : Valued ctx) (hoperands : ∀ w ∈ operands, (ctx.symbol? w).isSome ∨
      (¬IsFreshName ctx.source w ∧ ∀ c ∈ w, isIdentifierChar c = true) ∧
        ((wordConstant? w).isSome ∨ isIdentifier w = true ∧ (firstWord? w ctx.unquoted).isSome)) :
    ∃ sorted, classify Registry.standard operands found ctx = .ok sorted := by
  induction operands generalizing found ctx with
  | nil => exact ⟨_, rfl⟩
  | cons operand rest ih =>
    obtain ⟨hoperand, hrest⟩ := List.forall_mem_cons.mp hoperands
    have hctx : { ctx with cancelled := ctx.cancelled || false } = ctx := by rw [Bool.or_false]
    have hparse : Literal.parse Registry.standard operand = (Literal.ofGrammar? operand, false) := rfl
    rw [classify]
    split
    · exact ih hvalued hrest
    · next hnew =>
      rw [Bool.or_eq_true, not_or, Bool.not_eq_true] at hnew
      simp only [isKnown, Bool.or_eq_false_iff, Option.isSome_eq_false_iff,
        Option.isNone_iff_eq_none] at hnew
      obtain ⟨⟨⟨hconstant, hsymbol⟩, -⟩, -⟩ := hnew
      obtain ⟨⟨hfresh, hchars⟩, hcases⟩ := hoperand.resolve_left (by simp [hsymbol])
      rw [hparse]
      dsimp only
      rw [hctx]
      cases hv : Literal.ofGrammar? operand with
      | some v =>
        refine ih (hvalued.intern hchars hv) fun w hw => ?_
        rw [symbol?, symbols_intern, source_intern, unquoted_intern]
        exact hrest w hw
      | none =>
        rw [constant?, Option.or_eq_none_iff, hvalued.named operand hfresh] at hconstant
        obtain ⟨hidentifier, hplace⟩ := hcases.resolve_left
          (by rw [wordConstant?, hconstant.1, hv]; simp)
        obtain ⟨place, hplace⟩ := Option.isSome_iff_exists.mp hplace
        dsimp only
        rw [hplace]
        dsimp only
        rw [if_pos hidentifier]
        exact ih hvalued hrest

/-! ### Tables of words -/

/-- The tables of a source once its words are sorted out: the words stand for constants, or are the
names of parameters. -/
structure KnowsWords (source : Text) (ctx : Context) : Prop where
  source_eq : ctx.source = source
  valued : Valued ctx
  constant : ∀ w ∈ words source, ctx.constant? w = wordConstant? w
  params : ∃ found, ctx.params = orderedParameters found ∧ Found source [] found ∧
    ∀ w, w ∈ found.map Prod.snd ↔ w ∈ words source ∧ wordConstant? w = none

theorem KnowsWords.of_classify {source : Text} {operands : List Text} {ctx ctx' : Context}
    {found : List (Nat × Text)}
    (h : classify Registry.standard operands [] ctx = .ok (found, ctx')) (hvalued : Valued ctx)
    (hsourced : Sourced source source [] ctx) (hparams : ctx.params = [])
    (hwords : ∀ w ∈ words source, ctx.symbol? w = none ∧ w ∈ operands)
    (hoperands : ∀ w ∈ operands, (ctx.symbol? w).isSome ∨ w ∈ words source) :
    KnowsWords source { ctx' with params := orderedParameters found } := by
  obtain ⟨hsourced', hfound⟩ := classify_found h hsourced ⟨by simp, by simp, by simp, List.nodup_nil⟩
  have hfresh {w : Text} (hw : w ∈ words source) : ¬IsFreshName source w :=
    not_isFreshName_of_mem_words hw
  obtain ⟨hvalued', hnone, hsettled⟩ := classify_settled h hvalued hparams (by simp) fun w hw =>
    (hoperands w hw).imp_right fun hw => ⟨hsourced.source_eq ▸ hfresh hw,
      isIdentifierChar_of_mem_words hw⟩
  have hword {w : Text} (hw : w ∈ words source) : IsSettled w found ctx' :=
    hsettled w (hsourced.source_eq ▸ hfresh hw) (.inl (hwords w hw))
  have hconstant {w : Text} (hw : w ∈ words source) : ctx'.constant? w = wordConstant? w := by
    cases hknown : ctx'.constant? w with
    | some c => rw [← hknown, hvalued'.constant?_eq (hsourced'.source_eq ▸ hfresh hw) (by simp [hknown])]
    | none => exact ((hword hw).resolve_left (by simp [hknown])).1.symm
  refine ⟨hsourced'.source_eq, ⟨hvalued'.named, hvalued'.literal⟩, fun w hw => hconstant hw, found,
    rfl, hfound, fun w => ⟨fun hw => ?_, fun ⟨hw, hvalue⟩ => ?_⟩⟩
  · obtain ⟨p, hp, rfl⟩ := List.mem_map.mp hw
    exact ⟨mem_words_of_firstWord? (hfound.identifier p hp) (hfound.word p hp), hnone p hp⟩
  · refine ((hword hw).resolve_left ?_).2
    rw [hconstant hw, hvalue]
    decide

namespace KnowsWords

variable {source : Text} {ctx : Context} (h : KnowsWords source ctx)
include h

/-- Nothing else is a constant: no generated name stands for a word, and other literals are words. -/
theorem constant?_eq_none {key : Text} (hfresh : ¬IsFreshName source key)
    (hnamed : (start []).constants.lookup key = none)
    (hkey : Literal.ofGrammar? key = none ∨ ∃ c ∈ key, isIdentifierChar c = false) :
    ctx.constant? key = none := by
  refine Option.not_isSome_iff_eq_none.mp fun hsome => ?_
  rw [h.valued.isSome_constant?_iff (h.source_eq ▸ hfresh), hnamed] at hsome
  obtain ⟨name, hname⟩ := Option.isSome_iff_exists.mp (hsome.resolve_left (by simp))
  obtain ⟨hchars, v, hv, -⟩ := h.valued.literal key name hname
  rcases hkey with hnone | ⟨c, hc, hnot⟩
  · cases hnone.symm.trans hv
  · cases hnot.symm.trans (hchars c hc)

/-- A word that is no constant is an identifier. -/
theorem isIdentifier {w : Text} (hw : w ∈ words source) (hnone : wordConstant? w = none) :
    Text.isIdentifier w = true := by
  obtain ⟨found, -, hfound, hmem⟩ := h.params
  obtain ⟨p, hp, rfl⟩ := List.mem_map.mp ((hmem w).mpr ⟨hw, hnone⟩)
  exact hfound.identifier p hp

theorem mem_names_iff {name : Text} : name ∈ ctx.params.map (fun p => p.name.toList) ↔
    name ∈ words source ∧ wordConstant? name = none := by
  obtain ⟨found, hparams, -, hmem⟩ := h.params
  rw [hparams, mem_names_orderedParameters, hmem]

theorem unnamed_params : unnamed ctx.params =
    (ctx.params.map fun p => p.name.toList).map fun _ => ⟨"", TypeMask.all⟩ := by
  obtain ⟨found, hparams, -, -⟩ := h.params
  simp [hparams, unnamed, orderedParameters, Parameter.unnamed, Function.comp_def]

/-- The parameters of texts whose words correspond to each other correspond to each other, in the same
order. -/
theorem names {source' : Text} {ctx' : Context} {rename : Text → Text} (h' : KnowsWords source' ctx')
    (hwords : words source' = (words source).map rename)
    (hinj : ∀ a ∈ words source, ∀ b ∈ words source, rename a = rename b → a = b)
    (hconstant : ∀ w ∈ words source, wordConstant? (rename w) = wordConstant? w) :
    ctx'.params.map (fun p => p.name.toList) =
      (ctx.params.map fun p => p.name.toList).map rename := by
  obtain ⟨found, hparams, hfound, hmem⟩ := h.params
  obtain ⟨found', hparams', hfound', hmem'⟩ := h'.params
  rw [hparams, hparams']
  refine names_orderedParameters hwords hinj (fun name => ?_) hfound.distinct hfound'.distinct
    hfound.identifier hfound'.identifier hfound.word hfound'.word
  rw [hmem', hwords, List.mem_map]
  constructor
  · rintro ⟨⟨w, hw, rfl⟩, hnone⟩
    exact ⟨w, (hmem w).mpr ⟨hw, hconstant w hw ▸ hnone⟩, rfl⟩
  · rintro ⟨w, hw, rfl⟩
    obtain ⟨hw, hnone⟩ := (hmem w).mp hw
    exact ⟨⟨w, hw, rfl⟩, (hconstant w hw).trans hnone⟩

end KnowsWords

theorem cancelled_classify {operands : List Text} {found : List (Nat × Text)} {ctx : Context}
    {sorted : List (Nat × Text) × Context}
    (h : classify Registry.standard operands found ctx = .ok sorted) :
    sorted.2.cancelled = ctx.cancelled := by
  induction operands generalizing found ctx with
  | nil => exact Except.ok.inj h ▸ rfl
  | cons operand rest ih =>
    rcases classify_cons_cases h with ⟨-, h⟩ | ⟨-, ⟨v, -, h⟩ | ⟨-, place, h⟩⟩
    · exact ih h
    · exact (ih h).trans (cancelled_intern ..)
    · exact ih h

/-- Names of symbols are kept apart from constants. -/
theorem apart_classify {operands : List Text} {found : List (Nat × Text)} {ctx : Context}
    {sorted : List (Nat × Text) × Context}
    (h : classify Registry.standard operands found ctx = .ok sorted) {key : Text}
    (hkey : (ctx.symbol? key).isSome) (hconstants : ctx.constants.lookup key = none)
    (hliterals : ctx.literals.lookup key = none) : sorted.2.constant? key = none := by
  induction operands generalizing found ctx with
  | nil =>
    obtain rfl := Except.ok.inj h
    rw [constant?, hconstants, hliterals]
    rfl
  | cons operand rest ih =>
    rcases classify_cons_cases h with ⟨-, h⟩ | ⟨hnew, ⟨v, -, h⟩ | ⟨-, place, h⟩⟩
    · exact ih h hkey hconstants hliterals
    · have hoperand : key ≠ operand := by
        rintro rfl
        simp [isKnown, hkey] at hnew
      have hname : key ≠ ctx.freshName.1 := by
        rintro rfl
        have hfree := ctx.freshName_free
        simp [isTaken, isKnown, hkey] at hfree
      refine ih h (by rwa [symbol?, symbols_intern]) ?_ ?_
      · rw [intern]
        split
        · exact hconstants
        · change List.lookup key ((ctx.freshName.1, _) :: ctx.constants) = none
          rwa [List.lookup_cons, beq_false_of_ne hname]
      · rw [intern]
        split
        · exact hliterals
        · change List.lookup key ((operand, ctx.freshName.1) :: ctx.literals) = none
          rwa [List.lookup_cons, beq_false_of_ne hoperand]
    · exact ih h hkey hconstants hliterals

/-- The tables of a source before its words are sorted out, with the symbols that stand for its parts. -/
def startTables (source : Text) (table : List (Text × Symbol)) (counter : Nat) : Context :=
  { start source with symbols := table, counter }

section StartTables

variable {source : Text} {table : List (Text × Symbol)} {counter : Nat} {operands : List Text}

theorem valued_startTables : Valued (startTables source table counter) :=
  ⟨fun _ _ => rfl, fun _ _ h => by cases h⟩

theorem isSome_symbol?_startTables {key : Text} :
    ((startTables source table counter).symbol? key).isSome ↔ key ∈ table.map Prod.fst :=
  isSome_symbol?_iff

/-- The tables know the words of the source once the operands are sorted out. -/
theorem knowsWords_of_classify {found : List (Nat × Text)} {ctx : Context}
    (h : classify Registry.standard operands [] (startTables source table counter) = .ok (found, ctx))
    (htable : ∀ key ∈ table.map Prod.fst, key = mainName ∨ IsFreshName source key)
    (hwords : ∀ w ∈ words source, w ∈ operands)
    (hoperands : ∀ w ∈ operands, w ∈ table.map Prod.fst ∨ w ∈ words source) :
    KnowsWords source { ctx with params := orderedParameters found } ∧ ctx.cancelled = false ∧
      ctx.symbols = table := by
  have hsourced : Sourced source source [] (startTables source table counter) := by
    refine ⟨rfl, rfl, fun name hname => ?_, by simp, fun name hname => absurd hname List.not_mem_nil⟩
    obtain ⟨hname, hne⟩ := List.mem_filter.mp hname
    rcases htable name hname with rfl | ⟨hgenerated, hfree⟩
    · simp at hne
    · exact ⟨hfree, hgenerated⟩
  refine ⟨.of_classify h valued_startTables hsourced rfl (fun w hw => ⟨?_, hwords w hw⟩)
    fun w hw => (hoperands w hw).imp_left isSome_symbol?_startTables.mpr, cancelled_classify h,
    symbols_classify h⟩
  refine Option.not_isSome_iff_eq_none.mp fun hsome => ?_
  exact (htable w (isSome_symbol?_startTables.mp hsome)).elim (ne_nil_of_mem_words hw)
    (not_isFreshName_of_mem_words hw)

/-- Words are sorted out if each of them is a constant or an identifier. -/
theorem exists_classify_startTables (source : Text) (table : List (Text × Symbol)) (counter : Nat)
    (hoperands : ∀ w ∈ operands, w ∈ table.map Prod.fst ∨ w ∈ words source ∧
      ((wordConstant? w).isSome ∨ isIdentifier w = true)) :
    ∃ sorted, classify Registry.standard operands [] (startTables source table counter) = .ok sorted := by
  refine exists_classify valued_startTables fun w hw => ?_
  refine (hoperands w hw).imp isSome_symbol?_startTables.mpr fun ⟨hmem, hcases⟩ =>
    ⟨⟨not_isFreshName_of_mem_words hmem, isIdentifierChar_of_mem_words hmem⟩,
      hcases.imp_right fun hidentifier => ⟨hidentifier, ?_⟩⟩
  obtain ⟨place, hplace⟩ := exists_firstWord?_of_mem_words hidentifier hmem
  exact Option.isSome_iff_exists.mpr ⟨place, hplace⟩

end StartTables

end Context

/-! ### Compiling a text of words and operators -/

namespace Source.Flat

open Context

variable {source : Text} (h : Flat source)
include h

theorem not_mem {c : Char} (hc : isIdentifierChar c = false) (hop : isOperatorChar c = false ∨ c = '@') :
    c ∉ source := fun hmem => by
  rcases h.chars c hmem with hword | ⟨hisop, hne⟩
  · cases hc.symm.trans hword
  · exact hop.elim (fun hnot => by cases hnot.symm.trans hisop) hne

theorem withoutBlanks : Text.withoutBlanks source = source := by
  refine List.filter_eq_self.mpr fun c hc => ?_
  rw [Bool.not_eq_true']
  rcases h.chars c hc with hword | ⟨hop, -⟩
  · exact isBlank_of_isIdentifierChar hword
  · have hall : (['@', '!', '#', '%', '&', '*', '+', '-', '/', '<', '=', '>', '^', '|'].all
        fun c => !Text.isBlank c) = true := by decide
    exact (Bool.not_eq_true' _).mp (List.all_eq_true.mp hall c (of_decide_eq_true hop))

theorem extractLiterals (style : Precedence) :
    (start source).extractLiterals (Compiler.common style).definition
      (Compiler.common style).registry = (source, start source) :=
  extractLiterals_eq_self h.withoutBlanks (h.not_mem (by decide) (.inl (by decide)))
    (h.not_mem (by decide) (.inl (by decide))) h.unnumbered style

theorem marked : Marked source (Markers.common.mark source) :=
  marked_mark (h.not_mem (by decide) (.inr rfl))

theorem mark_ne_nil : Markers.common.mark source ≠ [] := fun hnil => by
  have hmarked := h.marked
  rw [hnil] at hmarked
  cases hmarked
  exact h.ne_nil rfl

theorem not_mem_mark : '(' ∉ Markers.common.mark source := fun hmem =>
  h.not_mem (by decide) (.inl (by decide)) (h.marked.mem_of_mem (by decide) hmem)

theorem operands : Markers.common.operands (Markers.common.mark source) = words source :=
  h.marked.operands_eq fun c hc => (h.chars c hc).imp_right And.left

/-- The outcome of compiling a text of words and operators: its words are sorted out, and the tree is
built. -/
theorem outcome_compile (style : Precedence) : ((Compiler.common style).compile source false).outcome =
    (classify Registry.standard (words source) []
      (startTables source [(mainName, ⟨Markers.common.mark source, false⟩)] 0)).bind fun sorted =>
        (Compiler.common style).buildTree { sorted.2 with params := orderedParameters sorted.1 } := by
  have hopen : '(' ∉ source := h.not_mem (by decide) (.inl (by decide))
  have hclose : ')' ∉ source := h.not_mem (by decide) (.inl (by decide))
  have hmarked : ({ start source with symbols := [(mainName, ⟨source, false⟩)] } : Context).markSymbols
      Markers.common = startTables source [(mainName, ⟨Markers.common.mark source, false⟩)] 0 := rfl
  have hoperands : (startTables source [(mainName, ⟨Markers.common.mark source, false⟩)] 0).tableOperands
      (Compiler.common style).tokens = words source := by
    rw [tableOperands, sortedSymbols, startTables, List.mergeSort_singleton, List.flatMap_singleton,
      symbolOperands, if_neg Bool.false_ne_true, Compiler.markers_common, h.operands]
  rw [Compiler.outcome_compile_eq_bind (h.extractLiterals style),
    Compiler.resolve_flat h.ne_nil hopen hclose rfl rfl, populate_eq,
    Compiler.markers_common, hmarked, hoperands]
  cases classify Registry.standard (words source) []
    (startTables source [(mainName, ⟨Markers.common.mark source, false⟩)] 0) <;> rfl

/-- The tables of a text of words and operators, once its words are sorted out. -/
structure Tables (source : Text) (style : Precedence) (ctx : Context) : Prop where
  knows : KnowsWords source ctx
  cancelled : ctx.cancelled = false
  symbols : ctx.symbols = [(mainName, ⟨Markers.common.mark source, false⟩)]
  outcome : ((Compiler.common style).compile source false).outcome = (Compiler.common style).buildTree ctx

theorem tables_of_classify {style : Precedence} {sorted : List (Nat × Text) × Context}
    (hsorted : classify Registry.standard (words source) []
      (startTables source [(mainName, ⟨Markers.common.mark source, false⟩)] 0) = .ok sorted) :
    Tables source style { sorted.2 with params := orderedParameters sorted.1 } := by
  obtain ⟨hknows, hcancelled, hsymbols⟩ := knowsWords_of_classify hsorted
    (fun key hkey => .inl (List.mem_singleton.mp hkey)) (fun _ => id) fun _ hw => .inr hw
  refine ⟨hknows, hcancelled, hsymbols, ?_⟩
  rw [h.outcome_compile, hsorted]
  rfl

/-- A text that is recognized has tables. -/
theorem exists_tables {style : Precedence} (hrecognized :
    ((Compiler.common style).expression (String.ofList source)).isRecognized = true) :
    ∃ ctx, Tables source style ctx := by
  rw [Compiler.expression, String.toList_ofList, h.outcome_compile] at hrecognized
  cases hsorted : classify Registry.standard (words source) []
      (startTables source [(mainName, ⟨Markers.common.mark source, false⟩)] 0) with
  | ok sorted => exact ⟨_, h.tables_of_classify hsorted⟩
  | error fault =>
    rw [hsorted] at hrecognized
    cases hrecognized

/-- A text whose words are constants or identifiers has tables. -/
theorem exists_tables_of_words (style : Precedence)
    (hwords : ∀ w ∈ words source, (wordConstant? w).isSome ∨ isIdentifier w = true) :
    ∃ ctx, Tables source style ctx := by
  obtain ⟨sorted, hsorted⟩ := exists_classify_startTables source
    [(mainName, ⟨Markers.common.mark source, false⟩)] 0 fun w hw => .inr ⟨hw, hwords w hw⟩
  exact ⟨_, h.tables_of_classify hsorted⟩

omit h in
theorem Tables.generated {style : Precedence} {ctx : Context} (h : Tables source style ctx) (key : Text)
    (hkey : (ctx.symbol? key).isSome) : key = mainName ∨ IsFreshName source key := by
  rw [isSome_symbol?_iff, h.symbols] at hkey
  exact .inl (List.mem_singleton.mp hkey)

omit h in
theorem Tables.symbol?_mainName {style : Precedence} {ctx : Context} (h : Tables source style ctx) :
    ctx.symbol? mainName = some ⟨Markers.common.mark source, false⟩ := by
  rw [symbol?, h.symbols]
  rfl

omit h in
/-- The parameters of a recognized text are those of its tables. -/
theorem Tables.names {style : Precedence} {ctx : Context} (h : Tables source style ctx) (hrecognized :
    ((Compiler.common style).expression (String.ofList source)).isRecognized = true) :
    ((Compiler.common style).expression (String.ofList source)).parameters.map (fun p => p.name.toList) =
      ctx.params.map fun p => p.name.toList := by
  rw [Compiler.expression, String.toList_ofList, h.outcome] at hrecognized ⊢
  cases hbuild : (Compiler.common style).buildTree ctx with
  | error fault =>
    rw [hbuild] at hrecognized
    cases hrecognized
  | ok built =>
    have := congrArg (List.map String.toList) (Compiler.derives_of_buildTree hbuild).1
    rw [List.map_map, List.map_map] at this
    exact this

end Source.Flat

/-! ### A letter -/

theorem Source.flat_letter {name : Text} (h : name = ['x'] ∨ name = ['y']) : Flat name := by
  have hchars : name.all isIdentifierChar = true := by rcases h with rfl | rfl <;> decide
  refine ⟨?_, fun c hc => .inl (List.all_eq_true.mp hchars c hc), unnumbered_of_all ?_⟩ <;>
  rcases h with rfl | rfl <;> decide

namespace Compiler

open Context

variable {name : Text} (h : name = ['x'] ∨ name = ['y'])
include h

theorem outcome_letter : ((common .mathematical).compile name false).outcome =
    .ok (.parameter 0, [⟨String.ofList name, TypeMask.all⟩]) := by
  have hclassify : classify Registry.standard (words name) []
      (startTables name [(mainName, ⟨Markers.common.mark name, false⟩)] 0) = .ok ([(0, name)],
        startTables name [(mainName, ⟨name, false⟩)] 0) := by
    rcases h with rfl | rfl <;> rfl
  have hrun : ((TreeBuilder.common .mathematical { startTables name [(mainName, ⟨name, false⟩)] 0 with
      params := [⟨String.ofList name, TypeMask.all⟩] }).build mainName).run
        { params := [⟨String.ofList name, TypeMask.all⟩] } =
      (.ok (.parameter 0), { params := [⟨String.ofList name, TypeMask.all⟩] }) := by
    rcases h with rfl | rfl <;> rfl
  rw [(Source.flat_letter h).outcome_compile, hclassify]
  change (common .mathematical).buildTree { startTables name [(mainName, ⟨name, false⟩)] 0 with
    params := orderedParameters [(0, name)] } = _
  rw [orderedParameters_singleton]
  exact buildTree_common rfl hrun (Node.refresh_eq_iff.mp rfl).1

theorem isRecognized_letter :
    ((common .mathematical).expression (String.ofList name)).isRecognized = true := by
  rw [expression, String.toList_ofList, outcome_letter h]
  rfl

theorem names_letter : ((common .mathematical).expression (String.ofList name)).parameters.map
    (fun p => p.name.toList) = [name] := by
  rw [expression, String.toList_ofList, outcome_letter h]
  exact congrArg (fun name => [name]) (String.toList_ofList ..)

end Compiler

end Formula
