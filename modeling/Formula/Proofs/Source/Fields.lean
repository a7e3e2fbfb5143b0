import Formula.Proofs.Source.HexNumbers

/-!
# The fields between operators

Operators cut a text into fields. An operand that has no operator in it is a field, and a field that is
a name stays in sight however the text is split. What the tables know before there are parameters hides
no name: a key that has a name among its fields is that name, unless it is quoted, or it is a
hexadecimal number with an ampersand and would have been taken out.

## Main definitions

* `Text.fields`: the parts of a text between the characters of operators.
* `Source.IsAtomic`: a key that has no names for parts.

## Main results

* `Source.knowsOnly_extractLiterals`: the keys known when the literals are taken out.
-/

namespace Formula

open Text

namespace Text

/-! ### Fields -/

/-- Whether a character belongs to an operator, or ends a mark. -/
def isOperatorChar (c : Char) : Bool :=
  c ∈ ['@', '!', '#', '%', '&', '*', '+', '-', '/', '<', '=', '>', '^', '|']

/-- The parts of a text between the characters of operators. -/
def fields (text : Text) : List Text :=
  text.splitOnP isOperatorChar

theorem fields_append_cons {c : Char} (hc : isOperatorChar c = true) (a b : Text) :
    fields (a ++ c :: b) = fields a ++ fields b :=
  List.splitOnP_append_cons a b hc

theorem fields_of_forall {x : Text} (hx : ∀ c ∈ x, isOperatorChar c = false) : fields x = [x] :=
  List.splitOnP_eq_singleton fun c hc => by simp [hx c hc]

theorem isOperatorChar_of_isIdentifierChar {c : Char} (h : isIdentifierChar c = true) :
    isOperatorChar c = false := by
  have hall : (['@', '!', '#', '%', '&', '*', '+', '-', '/', '<', '=', '>', '^', '|'].all
      fun c => !isIdentifierChar c) = true := by decide
  refine decide_eq_false fun hmem => ?_
  have := List.all_eq_true.mp hall c hmem
  rw [h] at this
  cases this

theorem isIdentifierChar_of_isOperatorChar {c : Char} (h : isOperatorChar c = true) :
    isIdentifierChar c = false :=
  Bool.eq_false_of_not_eq_true fun hc => by
    cases (isOperatorChar_of_isIdentifierChar hc).symm.trans h

theorem isOperatorChar_of_isIdentifier {name : Text} (h : isIdentifier name = true) :
    ∀ c ∈ name, isOperatorChar c = false := fun c hc =>
  isOperatorChar_of_isIdentifierChar ((isIdentifierChar_of_isIdentifier h).2 c hc)

/-- A name does not start with a digit. -/
theorem isIdentifier_cons_of_isDecimalDigit {c : Char} (hc : isDecimalDigit c = true) (text : Text) :
    isIdentifier (c :: text) = false := by
  have hne : (c == '_') = false := beq_false_of_ne fun heq => by
    rw [heq] at hc
    revert hc
    decide
  rw [isIdentifier, isAlphabetic_of_isDecimalDigit hc, hne]
  rfl

/-- A token of an operator starts and ends with characters of operators. -/
theorem isOperatorChar_of_mem_tokens {entry : Text × Text} (h : entry ∈ Markers.common.tokens) :
    ∃ c token d, entry.2 = c :: token ∧ isOperatorChar c = true ∧
      (c :: token).getLast? = some d ∧ isOperatorChar d = true := by
  have hall : (Markers.common.tokens.all fun entry => entry.2.head?.any isOperatorChar &&
      entry.2.getLast?.any isOperatorChar) = true := by decide
  have := List.all_eq_true.mp hall entry h
  obtain ⟨hhead, hlast⟩ := Bool.and_eq_true_iff.mp this
  obtain ⟨c, hc, hchar⟩ := (Option.any_eq_true ..).mp hhead
  obtain ⟨d, hd, hlast⟩ := (Option.any_eq_true ..).mp hlast
  obtain ⟨token, htoken⟩ := List.head?_eq_some_iff.mp hc
  exact ⟨c, token, d, htoken, hchar, htoken ▸ hd, hlast⟩

end Text

namespace Source

/-! ### Atomic keys -/

/-- A key that has no names for parts. A hexadecimal number with an ampersand has one, but it does not
stand in a text that the numbers are taken out of. -/
structure IsAtomic (key : Text) : Prop where
  head : key.head? ≠ some 'h' ∧ key.head? ≠ some 'H'
  field : Unhexed key → ∀ p ∈ fields key, isIdentifier p = true → p = key

theorem isAtomic_of_forall {key : Text} (hhead : key.head? ≠ some 'h' ∧ key.head? ≠ some 'H')
    (h : ∀ c ∈ key, isOperatorChar c = false) : IsAtomic key := by
  refine ⟨hhead, fun _ p hp _ => ?_⟩
  rw [fields_of_forall h] at hp
  exact List.mem_singleton.mp hp

theorem isAtomic_generatedName (n : Nat) : IsAtomic (Context.generatedName n) :=
  isAtomic_of_forall ⟨nofun, nofun⟩ fun c hc =>
    isOperatorChar_of_isIdentifierChar ((generatedName_word n).2 c hc)

theorem isAtomic_bracketed {inner : Text} (h : (Constants.symbol? inner).isSome = true) :
    IsAtomic ('[' :: (inner ++ [']'])) := by
  refine isAtomic_of_forall ⟨nofun, nofun⟩ (forall_mem_bracketed h (by decide) (by decide)
    (fun c hc => ?_) fun c hc => ?_)
  · have hall : (['@', '!', '#', '%', '&', '*', '+', '-', '/', '<', '=', '>', '^', '|'].all
        fun c => !isBlank c) = true := by decide
    refine decide_eq_false fun hmem => ?_
    have := List.all_eq_true.mp hall c hmem
    rw [hc] at this
    cases this
  · exact isOperatorChar_of_isIdentifierChar (isIdentifierChar_of_toLower
      (List.all_eq_true.mp constantLetters_apart.2 _ hc))

/-- A word that starts with a digit has no names for parts. -/
theorem isAtomic_digit {c : Char} {word : Text} (hc : isDecimalDigit c = true)
    (hword : ∀ d ∈ word, isIdentifierChar d = true) : IsAtomic (c :: word) := by
  refine isAtomic_of_forall ⟨?_, ?_⟩ (List.forall_mem_cons.mpr
    ⟨isOperatorChar_of_isIdentifierChar (Extractor.isIdentifierChar_of_isDecimalDigit hc),
      fun d hd => isOperatorChar_of_isIdentifierChar (hword d hd)⟩)
  all_goals
    rintro ⟨⟩
    revert hc
    decide

/-- A number with an exponent has no names for parts: both fields start with a digit. -/
theorem isAtomic_exponential {whole fraction sign run : Text} {letter : Char}
    (h : Extractor.Exponential whole fraction letter sign run) :
    IsAtomic (whole ++ fraction ++ letter :: (sign ++ run)) := by
  obtain ⟨d, tail, rfl⟩ := List.exists_cons_of_ne_nil h.whole_ne_nil
  obtain ⟨e, run, rfl⟩ := List.exists_cons_of_ne_nil h.run_ne_nil
  have hd := h.whole d (List.mem_cons_self ..)
  have he := h.run e (List.mem_cons_self ..)
  have hmantissa : ∀ c ∈ tail ++ fraction ++ [letter], isIdentifierChar c = true := by
    refine List.forall_mem_append.mpr ⟨List.forall_mem_append.mpr ⟨fun c hc =>
      Extractor.isIdentifierChar_of_isDecimalDigit (h.whole c (List.mem_cons_of_mem _ hc)), ?_⟩,
      List.forall_mem_singleton.mpr ?_⟩
    · rcases h.fraction with rfl | ⟨digits, rfl, hdigits⟩
      · simp
      · exact List.forall_mem_cons.mpr ⟨by decide, fun c hc =>
          Extractor.isIdentifierChar_of_isDecimalDigit (hdigits c hc)⟩
    · rcases h.letter with rfl | rfl <;> decide
  have hrun : ∀ c ∈ e :: run, isIdentifierChar c = true := fun c hc =>
    Extractor.isIdentifierChar_of_isDecimalDigit (h.run c hc)
  have hsigned {s : Char} (hs : isOperatorChar s = true) (hsign : sign = [s]) :
      IsAtomic (d :: tail ++ fraction ++ letter :: (sign ++ e :: run)) := by
    refine ⟨by simpa using (isAtomic_digit hd hmantissa).head, fun _ p hp hidentifier => ?_⟩
    have hsplit : d :: tail ++ fraction ++ letter :: (sign ++ e :: run) =
        d :: (tail ++ fraction ++ [letter]) ++ s :: e :: run := by simp [hsign]
    rw [hsplit, fields_append_cons hs, fields_of_forall (List.forall_mem_cons.mpr
      ⟨isOperatorChar_of_isIdentifierChar (Extractor.isIdentifierChar_of_isDecimalDigit hd),
        fun c hc => isOperatorChar_of_isIdentifierChar (hmantissa c hc)⟩),
      fields_of_forall fun c hc => isOperatorChar_of_isIdentifierChar (hrun c hc),
      List.singleton_append, List.mem_cons, List.mem_singleton] at hp
    rcases hp with rfl | rfl
    · cases (isIdentifier_cons_of_isDecimalDigit hd _).symm.trans hidentifier
    · cases (isIdentifier_cons_of_isDecimalDigit he _).symm.trans hidentifier
  rcases h.sign with rfl | hsign | hsign
  · simpa using isAtomic_digit hd (List.forall_mem_append.mpr ⟨hmantissa, hrun⟩)
  · exact hsigned (by decide) hsign
  · exact hsigned (by decide) hsign

/-- A number that is taken out has no names for parts. -/
theorem isAtomic_number {text number rest : Text}
    (h : Extractor.takeNumber? text = some (number, rest))
    (hvalue : Extractor.hasValue number = true) : IsAtomic number := by
  rcases Option.or_eq_some_iff.mp h with h | ⟨-, h⟩
  · unfold Extractor.takeBinary? at h
    split at h
    · split at h
      · next hb =>
        obtain ⟨⟨run, rest'⟩, hrun, heq⟩ := Option.map_eq_some_iff.mp h
        obtain ⟨rfl, rfl⟩ := Prod.mk.inj heq
        have hall := (Extractor.eq_append_of_takeRun? hrun).2.2
        refine isAtomic_digit Extractor.isDecimalDigit_zero
          (List.forall_mem_cons.mpr ⟨?_, fun d hd => ?_⟩)
        · rcases hb with rfl | rfl <;> decide
        · have := hall d hd
          simp only [Bool.or_eq_true, beq_iff_eq] at this
          rcases this with (rfl | rfl) | rfl <;> decide
      · cases h
    · cases h
  rcases Option.or_eq_some_iff.mp h with h | ⟨-, h⟩
  · unfold Extractor.takeHex? at h
    split at h
    · split at h
      · next hmark =>
        obtain ⟨⟨run, rest'⟩, hrun, heq⟩ := Option.map_eq_some_iff.mp h
        obtain ⟨rfl, rfl⟩ := Prod.mk.inj heq
        obtain ⟨-, hne, hall⟩ := Extractor.eq_append_of_takeRun? hrun
        rcases hmark with ⟨rfl, hx⟩ | ⟨rfl, hx⟩
        · refine isAtomic_digit Extractor.isDecimalDigit_zero (List.forall_mem_cons.mpr
            ⟨?_, fun d hd => Extractor.isIdentifierChar_of_isHexDigit (hall d hd)⟩)
          rcases hx with rfl | rfl <;> decide
        · refine ⟨⟨nofun, nofun⟩, fun hunhexed => ?_⟩
          -- the number as a whole stands alone
          have := hunhexed [] (_ :: run) [] (congrArg _ (List.append_nil _).symm)
            ⟨by simp, by simp⟩ (by
            simp only [Extractor.isHexWord, Bool.and_eq_true, Bool.or_eq_true, beq_iff_eq,
              Bool.not_eq_true', List.isEmpty_eq_false_iff, List.all_eq_true]
            exact ⟨⟨hx, hne⟩, by simpa using hall⟩)
          cases hvalue.symm.trans this
      · cases h
    · cases h
  · obtain ⟨whole, fraction, letter, sign, run, -, rfl, hparts⟩ :=
      Extractor.exists_of_takeExponential? h
    exact isAtomic_exponential hparts

/-- What is known of the texts of literals, names and constants. -/
def IsAtomicOrQuoted (key : Text) : Prop :=
  '"' ∈ key ∨ IsAtomic key

/-- All keys that are known when the literals are taken out are atomic or quoted. -/
theorem knowsOnly_extractLiterals (style : Precedence) {source : Text} (hclosed : '"' ∉ tail source) :
    ((Context.start source).extractLiterals { precedence := style } Registry.standard).2.KnowsOnly
      IsAtomicOrQuoted := by
  have hname (n : Nat) : IsAtomicOrQuoted (Context.generatedName n) := .inr (isAtomic_generatedName n)
  have hstart : (Context.start source).KnowsOnly IsAtomicOrQuoted := by
    have hnames : ∀ key ∈ (Context.start source).constants.map Prod.fst, IsAtomic key := by
      simp only [Context.constants_start, Constants.named, List.map_cons, List.map_nil,
        List.forall_mem_cons]
      refine ⟨?_, ?_, ?_, ?_, ?_, ?_, by simp⟩ <;>
        exact isAtomic_of_forall (by decide) (List.forall_mem_singleton.mpr (by decide))
    exact ⟨fun key hkey => .inr (hnames key hkey), by simp, by simp [Context.symbol?],
      rfl⟩
  obtain ⟨-, hknown, -⟩ :=
    not_mem_takeStrings hname (fun _ => .inl) hclosed hstart (by simp)
  rw [Context.extractLiterals_common]
  refine Context.pass_induct (P := fun _ ctx => ctx.KnowsOnly IsAtomicOrQuoted)
    (fun _ offset before literal rest value ctx hfound hctx => ?_) _ _ _ ?_
  · exact hctx.intern hname value (.inr (isAtomic_number
      (Extractor.of_scanNumber_append hfound).1 (Extractor.hasValue_of_scanNumber hfound)))
  refine Context.pass_induct (P := fun _ ctx => ctx.KnowsOnly IsAtomicOrQuoted)
    (fun _ offset before literal rest value ctx hfound hctx => ?_) _ _ _ ?_
  · obtain ⟨inner, rfl, hsymbol⟩ := Extractor.of_scanSymbol_append hfound
    exact hctx.intern hname value (.inr (isAtomic_bracketed hsymbol))
  exact ⟨hknown.constants, hknown.literals, hknown.symbols, hknown.params⟩

end Source

end Formula
