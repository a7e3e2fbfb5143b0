import Formula.Proofs.Source.Numerals

/-!
# Words without an operator between them

White space is dropped before the operands are sorted out, so two words with nothing but white space
between them are one operand to every stage. The glued word is no whole word of the source, so it
never becomes a parameter. It is also too long to name a constant. But the grammars of literals are
asked about the glued word alone: where that is a literal, the two words are taken for it.

## Main results

* `Text.firstWord?_juxtaposed`: two words are not glued when the source is searched.
* `Compiler.outcome_juxtaposed`: what two words compile to.
* `Compiler.expression_juxtaposed`: two words are recognized exactly if they are glued to a literal.
-/

namespace Formula

open Text

/-! ### Two words in a text -/

namespace Text

section Juxtaposed

variable {a b blanks : Text} (ha : a ≠ []) (hb : b ≠ []) (hblanks : blanks ≠ [])
  (hachars : ∀ c ∈ a, isIdentifierChar c = true) (hbchars : ∀ c ∈ b, isIdentifierChar c = true)
  (hblank : ∀ c ∈ blanks, isBlank c = true)

include hachars hbchars hblank in
theorem withoutBlanks_juxtaposed : withoutBlanks (a ++ blanks ++ b) = a ++ b := by
  rw [withoutBlanks_append, withoutBlanks_append, withoutBlanks_eq_nil.mpr hblank,
    withoutBlanks_word hachars, withoutBlanks_word hbchars, List.append_nil]

include ha hb hblanks hachars hbchars hblank

/-- Two words with white space between them do not hold the word that they would be glued to. -/
theorem contains_juxtaposed : contains (a ++ b) (a ++ blanks ++ b) = false := by
  by_contra hcontains
  obtain ⟨before, rest, htext⟩ := contains_iff.mp (Bool.eq_true_of_not_eq_false hcontains)
  -- the characters that are not blank are used up by the glued word
  have hstripped := congrArg withoutBlanks htext
  rw [withoutBlanks_juxtaposed hachars hbchars hblank, withoutBlanks_append, withoutBlanks_append,
    withoutBlanks_word (List.forall_mem_append.mpr ⟨hachars, hbchars⟩)] at hstripped
  have hlength := congrArg List.length hstripped
  simp only [List.length_append] at hlength
  have hbefore : ∀ c ∈ before, isBlank c = true :=
    withoutBlanks_eq_nil.mp (List.length_eq_zero_iff.mp (by omega))
  have hrest : ∀ c ∈ rest, isBlank c = true :=
    withoutBlanks_eq_nil.mp (List.length_eq_zero_iff.mp (by omega))
  -- and the text starts and ends with a character that is not blank
  have hnone : before = [] := by
    cases before with
    | nil => rfl
    | cons d before =>
      obtain ⟨c, a, rfl⟩ := List.exists_cons_of_ne_nil ha
      obtain rfl : c = d := (List.cons.inj htext).1
      have := isBlank_of_isIdentifierChar (hachars c (List.mem_cons_self ..))
      rw [hbefore c (List.mem_cons_self ..)] at this
      cases this
  have hlast : rest = [] := by
    cases rest using List.reverseRecOn with
    | nil => rfl
    | append_singleton rest d =>
      obtain ⟨b, c, rfl⟩ := (List.eq_nil_or_concat b).resolve_left hb
      have heq := congrArg List.getLast? htext
      simp only [List.concat_eq_append, ← List.append_assoc, List.getLast?_append,
        List.getLast?_singleton, Option.some_or, Option.some.injEq] at heq
      have := isBlank_of_isIdentifierChar (hbchars c (by simp))
      rw [heq, hrest d (by simp)] at this
      cases this
  rw [hnone, hlast] at htext
  have hlength := congrArg List.length htext
  simp only [List.length_append, List.length_nil] at hlength
  exact hblanks (List.length_eq_zero_iff.mp (by omega))

/-- Two words are not glued when the source is searched. -/
theorem firstWord?_juxtaposed : firstWord? (a ++ b) (a ++ blanks ++ b) = none := by
  cases hplace : firstWord? (a ++ b) (a ++ blanks ++ b) with
  | none => rfl
  | some place =>
    obtain ⟨before, rest, htext, -⟩ := exists_of_firstWord? hplace
    have := contains_juxtaposed ha hb hblanks hachars hbchars hblank
    rw [contains_iff.mpr ⟨before, rest, htext⟩] at this
    cases this

end Juxtaposed

end Text

/-- The name of a constant is a single character. -/
theorem Context.length_of_mem_constantNames {name : Text} (h : name ∈ constantNames) :
    name.length = 1 := by
  have hall : (constantNames.all fun name => name.length == 1) = true := by decide
  exact eq_of_beq (List.all_eq_true.mp hall name h)

/-! ### What two words compile to -/

namespace Compiler

variable {a b blanks : Text}

/-- Two words with white space between them are the literal that they are glued to; if that is no
literal, the fault names the glued word. -/
theorem outcome_juxtaposed (style : Precedence) (ha : a ≠ []) (hb : b ≠ []) (hblanks : blanks ≠ [])
    (hachars : ∀ c ∈ a, isIdentifierChar c = true) (hbchars : ∀ c ∈ b, isIdentifierChar c = true)
    (hblank : ∀ c ∈ blanks, isBlank c = true) :
    ((common style).compile (a ++ blanks ++ b) false).outcome =
      match Literal.ofGrammar? (a ++ b) with
      | some v => .ok (.constant v (String.ofList (a ++ b)), [])
      | none => .error (.invalidOperand (a ++ b)) := by
  have hword : ∀ c ∈ a ++ b, isIdentifierChar c = true :=
    List.forall_mem_append.mpr ⟨hachars, hbchars⟩
  have hstripped := withoutBlanks_juxtaposed hachars hbchars hblank
  have hquote : '"' ∉ a ++ blanks ++ b := by
    simp only [List.mem_append, not_or]
    exact ⟨⟨fun h => absurd (hachars _ h) (by decide), fun h => absurd (hblank _ h) (by decide)⟩,
      fun h => absurd (hbchars _ h) (by decide)⟩
  cases hvalue : Literal.ofGrammar? (a ++ b) with
  | some v => exact outcome_spelling style hquote hstripped (.word hword) hvalue
  | none =>
    have hnumber : (Literal.binary? (a ++ b)).or (Literal.numeric? (a ++ b)) = none := by
      rw [Literal.ofGrammar?, ← Option.or_assoc] at hvalue
      exact (Option.or_eq_none_iff.mp hvalue).1
    have hunnamed : a ++ b ∉ Context.constantNames := fun h => by
      have := Context.length_of_mem_constantNames h
      have := List.length_pos_iff.mpr ha
      have := List.length_pos_iff.mpr hb
      rw [List.length_append] at *
      omega
    have hbare : Bare (a ++ b) :=
      ⟨by simp [ha], fun c hc => Bool.or_eq_true_iff.mpr (.inl (hword c hc))⟩
    exact outcome_foreign
      (Context.extractLiterals_stripped style hquote hstripped (hbare.not_mem (by decide))
        (Extractor.scanNumber_word hword fun _ => hnumber))
      hbare hunnamed hvalue (firstWord?_juxtaposed ha hb hblanks hachars hbchars hblank)

/-- Two words with white space between them are recognized exactly if they are glued to a literal,
and then they are that literal. -/
theorem expression_juxtaposed (style : Precedence) (ha : a ≠ []) (hb : b ≠ []) (hblanks : blanks ≠ [])
    (hachars : ∀ c ∈ a, isIdentifierChar c = true) (hbchars : ∀ c ∈ b, isIdentifierChar c = true)
    (hblank : ∀ c ∈ blanks, isBlank c = true) :
    let e := (common style).expression (String.ofList (a ++ blanks ++ b))
    e.isRecognized = (Literal.ofGrammar? (a ++ b)).isSome ∧
      ∀ v, Literal.ofGrammar? (a ++ b) = some v → e.isConstant = true ∧ e.parameters = [] ∧
        ∀ draws tolerance, (e.evaluate draws [] tolerance).outcome = .ok v := by
  have houtcome := outcome_juxtaposed style ha hb hblanks hachars hbchars hblank
  rw [← String.toList_ofList (l := a ++ blanks ++ b)] at houtcome
  cases hvalue : Literal.ofGrammar? (a ++ b) with
  | none =>
    rw [hvalue] at houtcome
    refine ⟨?_, fun v hv => nomatch hv⟩
    rw [expression, houtcome]
    rfl
  | some v =>
    rw [hvalue] at houtcome
    obtain ⟨hrecognized, hconstant⟩ := expression_constant houtcome
    refine ⟨hrecognized, fun w hw => ?_⟩
    obtain rfl := Option.some.inj hw
    exact hconstant

/-- The names `a` and `b` are not glued: `ab` is no literal. -/
theorem expression_juxtaposed_names :
    ((common .mathematical).expression "a b").isRecognized = false := by
  have h := (expression_juxtaposed .mathematical (a := ['a']) (b := ['b'])
    (by decide) (by decide) (show [' '] ≠ [] by decide) (List.all_eq_true.mp rfl) (List.all_eq_true.mp rfl)
    (List.all_eq_true.mp rfl)).1
  have hnone : Literal.ofGrammar? (['a'] ++ ['b']) = none := by decide
  rw [hnone] at h
  exact h

/-- The words `1` and `2` are glued: the text `1 2` is the number twelve. -/
theorem expression_glued :
    "1 2".toList = ['1'] ++ [' '] ++ ['2'] ∧
      ((common .mathematical).expression "1 2").isRecognized = true ∧
      ∀ draws tolerance,
        (((common .mathematical).expression "1 2").evaluate draws [] tolerance).outcome =
          .ok (.integer 12) := by
  have hvalue : Literal.ofGrammar? (['1'] ++ ['2']) = some (.integer 12) := by decide
  have houtcome := outcome_juxtaposed .mathematical (a := ['1']) (b := ['2'])
    (by decide) (by decide) (show [' '] ≠ [] by decide) (List.all_eq_true.mp rfl) (List.all_eq_true.mp rfl)
    (List.all_eq_true.mp rfl)
  rw [hvalue] at houtcome
  have houtcome : ((common .mathematical).compile "1 2".toList false).outcome =
      .ok (.constant (.integer 12) "12", []) := houtcome
  obtain ⟨hrecognized, -, -, hevaluate⟩ := expression_constant houtcome
  exact ⟨rfl, hrecognized, hevaluate⟩

end Compiler

end Formula
