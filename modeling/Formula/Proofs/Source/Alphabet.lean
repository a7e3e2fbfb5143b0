import Formula.Proofs.Source.Marks
import Formula.Proofs.Source.Numerals

/-!
# The characters of a source

There is no check of the characters of a source as such. A foreign character is rejected because it
ends up in an operand, and no operand that holds one is a literal, a name or known. To see that it
does end up there, the stages are followed backwards: if the operands are spelled with the characters
of the language, then so are the symbols, and what gave way to the names in them, up to the source.
Two things are not seen this way. An operator mark written in the source passes for an operator. And a
quotation mark that opens no string is part of an operand, which may happen to be the text of a string
literal that is known; so here every quotation mark belongs to a string literal.

## Main definitions

* `Source.Tame`: texts of the language that no mark reaches across.
* `Context.KnowsOnly`: tables whose keys are all of one kind.
* `Source.tail`: what follows the last string literal.
* `Source.Scanned`, `Context.Formed`: what the stages keep.

## Main results

* `Literal.isLiteralChar_of_ofGrammar?`: the characters of literals.
* `Context.Takes.spelled`, `Context.Flattens.spelled`: calls and groups, backwards.
* `Compiler.expression_alphabet`: the characters of a recognized source.
* `Compiler.expression_marked`: a mark written in a source.
-/

namespace Formula

open Text

/-! ### The characters of literals -/

namespace Literal

open Source

theorem mem_dropWhile {p : Char → Bool} {text : Text} {c : Char} (hc : c ∈ text) (hp : p c = false) :
    c ∈ text.dropWhile p := by
  have hsplit := List.takeWhile_append_dropWhile (p := p) (l := text)
  rcases List.mem_append.mp (hsplit.symm ▸ hc) with htake | hdrop
  · rw [List.all_eq_true.mp List.all_takeWhile c htake] at hp
    cases hp
  · exact hdrop

theorem mem_trimBoth {p : Char → Bool} {text : Text} {c : Char} (hc : c ∈ text) (hp : p c = false) :
    c ∈ trimBoth p text :=
  List.mem_reverse.mpr (mem_dropWhile (List.mem_reverse.mpr (mem_dropWhile hc hp)) hp)

theorem isLanguageChar_of_isBlank {c : Char} (h : isBlank c = true) :
    isLanguageChar .default c = true := by
  rw [isLanguageChar, h]
  rfl

/-- Characters of tokens, as far as they matter below. -/
theorem isLanguageChar_of_mem {c : Char}
    (h : c ∈ ['"', '(', ')', '[', ']', ',', '+', '-', '&']) : isLanguageChar .default c = true := by
  have hall : (['"', '(', ')', '[', ']', ',', '+', '-', '&'].all (isLanguageChar .default)) = true := by
    decide
  exact List.all_eq_true.mp hall c h

/-- The marks and letters of literals. -/
def literalChars : Text :=
  ['+', '-', ',', '.', '_', '&', 'a', 'b', 'c', 'd', 'e', 'f', 'h', 'l', 'r', 's', 't', 'u', 'x',
    'A', 'B', 'C', 'D', 'E', 'F', 'H', 'L', 'R', 'S', 'T', 'U', 'X']

/-- The characters of literals. -/
def isLiteralChar (c : Char) : Bool :=
  c.isDigit || isBlank c || c ∈ literalChars

theorem isLiteralChar_of_isDigit {c : Char} (h : c.isDigit = true) : isLiteralChar c = true := by
  rw [isLiteralChar, h]
  rfl

theorem isLiteralChar_of_isBlank {c : Char} (h : isBlank c = true) : isLiteralChar c = true := by
  rw [isLiteralChar, h, Bool.or_true]
  rfl

theorem isLiteralChar_of_mem {c : Char} (h : c ∈ literalChars) : isLiteralChar c = true := by
  rw [isLiteralChar, decide_eq_true h, Bool.or_true]

/-- The characters of literals are characters of the language. -/
theorem isLanguageChar_of_isLiteralChar {c : Char} (h : isLiteralChar c = true) :
    isLanguageChar .default c = true := by
  have hall : (literalChars.all (isLanguageChar .default)) = true := by decide
  rw [isLiteralChar, Bool.or_eq_true, Bool.or_eq_true, decide_eq_true_eq] at h
  rcases h with (hdigit | hblank) | hmem
  · exact isLanguageChar_of_isIdentifierChar (isIdentifierChar_of_isDigit hdigit)
  · exact isLanguageChar_of_isBlank hblank
  · exact List.all_eq_true.mp hall c hmem

theorem isLiteralChar_of_isHexDigit {c : Char}
    (h : (c.isDigit || ('a' ≤ c && c ≤ 'f') || ('A' ≤ c && c ≤ 'F')) = true) :
    isLiteralChar c = true := by
  have hall : ∀ n < 0x80, ((Char.ofNat n).isDigit || ('a' ≤ Char.ofNat n && Char.ofNat n ≤ 'f') ||
      ('A' ≤ Char.ofNat n && Char.ofNat n ≤ 'F')) = true → isLiteralChar (Char.ofNat n) = true := by
    decide
  have := hall c.toNat (Extractor.toNat_lt_of_isHexDigit h)
  rw [Char.ofNat_toNat] at this
  exact this h

/-- A sign is a character of literals. -/
theorem forall_of_takeSign {text : Text}
    (h : ∀ c ∈ (Decimal.takeSign text).2, isLiteralChar c = true) :
    ∀ c ∈ text, isLiteralChar c = true := by
  unfold Decimal.takeSign at h
  split at h
  · exact List.forall_mem_cons.mpr ⟨isLiteralChar_of_mem (by decide), h⟩
  · exact List.forall_mem_cons.mpr ⟨isLiteralChar_of_mem (by decide), h⟩
  · exact h

theorem isLiteralChar_of_binary? {text : Text} {v : Value} (h : binary? text = some v) :
    ∀ c ∈ text, isLiteralChar c = true := by
  obtain ⟨b, run, -, rfl, hb, hrun, -⟩ := (binary?_eq_some_iff text v).mp h
  refine List.forall_mem_cons.mpr ⟨isLiteralChar_of_isDigit rfl, List.forall_mem_cons.mpr ⟨?_, ?_⟩⟩
  · rcases hb with rfl | rfl <;> exact isLiteralChar_of_mem (by decide)
  · intro c hc
    rcases hrun c hc with rfl | rfl | rfl
    · exact isLiteralChar_of_isDigit rfl
    · exact isLiteralChar_of_isDigit rfl
    · exact isLiteralChar_of_mem (by decide)

theorem isLiteralChar_of_hex? {text : Text} {v : Value} (h : hex? text = some v) :
    ∀ c ∈ text, isLiteralChar c = true := by
  obtain ⟨digits, hdigits, h⟩ := Option.bind_eq_some_iff.mp h
  obtain ⟨c, x, run, rfl, rfl, hmark⟩ := exists_of_afterHexMark? hdigits
  have hrun : ∀ d ∈ run, d = '+' ∨ (hexValue?.hexDigit? d.toLower).isSome = true := by
    dsimp only at h
    split at h
    · next heq =>
      obtain ⟨p, tail, rfl, hp, rfl⟩ := List.map_eq_cons_iff.mp heq
      split at h
      · cases h
      · obtain ⟨n, hn, -⟩ := Option.bind_eq_some_iff.mp h
        exact List.forall_mem_cons.mpr ⟨.inl (eq_of_toLower hp (by decide)), fun d hd =>
          .inr (forall_of_foldlM hn _ (List.mem_map_of_mem hd))⟩
    · split at h
      · cases h
      · obtain ⟨n, hn, -⟩ := Option.bind_eq_some_iff.mp h
        exact fun d hd => .inr (forall_of_foldlM hn _ (List.mem_map_of_mem hd))
  refine List.forall_mem_cons.mpr ⟨?_, List.forall_mem_cons.mpr ⟨?_, fun d hd => ?_⟩⟩
  · rcases hmark with ⟨rfl, -⟩ | ⟨rfl, -⟩ <;> decide
  · rcases hmark with ⟨-, rfl | rfl⟩ | ⟨-, rfl | rfl⟩ <;> decide
  · rcases hrun d hd with rfl | hdigit
    · exact isLiteralChar_of_mem (by decide)
    · exact isLiteralChar_of_isHexDigit (isHexDigit_of_toLower hdigit)

theorem IsExponent.isLiteralChar {letter : Char} {sign digits : Text}
    (h : IsExponent letter sign digits) :
    ∀ c ∈ letter :: (sign ++ digits), Literal.isLiteralChar c = true := by
  refine List.forall_mem_cons.mpr ⟨?_, List.forall_mem_append.mpr
    ⟨?_, fun c hc => isLiteralChar_of_isDigit (h.digits c hc)⟩⟩
  · rcases h.letter with rfl | rfl <;> decide
  · rcases h.sign with rfl | ⟨s, rfl, rfl | rfl⟩
    · simp
    · exact List.forall_mem_singleton.mpr (isLiteralChar_of_mem (by decide))
    · exact List.forall_mem_singleton.mpr (isLiteralChar_of_mem (by decide))

theorem isLiteralChar_of_read? {text : Text} {x : Float} (h : Decimal.read? text = some x) :
    ∀ c ∈ text, isLiteralChar c = true := by
  obtain ⟨p, hp, -⟩ := Option.map_eq_some_iff.mp h
  have hp : Decimal.scientific? (Decimal.takeSign text).2 = some p := hp
  obtain ⟨whole, fraction, exponent, htext, hwhole, hfraction, hexponent⟩ :=
    exists_of_scientific? hp
  refine forall_of_takeSign ?_
  rw [htext]
  refine List.forall_mem_append.mpr ⟨List.forall_mem_append.mpr
    ⟨fun c hc => isLiteralChar_of_isDigit (hwhole c hc), ?_⟩, ?_⟩
  · rcases hfraction with rfl | ⟨tail, rfl, htail⟩
    · simp
    · exact List.forall_mem_cons.mpr ⟨isLiteralChar_of_mem (by decide),
        fun c hc => isLiteralChar_of_isDigit (htail c hc)⟩
  · rcases hexponent with rfl | ⟨letter, sign, digits, rfl, hexponent⟩
    · simp
    · exact hexponent.isLiteralChar

theorem isLiteralChar_of_plainInteger? {text : Text} {i : Int64} (h : plainInteger? text = some i) :
    ∀ c ∈ text, isLiteralChar c = true := by
  obtain ⟨n, hn, -⟩ := Option.bind_eq_some_iff.mp h
  obtain ⟨m, hm, -⟩ := Option.map_eq_some_iff.mp hn
  exact forall_of_takeSign fun c hc => isLiteralChar_of_isDigit ((forall_of_readNatural? hm).2 c hc)

theorem isLiteralChar_of_integer? {text : Text} {i : Int64} (h : integer? text = some i) :
    ∀ c ∈ text, isLiteralChar c = true := by
  rw [integer?] at h
  split at h
  · next hplain => exact isLiteralChar_of_plainInteger? hplain
  · split at h
    · next hgrouped =>
      refine forall_of_takeSign fun c hc => ?_
      rcases forall_of_isGrouped hgrouped c hc with hdigit | rfl
      · exact isLiteralChar_of_isDigit hdigit
      · exact isLiteralChar_of_mem (by decide)
    · obtain ⟨mantissa, letter, sign, digits, m, rfl, hm, hexponent⟩ := exists_of_exponentInteger? h
      exact List.forall_mem_append.mpr
        ⟨isLiteralChar_of_plainInteger? hm, hexponent.isLiteralChar⟩

theorem isLiteralChar_of_boolean? {text : Text} {v : Value} (h : boolean? text = some v) :
    ∀ c ∈ text, isLiteralChar c = true := by
  have hletter {c d : Char} (h : c.toLower = d) (hd : d ∈ ['a', 'e', 'f', 'l', 'r', 's', 't', 'u']) :
      isLiteralChar c = true := by
    simp only [List.mem_cons, List.not_mem_nil, or_false] at hd
    rcases hd with rfl | rfl | rfl | rfl | rfl | rfl | rfl | rfl
    · rcases eq_or_eq_of_toLower h (e := 'A') (by decide) with rfl | rfl <;> decide
    · rcases eq_or_eq_of_toLower h (e := 'E') (by decide) with rfl | rfl <;> decide
    · rcases eq_or_eq_of_toLower h (e := 'F') (by decide) with rfl | rfl <;> decide
    · rcases eq_or_eq_of_toLower h (e := 'L') (by decide) with rfl | rfl <;> decide
    · rcases eq_or_eq_of_toLower h (e := 'R') (by decide) with rfl | rfl <;> decide
    · rcases eq_or_eq_of_toLower h (e := 'S') (by decide) with rfl | rfl <;> decide
    · rcases eq_or_eq_of_toLower h (e := 'T') (by decide) with rfl | rfl <;> decide
    · rcases eq_or_eq_of_toLower h (e := 'U') (by decide) with rfl | rfl <;> decide
  have hletters {word : Text}
      (hword : word.map Char.toLower ⊆ ['a', 'e', 'f', 'l', 'r', 's', 't', 'u'])
      (h : sameIgnoringCase text word = true) : ∀ c ∈ text, isLiteralChar c = true := fun c hc =>
    hletter rfl (hword (eq_of_beq h ▸ List.mem_map_of_mem hc))
  rw [boolean?] at h
  split at h
  · next hsame => exact hletters (by decide) hsame
  · split at h
    · next hsame => exact hletters (by decide) hsame
    · cases h

/-- A literal of the grammars holds the characters of literals and no others. -/
theorem isLiteralChar_of_ofGrammar? {text : Text} {v : Value} (h : ofGrammar? text = some v) :
    ∀ c ∈ text, isLiteralChar c = true := by
  rcases Option.or_eq_some_iff.mp h with h | ⟨-, h⟩
  · exact isLiteralChar_of_binary? h
  rcases Option.or_eq_some_iff.mp h with h | ⟨-, h⟩
  · intro c hc
    by_cases hblank : isBlank c = true
    · exact isLiteralChar_of_isBlank hblank
    have hmem := mem_trimBoth hc (Bool.eq_false_of_not_eq_true hblank)
    rcases Option.or_eq_some_iff.mp h with h | ⟨-, h⟩
    · exact isLiteralChar_of_hex? h c hmem
    rcases Option.or_eq_some_iff.mp h with h | ⟨-, h⟩
    · obtain ⟨i, hi, -⟩ := Option.map_eq_some_iff.mp h
      exact isLiteralChar_of_integer? hi c hmem
    · obtain ⟨x, hx, -⟩ := Option.map_eq_some_iff.mp h
      exact isLiteralChar_of_read? hx c hmem
  · exact isLiteralChar_of_boolean? h

end Literal

/-! ### Texts that give way to names -/

namespace Source

/-- A text of the language that no mark reaches across. -/
structure Tame (text : Text) : Prop where
  inert : Inert text
  chars : ∀ c ∈ text, isLanguageChar .default c = true

theorem Tame.spelled {text : Text} (h : Tame text) : Spelled text :=
  spelledIn_of_forall h.chars [] []

theorem tame_generatedName (n : Nat) : Tame (Context.generatedName n) :=
  ⟨inert_generatedName n, fun c hc => isLanguageChar_of_isIdentifierChar
    ((generatedName_word n).2 c hc)⟩

/-- A single character that is no part of a mark. -/
theorem tame_singleton {c : Char} (hend : c ∉ ['o', 'p', '0', '1', '2', '3', '4'] ++ markerEnds)
    (hc : isLanguageChar .default c = true) : Tame [c] := by
  refine ⟨⟨List.forall_mem_singleton.mpr fun hmem => hend ?_, c, List.mem_singleton_self c, hend⟩,
    List.forall_mem_singleton.mpr hc⟩
  rcases List.mem_cons.mp hmem with rfl | hmem
  · decide
  · exact List.mem_append_right _ hmem

/-- The characters of numbers that are taken out, besides digits. -/
def numberChars : Text :=
  ['.', '_', '&', '+', '-', 'a', 'b', 'c', 'd', 'e', 'f', 'h', 'x',
    'A', 'B', 'C', 'D', 'E', 'F', 'H', 'X']

theorem mem_numberChars_of_isHexDigit {c : Char}
    (h : (c.isDigit || ('a' ≤ c && c ≤ 'f') || ('A' ≤ c && c ≤ 'F')) = true) :
    isDecimalDigit c = true ∨ c ∈ numberChars := by
  have hall : ∀ n < 0x80, ((Char.ofNat n).isDigit || ('a' ≤ Char.ofNat n && Char.ofNat n ≤ 'f') ||
      ('A' ≤ Char.ofNat n && Char.ofNat n ≤ 'F')) = true →
        isDecimalDigit (Char.ofNat n) = true ∨ Char.ofNat n ∈ numberChars := by decide
  have := hall c.toNat (Extractor.toNat_lt_of_isHexDigit h)
  rw [Char.ofNat_toNat] at this
  exact this h

/-- A text with the characters of numbers is tame if it has a letter or the mark `&`. -/
theorem tame_of_numberChars {number : Text}
    (hchars : ∀ c ∈ number, isDecimalDigit c = true ∨ c ∈ numberChars)
    (hmark : ∃ c ∈ number, c ∈ ['&', 'b', 'e', 'x', 'B', 'E', 'X']) : Tame number := by
  have hends : (('o' :: markerEnds).all fun c => !isDecimalDigit c && c ∉ numberChars) = true := by
    decide
  have hlanguage : (numberChars.all fun c => isIdentifierChar c || c ∈ ['&', '+', '-']) = true := by
    decide
  have hsigns : (['&', '+', '-'].all fun c =>
      List.elem c ['"', '(', ')', '[', ']', ',', '+', '-', '&']) = true := by decide
  have hmarks : (['&', 'b', 'e', 'x', 'B', 'E', 'X'].all fun c =>
      c ∉ ['o', 'p', '0', '1', '2', '3', '4'] ++ markerEnds) = true := by decide
  refine ⟨⟨fun c hc hend => ?_, ?_⟩, fun c hc => ?_⟩
  · have := List.all_eq_true.mp hends c hend
    simp only [Bool.and_eq_true, Bool.not_eq_true', decide_eq_true_eq] at this
    rcases hchars c hc with hdigit | hmem
    · rw [this.1] at hdigit
      cases hdigit
    · exact this.2 hmem
  · obtain ⟨c, hc, hmem⟩ := hmark
    exact ⟨c, hc, of_decide_eq_true (List.all_eq_true.mp hmarks c hmem)⟩
  · rcases hchars c hc with hdigit | hmem
    · exact isLanguageChar_of_isIdentifierChar
        (Extractor.isIdentifierChar_of_isDecimalDigit hdigit)
    · rcases Bool.or_eq_true_iff.mp (List.all_eq_true.mp hlanguage c hmem) with hword | hmark
      · exact isLanguageChar_of_isIdentifierChar hword
      · have hmark : c ∈ ['&', '+', '-'] := of_decide_eq_true hmark
        exact Literal.isLanguageChar_of_mem
          (List.mem_of_elem_eq_true (List.all_eq_true.mp hsigns c hmark))

/-- The characters of a number that is taken out. -/
theorem mem_numberChars_of_takeNumber? {text number rest : Text}
    (h : Extractor.takeNumber? text = some (number, rest)) :
    (∀ c ∈ number, isDecimalDigit c = true ∨ c ∈ numberChars) ∧
      ∃ c ∈ number, c ∈ ['&', 'b', 'e', 'x', 'B', 'E', 'X'] := by
  have hzero : isDecimalDigit '0' = true ∨ '0' ∈ numberChars := .inl Extractor.isDecimalDigit_zero
  rcases Option.or_eq_some_iff.mp h with h | ⟨-, h⟩
  · unfold Extractor.takeBinary? at h
    split at h
    · next b tail _ =>
      split at h
      · next hb =>
        obtain ⟨⟨run, rest'⟩, hrun, heq⟩ := Option.map_eq_some_iff.mp h
        obtain ⟨rfl, rfl⟩ := Prod.mk.inj heq
        have hall := (Extractor.eq_append_of_takeRun? hrun).2.2
        refine ⟨List.forall_mem_cons.mpr ⟨hzero, List.forall_mem_cons.mpr
          ⟨.inr ?_, fun c hc => ?_⟩⟩, b, by simp, ?_⟩
        · rcases hb with rfl | rfl <;> decide
        · have := hall c hc
          simp only [Bool.or_eq_true, beq_iff_eq] at this
          rcases this with (rfl | rfl) | rfl <;> decide
        · rcases hb with rfl | rfl <;> decide
      · cases h
    · cases h
  rcases Option.or_eq_some_iff.mp h with h | ⟨-, h⟩
  · unfold Extractor.takeHex? at h
    split at h
    · next c x tail _ _ =>
      split at h
      · next hmark =>
        obtain ⟨⟨run, rest'⟩, hrun, heq⟩ := Option.map_eq_some_iff.mp h
        obtain ⟨rfl, rfl⟩ := Prod.mk.inj heq
        have hall := (Extractor.eq_append_of_takeRun? hrun).2.2
        refine ⟨List.forall_mem_cons.mpr ⟨?_, List.forall_mem_cons.mpr
          ⟨?_, fun d hd => mem_numberChars_of_isHexDigit (hall d hd)⟩⟩, ?_⟩
        · rcases hmark with ⟨rfl, -⟩ | ⟨rfl, -⟩ <;> decide
        · rcases hmark with ⟨-, rfl | rfl⟩ | ⟨-, rfl | rfl⟩ <;> decide
        · rcases hmark with ⟨-, hx⟩ | ⟨rfl, -⟩
          · exact ⟨x, by simp, by rcases hx with rfl | rfl <;> decide⟩
          · exact ⟨'&', by simp, by decide⟩
      · cases h
    · cases h
  · obtain ⟨whole, fraction, letter, sign, run, -, rfl, hparts⟩ :=
      Extractor.exists_of_takeExponential? h
    refine ⟨List.forall_mem_append.mpr ⟨List.forall_mem_append.mpr
      ⟨fun d hd => .inl (hparts.whole d hd), ?_⟩, List.forall_mem_cons.mpr ⟨.inr ?_,
        List.forall_mem_append.mpr ⟨?_, fun d hd => .inl (hparts.run d hd)⟩⟩⟩,
      letter, by simp, by rcases hparts.letter with rfl | rfl <;> decide⟩
    · rcases hparts.fraction with rfl | ⟨tail, rfl, htail⟩
      · simp
      · exact List.forall_mem_cons.mpr ⟨by decide, fun d hd => .inl (htail d hd)⟩
    · rcases hparts.letter with rfl | rfl <;> decide
    · rcases hparts.sign with rfl | rfl | rfl
      · simp
      · exact List.forall_mem_singleton.mpr (.inr (by decide))
      · exact List.forall_mem_singleton.mpr (.inr (by decide))

/-- A number that is taken out is tame. -/
theorem tame_of_takeNumber? {text number rest : Text}
    (h : Extractor.takeNumber? text = some (number, rest)) : Tame number :=
  tame_of_numberChars (mem_numberChars_of_takeNumber? h).1 (mem_numberChars_of_takeNumber? h).2

theorem isIdentifierChar_of_toLower {c : Char} (h : isIdentifierChar c.toLower = true) :
    isIdentifierChar c = true := by
  rcases eq_or_of_toLower (c := c) rfl with heq | ⟨-, hupper⟩
  · rwa [← heq] at h
  · exact Literal.isIdentifierChar_of_isAlpha (isAlpha_iff.mpr (.inl hupper))

/-- The letters of the names of constants, in lower case. -/
def constantLetters : Text :=
  (Constants.aliases ++ Constants.named.map fun p => (p.1, p.1)).flatMap fun p =>
    p.1.toList.map Char.toLower

theorem constantLetters_apart :
    (('o' :: markerEnds).all fun c => c.toLower ∉ constantLetters && !isBlank c) = true ∧
      (constantLetters.all isIdentifierChar) = true := by
  decide

/-- The name of a constant between blanks has letters of names of constants. -/
theorem mem_constantLetters {inner : Text} (h : (Constants.symbol? inner).isSome = true) :
    ∀ c ∈ trimBoth isBlank inner, c.toLower ∈ constantLetters := by
  rw [Constants.symbol?] at h
  dsimp only at h
  intro c hc
  split at h
  · next short name hfind =>
    have hsame := List.find?_some hfind
    have hmem : (short, name) ∈ Constants.aliases := List.mem_of_find?_eq_some hfind
    refine List.mem_flatMap.mpr ⟨_, List.mem_append_left _ hmem, ?_⟩
    dsimp only
    rw [eq_of_beq hsame]
    exact List.mem_map_of_mem hc
  · obtain ⟨name, hname⟩ := Option.isSome_iff_exists.mp h
    obtain ⟨p, hfind, -⟩ := Option.map_eq_some_iff.mp hname
    have hsame := List.find?_some hfind
    refine List.mem_flatMap.mpr ⟨(p.1, p.1), List.mem_append_right _
      (List.mem_map_of_mem (List.mem_of_find?_eq_some hfind)), ?_⟩
    rw [eq_of_beq hsame]
    exact List.mem_map_of_mem hc

/-- What holds of brackets, of blanks and of the letters of names of constants holds of a constant in
brackets. -/
theorem forall_mem_bracketed {inner : Text} (h : (Constants.symbol? inner).isSome = true)
    {P : Char → Prop} (hopen : P '[') (hclose : P ']') (hblank : ∀ c, isBlank c = true → P c)
    (hletter : ∀ c, c.toLower ∈ constantLetters → P c) : ∀ c ∈ '[' :: (inner ++ [']']), P c := by
  refine List.forall_mem_cons.mpr ⟨hopen, List.forall_mem_append.mpr
    ⟨fun c hc => ?_, List.forall_mem_singleton.mpr hclose⟩⟩
  by_cases hc' : isBlank c = true
  · exact hblank c hc'
  · exact hletter c (mem_constantLetters h c
      (Literal.mem_trimBoth hc (Bool.eq_false_of_not_eq_true hc')))

/-- A constant in brackets is tame. -/
theorem tame_bracketed {inner : Text} (h : (Constants.symbol? inner).isSome = true) :
    Tame ('[' :: (inner ++ [']'])) := by
  obtain ⟨hends, hletters⟩ := constantLetters_apart
  have hapart (c : Char) (hc : c ∈ 'o' :: markerEnds) :
      c.toLower ∉ constantLetters ∧ isBlank c = false := by
    simpa using List.all_eq_true.mp hends c hc
  have hchar : ∀ c ∈ '[' :: (inner ++ [']']), isLanguageChar .default c = true :=
    forall_mem_bracketed h (Literal.isLanguageChar_of_mem (by decide))
      (Literal.isLanguageChar_of_mem (by decide)) (fun c => Literal.isLanguageChar_of_isBlank)
      fun c hletter => isLanguageChar_of_isIdentifierChar
        (isIdentifierChar_of_toLower (List.all_eq_true.mp hletters _ hletter))
  have hend : ∀ c ∈ '[' :: (inner ++ [']']), c ∉ 'o' :: markerEnds := by
    refine forall_mem_bracketed h (by decide) (by decide) (fun c hblank hc => ?_)
      fun c hletter hc => (hapart c hc).1 hletter
    rw [(hapart c hc).2] at hblank
    cases hblank
  exact ⟨⟨hend, '[', List.mem_cons_self .., by decide⟩, hchar⟩

end Source

/-! ### What is known -/

namespace Context

/-- All keys of the tables are of one kind, and there are no parameters yet. -/
structure KnowsOnly (P : Text → Prop) (ctx : Context) : Prop where
  constants : ∀ key ∈ ctx.constants.map Prod.fst, P key
  literals : ∀ key ∈ ctx.literals.map Prod.fst, P key
  symbols : ∀ key, (ctx.symbol? key).isSome = true → P key
  params : ctx.params = []

namespace KnowsOnly

variable {P : Text → Prop} {ctx : Context}

theorem of_isKnown (h : ctx.KnowsOnly P) {key : Text} (hkey : ctx.isKnown key = true) : P key := by
  rw [isKnown, h.params, Bool.or_eq_true, Bool.or_eq_true] at hkey
  rcases hkey with (hconstant | hsymbol) | hparam
  · exact (List.mem_append.mp (mem_of_isSome_constant? hconstant)).elim (h.constants key)
      (h.literals key)
  · exact h.symbols key hsymbol
  · cases hparam

theorem mono {Q : Text → Prop} (h : ctx.KnowsOnly P) (hPQ : ∀ key, P key → Q key) :
    ctx.KnowsOnly Q :=
  ⟨fun key hkey => hPQ key (h.constants key hkey), fun key hkey => hPQ key (h.literals key hkey),
    fun key hkey => hPQ key (h.symbols key hkey), h.params⟩

theorem intern (h : ctx.KnowsOnly P) (hname : ∀ n, P (generatedName n)) (value : Value) {text : Text}
    (htext : P text) : (ctx.intern value text).2.KnowsOnly P := by
  rw [Context.intern]
  split
  · exact h
  · exact ⟨List.forall_mem_cons.mpr ⟨hname _, h.constants⟩,
      List.forall_mem_cons.mpr ⟨htext, h.literals⟩, h.symbols, h.params⟩

theorem addSymbol (h : ctx.KnowsOnly P) (hname : ∀ n, P (generatedName n)) (text : Text)
    (isCall : Bool) : (ctx.addSymbol text isCall).2.KnowsOnly P := by
  refine ⟨h.constants, h.literals, fun key hkey => ?_, h.params⟩
  obtain ⟨s, hs⟩ := Option.isSome_iff_exists.mp hkey
  rcases eq_or_symbol?_of_addSymbol hs with ⟨rfl, -⟩ | hs
  · exact hname _
  · exact h.symbols key (Option.isSome_iff_exists.mpr ⟨s, hs⟩)

theorem setText (h : ctx.KnowsOnly P) (key text : Text) : (ctx.setText key text).KnowsOnly P :=
  ⟨h.constants, h.literals, fun k hk => h.symbols k (by rwa [symbol?_setText, Option.isSome_map] at hk),
    h.params⟩

theorem markSymbols (h : ctx.KnowsOnly P) (markers : Markers) :
    (ctx.markSymbols markers).KnowsOnly P :=
  ⟨h.constants, h.literals,
    fun k hk => h.symbols k (by rwa [symbol?_markSymbols, Option.isSome_map] at hk), h.params⟩

end KnowsOnly

end Context

/-! ### The literals -/

namespace Source

/-- What follows the last string literal of a text. -/
def tail (text : Text) : Text :=
  match h : firstString? text with
  | none => text
  | some s =>
    have := length_of_firstString? h
    tail s.rest
termination_by text.length

theorem tail_of_none {text : Text} (h : firstString? text = none) : tail text = text := by
  rw [tail]
  split
  · rfl
  · next heq => rw [h] at heq; cases heq

theorem tail_of_some {text : Text} {s : StringLiteral} (h : firstString? text = some s) :
    tail text = tail s.rest := by
  rw [tail]
  split
  · next heq => rw [h] at heq; cases heq
  · next heq =>
    obtain rfl := Option.some.inj (h.symm.trans heq)
    rfl

/-- What the tables know before there are parameters: quoted texts, the name of the whole text, and
texts that no mark reaches across. -/
def IsFamiliar (key : Text) : Prop :=
  '"' ∈ key ∨ key = [] ∨ Tame key

theorem isFamiliar_generatedName (n : Nat) : IsFamiliar (Context.generatedName n) :=
  .inr (.inr (tame_generatedName n))

/-- What the passes over the literals keep of a text: it is spelled if what is left of it is, which
has no quotation marks. -/
structure Scanned (initial text : Text) (ctx : Context) : Prop where
  spelled : Spelled text → Spelled initial
  unquoted : '"' ∉ text
  known : ctx.KnowsOnly IsFamiliar
  names : ∀ name ∈ ctx.literals.map Prod.snd, ∃ n, name = Context.generatedName n

/-- A name in place of a literal brings no characters but those of names. -/
theorem not_mem_intern {c : Char} (hc : isIdentifierChar c = false) {before literal rest : Text}
    {ctx : Context} (hnames : ∀ name ∈ ctx.literals.map Prod.snd, ∃ n, name = Context.generatedName n)
    (value : Value) (h : c ∉ before ++ literal ++ rest) :
    c ∉ before ++ (ctx.intern value literal).1 ++ rest := by
  obtain ⟨n, hn⟩ := names_intern hnames value literal _
    (Context.mem_literals_intern_self ctx value literal)
  simp only [List.mem_append, not_or] at h ⊢
  refine ⟨⟨h.1.1, fun hmem => ?_⟩, h.2⟩
  rw [hn] at hmem
  cases hc.symm.trans ((generatedName_word n).2 c hmem)

/-- A tame literal gives way to its name. -/
theorem Scanned.replace {initial before literal rest : Text} {ctx : Context}
    (h : Scanned initial (before ++ literal ++ rest) ctx) (hliteral : Tame literal) (value : Value) :
    Scanned initial (before ++ (ctx.intern value literal).1 ++ rest)
      (ctx.intern value literal).2 := by
  have hnames := names_intern h.names value literal
  obtain ⟨n, hn⟩ := hnames _ (Context.mem_literals_intern_self ctx value literal)
  refine ⟨fun hspelled => h.spelled ?_, not_mem_intern (by decide) h.names value h.unquoted,
    h.known.intern isFamiliar_generatedName value (.inr (.inr hliteral)), hnames⟩
  obtain ⟨hbefore, hrest⟩ := hspelled.of_append (hn ▸ inert_generatedName n)
  exact (hbefore.append hliteral.spelled).append hrest

/-- The text of a source whose quotation marks all belong to string literals has none left when these
are taken out. -/
theorem not_mem_takeStrings {P : Text → Prop} (hname : ∀ n, P (Context.generatedName n))
    (hquoted : ∀ text, '"' ∈ text → P text) {text : Text} {ctx : Context} (hclosed : '"' ∉ tail text)
    (hknown : ctx.KnowsOnly P)
    (hnames : ∀ name ∈ ctx.literals.map Prod.snd, ∃ n, name = Context.generatedName n) :
    '"' ∉ (Context.takeStrings text ctx).1 ∧ (Context.takeStrings text ctx).2.KnowsOnly P ∧
      ∀ name ∈ (Context.takeStrings text ctx).2.literals.map Prod.snd,
        ∃ n, name = Context.generatedName n := by
  induction hlen : text.length using Nat.strongRecOn generalizing text ctx with
  | _ n ih =>
    cases hfirst : firstString? text with
    | none =>
      rw [tail_of_none hfirst] at hclosed
      rw [Context.takeStrings_of_none hfirst]
      exact ⟨hclosed, hknown, hnames⟩
    | some s =>
      rw [tail_of_some hfirst] at hclosed
      obtain ⟨inner, hinner⟩ := exists_cons_of_firstString? hfirst
      have hbefore : '"' ∉ s.before := by
        obtain ⟨cut, hcut, h⟩ := Option.bind_eq_some_iff.mp hfirst
        obtain ⟨read, -, rfl⟩ := Option.map_eq_some_iff.mp h
        exact not_mem_of_cut? hcut
      have hnames' := names_intern hnames (.string (String.ofList s.content)) s.literal
      obtain ⟨k, hk⟩ := hnames' _ (Context.mem_literals_intern_self ctx _ _)
      obtain ⟨hrest, hkept⟩ := ih s.rest.length (hlen ▸ length_of_firstString? hfirst) hclosed
        (hknown.intern hname _ (hquoted _ (by rw [hinner]; exact List.mem_cons_self ..)))
        hnames' rfl
      rw [Context.takeStrings_of_some hfirst]
      refine ⟨?_, hkept⟩
      simp only [List.mem_append, not_or]
      refine ⟨⟨hbefore, fun hmem => ?_⟩, hrest⟩
      rw [hk] at hmem
      exact absurd ((generatedName_word k).2 _ hmem) (by decide)

/-- A text is spelled if it is with names in place of its quotation marks. -/
theorem Fills.spelled {isName : Text → Prop} {out filled : Text} (h : Fills isName out filled)
    (hnames : ∀ name, isName name → ∃ n, name = Context.generatedName n) (hspelled : Spelled filled) :
    Spelled out := by
  induction h with
  | refl => exact hspelled
  | @name before name out filled hname _ ih =>
    obtain ⟨n, rfl⟩ := hnames name hname
    obtain ⟨hbefore, hrest⟩ := hspelled.of_append (inert_generatedName n)
    have hquote : Spelled ['"'] :=
      (tame_singleton (by decide) (Literal.isLanguageChar_of_mem (by decide))).spelled
    exact hbefore.append (hquote.append (ih hrest))

/-- The literals of a source are taken out of it. -/
theorem scanned_extractLiterals (style : Precedence) {source : Text} (hclosed : '"' ∉ tail source) :
    Scanned (Text.withoutBlanks (outside source))
      ((Context.start source).extractLiterals { precedence := style } Registry.standard).1
      ((Context.start source).extractLiterals { precedence := style } Registry.standard).2 := by
  have hstart : (Context.start source).KnowsOnly IsFamiliar := by
    have hnames : ∀ key ∈ (Context.start source).constants.map Prod.fst, Tame key := by
      simp only [Context.constants_start, Constants.named, List.map_cons, List.map_nil,
        List.forall_mem_cons]
      refine ⟨?_, ?_, ?_, ?_, ?_, ?_, by simp⟩ <;>
        exact tame_singleton (by decide) (isLanguageChar_of_isIdentifierChar (by decide))
    exact ⟨fun key hkey => .inr (.inr (hnames key hkey)), by simp, by simp [Context.symbol?],
      rfl⟩
  obtain ⟨hunquoted, hknown, hnames⟩ := not_mem_takeStrings isFamiliar_generatedName
    (fun _ => .inl) hclosed hstart (by simp)
  rw [Context.extractLiterals_common]
  refine Context.pass_induct (fun _ offset before literal rest value ctx hfound hscanned => ?_) _ _ _ ?_
  · exact hscanned.replace (tame_of_takeNumber? (Extractor.of_scanNumber_append hfound).1) value
  refine Context.pass_induct (fun _ offset before literal rest value ctx hfound hscanned => ?_) _ _ _ ?_
  · obtain ⟨inner, rfl, hsymbol⟩ := Extractor.of_scanSymbol_append hfound
    exact hscanned.replace (tame_bracketed hsymbol) value
  have hfills := (Context.fills_takeStrings source (Context.start source)).withoutBlanks
    fun name hname c hc => by
      obtain ⟨n, rfl⟩ := hnames name hname
      exact Context.Sorted.isWordChar_of_mem_generatedName hc
  exact ⟨hfills.spelled hnames, fun hmem => hunquoted (List.mem_of_mem_filter hmem),
    ⟨hknown.constants, hknown.literals, hknown.symbols, hknown.params⟩, hnames⟩

theorem Fills.mem_or {isName : Text → Prop} {out filled : Text} (h : Fills isName out filled)
    {c : Char} (hc : c ∈ filled) : c ∈ out ∨ ∃ name, isName name ∧ c ∈ name := by
  induction h with
  | refl => exact .inl hc
  | @name before name out filled hname _ ih =>
    rcases List.mem_append.mp hc with hc | hc
    · rcases List.mem_append.mp hc with hc | hc
      · exact .inl (List.mem_append_left _ hc)
      · exact .inr ⟨name, hname, hc⟩
    · exact (ih hc).imp_left fun hc => by simp [hc]

/-- Taking the literals out of a source brings no characters but those of names. -/
theorem not_mem_extractLiterals (style : Precedence) {source : Text} {c : Char}
    (hc : isIdentifierChar c = false) (h : c ∉ Text.withoutBlanks (outside source)) :
    c ∉ ((Context.start source).extractLiterals { precedence := style } Registry.standard).1 := by
  let IsClear (text : Text) (ctx : Context) : Prop :=
    c ∉ text ∧ ∀ name ∈ ctx.literals.map Prod.snd, ∃ n, name = Context.generatedName n
  have hname (n : Nat) : c ∉ Context.generatedName n := fun hmem => by
    cases hc.symm.trans ((generatedName_word n).2 c hmem)
  have hnames : ∀ name ∈ (Context.takeStrings source (Context.start source)).2.literals.map Prod.snd,
      ∃ n, name = Context.generatedName n :=
    Context.takeStrings_preserves
      (P := fun ctx => ∀ name ∈ ctx.literals.map Prod.snd, ∃ n, name = Context.generatedName n)
      (fun _ value text h => names_intern h value text) source (by simp)
  have hstep (before literal rest : Text) (value : Value) (ctx : Context)
      (h : IsClear (before ++ literal ++ rest) ctx) :
      IsClear (before ++ (ctx.intern value literal).1 ++ rest) (ctx.intern value literal).2 :=
    ⟨not_mem_intern hc h.2 value h.1, names_intern h.2 value literal⟩
  have hfills := (Context.fills_takeStrings source (Context.start source)).withoutBlanks
    fun name hname c hc => by
      obtain ⟨n, rfl⟩ := hnames name hname
      exact Context.Sorted.isWordChar_of_mem_generatedName hc
  rw [Context.extractLiterals_common]
  refine (Context.pass_induct (P := IsClear)
    (fun _ _ before literal rest value ctx _ h => hstep before literal rest value ctx h) _ _ _ ?_).1
  refine Context.pass_induct (P := IsClear)
    (fun _ _ before literal rest value ctx _ h => hstep before literal rest value ctx h) _ _ _ ?_
  refine ⟨fun hmem => ?_, hnames⟩
  rcases hfills.mem_or hmem with hmem | ⟨name, hliteral, hmem⟩
  · exact h hmem
  · obtain ⟨n, rfl⟩ := hnames name hliteral
    exact hname n hmem

end Source

/-! ### The symbols -/

namespace Source

theorem spelled_intercalate_iff {parts : List Text} :
    Spelled ([','].intercalate parts) ↔ ∀ part ∈ parts, Spelled part := by
  have hcomma : Tame [','] :=
    tame_singleton (by decide) (Literal.isLanguageChar_of_mem (by decide))
  induction parts with
  | nil => exact iff_of_true (spelledIn_of_forall (by simp [List.intercalate]) [] []) (by simp)
  | cons part parts ih =>
    cases parts with
    | nil => simp [List.intercalate]
    | cons next parts =>
      rw [List.intercalate_cons_cons, List.forall_mem_cons]
      exact ⟨fun h => (h.of_append hcomma.inert).imp_right ih.mp,
        fun h => (h.1.append hcomma.spelled).append (ih.mpr h.2)⟩

/-- A text with parentheses around a part is spelled if its parts are. -/
theorem spelled_parenthesized_iff {before inner after : Text} :
    Spelled (before ++ '(' :: (inner ++ ')' :: after)) ↔
      Spelled before ∧ Spelled inner ∧ Spelled after := by
  have hopen : Tame ['('] :=
    tame_singleton (by decide) (Literal.isLanguageChar_of_mem (by decide))
  have hclose : Tame [')'] :=
    tame_singleton (by decide) (Literal.isLanguageChar_of_mem (by decide))
  have htext : before ++ '(' :: (inner ++ ')' :: after) =
      before ++ ['('] ++ (inner ++ [')'] ++ after) := by simp
  rw [htext]
  constructor
  · intro h
    obtain ⟨hbefore, hrest⟩ := h.of_append hopen.inert
    exact ⟨hbefore, hrest.of_append hclose.inert⟩
  · rintro ⟨hbefore, hinner, hafter⟩
    exact (hbefore.append hopen.spelled).append ((hinner.append hclose.spelled).append hafter)

end Source

namespace Context

open Source

/-- All symbols but one have texts that are spelled. -/
def SpelledBut (current : Text) (ctx : Context) : Prop :=
  ∀ key ≠ current, ∀ s, ctx.symbol? key = some s → Spelled s.text

theorem SpelledBut.of_addSymbol {current text : Text} {isCall : Bool} {ctx : Context}
    (hcurrent : (ctx.symbol? current).isSome = true)
    (h : SpelledBut current (ctx.addSymbol text isCall).2) :
    SpelledBut current ctx ∧ Spelled text :=
  ForallBut.of_addSymbol (P := fun _ s => Spelled s.text) hcurrent h

/-- Each symbol is found under its name. -/
def Indexed (ctx : Context) : Prop :=
  ∀ entry ∈ ctx.symbols, ctx.symbol? entry.1 = some entry.2

theorem Indexed.addSymbol {ctx : Context} (h : ctx.Indexed) (text : Text) (isCall : Bool) :
    (ctx.addSymbol text isCall).2.Indexed :=
  List.forall_mem_cons.mpr ⟨symbol?_addSymbol_self ctx text isCall,
    fun entry hentry => symbol?_addSymbol (h entry hentry) text isCall⟩

theorem Indexed.setText {ctx : Context} (h : ctx.Indexed) (key text : Text) :
    (ctx.setText key text).Indexed := by
  intro entry hentry
  obtain ⟨entry', hentry', rfl⟩ := List.mem_map.mp hentry
  rw [symbol?_setText, h entry' hentry', Option.map_some]

/-- The keys of symbols that are no calls. -/
theorem Indexed.mem_plainKeys {ctx : Context} (h : ctx.Indexed) {key : Text} {s : Symbol}
    (hs : ctx.symbol? key = some s) : key ∈ ctx.plainKeys ↔ s.isCall = false := by
  simp only [plainKeys, sortedSymbols, List.mem_map, List.mem_filter, List.mem_mergeSort]
  constructor
  · rintro ⟨entry, ⟨hentry, hplain⟩, rfl⟩
    obtain rfl := Option.some.inj ((h entry hentry).symm.trans hs)
    simpa using hplain
  · exact fun hplain => ⟨_, ⟨mem_symbols_of_symbol? hs, by simpa using hplain⟩, rfl⟩

/-- The texts of a job. -/
def Job.texts : Job → List Text
  | .search rest => [rest]
  | .arguments args => args

/-- The symbols are in order: each is found under its name, none has a given character, and calls are
written as such. -/
structure Formed (q : Char) (ctx : Context) : Prop where
  found : ∀ entry ∈ ctx.symbols, ctx.symbol? entry.1 = some entry.2
  free : ∀ key s, ctx.symbol? key = some s → q ∉ s.text
  calls : ∀ key s, ctx.symbol? key = some s → s.isCall = true → ∃ name inner,
    s.text = name ++ '(' :: (inner ++ [')']) ∧ ∀ c ∈ name, isWordChar c = true

/-- A character that stands in no name and sets no parts of a call apart. -/
structure IsForeign (q : Char) : Prop where
  word : isIdentifierChar q = false
  delimiter : q ∉ ['(', ')', ',']

theorem IsForeign.quote : IsForeign '"' := ⟨by decide, by decide⟩

theorem IsForeign.mark : IsForeign '@' := ⟨by decide, by decide⟩

theorem IsForeign.not_mem_generatedName {q : Char} (hq : IsForeign q) (n : Nat) :
    q ∉ generatedName n := fun hmem => by
  cases hq.word.symm.trans ((generatedName_word n).2 q hmem)

section Foreign

variable {q : Char} {ctx : Context}

theorem Formed.addSymbol (h : ctx.Formed q) {text : Text} {isCall : Bool} (htext : q ∉ text)
    (hcall : isCall = true → ∃ name inner,
      text = name ++ '(' :: (inner ++ [')']) ∧ ∀ c ∈ name, isWordChar c = true) :
    (ctx.addSymbol text isCall).2.Formed q := by
  refine ⟨Indexed.addSymbol h.found text isCall, fun key s hs => ?_, fun key s hs => ?_⟩
  · rcases eq_or_symbol?_of_addSymbol hs with ⟨-, rfl⟩ | hs
    · exact htext
    · exact h.free key s hs
  · rcases eq_or_symbol?_of_addSymbol hs with ⟨-, rfl⟩ | hs
    · exact hcall
    · exact h.calls key s hs

theorem Formed.setText (h : ctx.Formed q) {key text : Text} (htext : q ∉ text)
    (hcall : ∀ s, ctx.symbol? key = some s → s.isCall = false) : (ctx.setText key text).Formed q := by
  have hcases (k : Text) (s : Symbol) (hs : (ctx.setText key text).symbol? k = some s) :
      s.text = text ∧ s.isCall = false ∨ ctx.symbol? k = some s := by
    rw [symbol?_setText] at hs
    obtain ⟨s', hs', rfl⟩ := Option.map_eq_some_iff.mp hs
    split
    · next hk => exact .inl ⟨rfl, hcall s' (hk ▸ hs')⟩
    · exact .inr hs'
  refine ⟨Indexed.setText h.found key text, fun k s hs => ?_, fun k s hs hcalls => ?_⟩
  · rcases hcases k s hs with ⟨heq, -⟩ | hs
    · rwa [heq]
    · exact h.free k s hs
  · rcases hcases k s hs with ⟨-, hplain⟩ | hs
    · rw [hplain] at hcalls
      cases hcalls
    · exact h.calls k s hs hcalls

theorem IsForeign.not_mem_addSymbol (hq : IsForeign q) (ctx : Context) (text : Text) (isCall : Bool) :
    q ∉ (ctx.addSymbol text isCall).1 := fun hmem => by
  cases hq.word.symm.trans ((ctx.addSymbol_word text isCall).2 _ hmem)

end Foreign

section Takes

variable {tokens : CallTokens} (hopening : tokens.opening = ['(']) (hclosing : tokens.closing = [')'])
  (hseparator : tokens.separator = [','])
include hopening hclosing hseparator

theorem call_eq (name : Text) (operands : List Text) :
    tokens.call name operands = name ++ '(' :: ([','].intercalate operands ++ [')']) := by
  rw [CallTokens.call, hopening, hclosing, hseparator]
  simp

/-- The arguments of a call, with separators, are what stands between its parentheses. -/
theorem intercalate_arguments (inner : Text) : [','].intercalate (tokens.arguments inner) = inner := by
  have hinner := (intercalate_splitTop 0 inner).1
  rw [CallTokens.arguments, hopening, hclosing, hseparator]
  split
  · next hnil =>
    rw [hnil] at hinner
    exact hinner
  · exact hinner

/-- Taking calls out brings no foreign character. -/
theorem Takes.formed {q : Char} (hq : IsForeign q) {job : Job} {results : List Text}
    {ctx ctx' : Context} (h : Takes tokens job ctx results ctx') (hjob : ∀ x ∈ job.texts, q ∉ x)
    (hctx : ctx.Formed q) : (∀ x ∈ results, q ∉ x) ∧ ctx'.Formed q := by
  have hdelimiter := hq.delimiter
  simp only [List.mem_cons, List.not_mem_nil, or_false, not_or] at hdelimiter
  induction h with
  | done | nil => exact ⟨hjob, hctx⟩
  | @call rest head name tail inner after text operands ctx ctx₁ ctx' hfind hclose _ _ ihargs ihrest =>
    rw [hopening] at hfind
    rw [hopening, hclosing] at hclose
    obtain ⟨rfl, hname, -, -⟩ := exists_of_findCall? hfind
    obtain ⟨rfl, -⟩ := depthAfter?_of_matchClose? hclose
    have hchars := (isWordChar_of_isFunctionName hname).2
    have hrest : q ∉ head ++ name ++ '(' :: (inner ++ ')' :: after) :=
      hjob _ (List.mem_singleton_self _)
    simp only [List.mem_append, List.mem_cons, not_or] at hrest
    obtain ⟨⟨hhead, hfree⟩, -, hinner, -, hafter⟩ := hrest
    obtain ⟨hoperands, hctx₁⟩ := ihargs (fun arg harg hmem => hinner (by
      rw [← intercalate_arguments hopening hclosing hseparator inner]
      exact mem_intercalate_of_mem harg hmem)) hctx
    have hcall : q ∉ tokens.call name operands := by
      rw [call_eq hopening hclosing hseparator]
      intro hmem
      rcases List.mem_append.mp hmem with hmem | hmem
      · exact hfree hmem
      · rcases List.mem_append.mp ((List.mem_cons.mp hmem).resolve_left hdelimiter.1) with hmem | hmem
        · rcases mem_intercalate hmem with hmem | ⟨operand, hoperand, hmem⟩
          · exact hdelimiter.2.2 (List.mem_singleton.mp hmem)
          · exact hoperands operand hoperand hmem
        · exact hdelimiter.2.1 (List.mem_singleton.mp hmem)
    obtain ⟨htext, hctx'⟩ := ihrest (List.forall_mem_singleton.mpr hafter)
      (hctx₁.addSymbol hcall fun _ => ⟨name, _, call_eq hopening hclosing hseparator .., hchars⟩)
    refine ⟨List.forall_mem_singleton.mpr ?_, hctx'⟩
    simp only [List.mem_append, not_or]
    exact ⟨⟨hhead, hq.not_mem_addSymbol _ _ _⟩, htext _ (List.mem_singleton_self _)⟩
  | plain _ _ _ _ iharg ihrest =>
    obtain ⟨harg, hargs⟩ := List.forall_mem_cons.mp hjob
    obtain ⟨htext, hctx₁⟩ := iharg (List.forall_mem_singleton.mpr harg) hctx
    obtain ⟨hoperands, hctx'⟩ := ihrest hargs hctx₁
    exact ⟨List.forall_mem_cons.mpr ⟨htext _ (List.mem_singleton_self _), hoperands⟩, hctx'⟩
  | named _ _ _ _ iharg ihrest =>
    obtain ⟨harg, hargs⟩ := List.forall_mem_cons.mp hjob
    obtain ⟨htext, hctx₁⟩ := iharg (List.forall_mem_singleton.mpr harg) hctx
    obtain ⟨hoperands, hctx'⟩ := ihrest hargs
      (hctx₁.addSymbol (htext _ (List.mem_singleton_self _)) fun h => by cases h)
    exact ⟨List.forall_mem_cons.mpr ⟨hq.not_mem_addSymbol _ _ _, hoperands⟩, hctx'⟩

/-- A text that calls are taken out of is spelled if what is left of it and the symbols are. -/
theorem Takes.spelled {job : Job} {results : List Text} {ctx ctx' : Context}
    (h : Takes tokens job ctx results ctx') {current : Text}
    (hcurrent : (ctx.symbol? current).isSome = true) (hspelled : SpelledBut current ctx') :
    SpelledBut current ctx ∧ ((∀ x ∈ results, Spelled x) → ∀ x ∈ job.texts, Spelled x) := by
  have hkept {job : Job} {results : List Text} {ctx ctx' : Context}
      (h : Takes tokens job ctx results ctx') (hcurrent : (ctx.symbol? current).isSome = true) :
      (ctx'.symbol? current).isSome = true :=
    h.preserves (P := fun ctx => (ctx.symbol? current).isSome = true)
      (fun ctx text isCall hctx => isSome_symbol?_addSymbol hctx text isCall) hcurrent
  induction h with
  | done | nil => exact ⟨hspelled, id⟩
  | @call rest head name tail inner after text operands ctx ctx₁ ctx' hfind hclose hargs _ ihargs
      ihrest =>
    rw [hopening] at hfind
    rw [hopening, hclosing] at hclose
    obtain ⟨rfl, -, -, -⟩ := exists_of_findCall? hfind
    obtain ⟨rfl, -⟩ := depthAfter?_of_matchClose? hclose
    have hcurrent₁ := hkept hargs hcurrent
    obtain ⟨hspelled, hrest⟩ := ihrest (isSome_symbol?_addSymbol hcurrent₁ _ _) hspelled
    obtain ⟨hspelled, hcall⟩ := hspelled.of_addSymbol hcurrent₁
    obtain ⟨hspelled, harguments⟩ := ihargs hcurrent hspelled
    refine ⟨hspelled, fun hresults => List.forall_mem_singleton.mpr ?_⟩
    obtain ⟨hhead, htext⟩ := (hresults _ (List.mem_singleton_self _)).of_append
      (inert_generatedName _)
    have hafter := hrest (List.forall_mem_singleton.mpr htext) _ (List.mem_singleton_self _)
    rw [call_eq hopening hclosing hseparator, spelled_parenthesized_iff,
      spelled_intercalate_iff] at hcall
    have hinner := spelled_intercalate_iff.mpr (harguments hcall.2.1)
    rw [Job.texts, intercalate_arguments hopening hclosing hseparator] at hinner
    exact spelled_parenthesized_iff.mpr ⟨hhead.append hcall.1, hinner, hafter⟩
  | plain harg _ _ _ iharg ihrest =>
    obtain ⟨hspelled, hrest⟩ := ihrest (hkept harg hcurrent) hspelled
    obtain ⟨hspelled, hfirst⟩ := iharg hcurrent hspelled
    refine ⟨hspelled, fun hresults => ?_⟩
    obtain ⟨htext, hoperands⟩ := List.forall_mem_cons.mp hresults
    exact List.forall_mem_cons.mpr ⟨hfirst (List.forall_mem_singleton.mpr htext) _
      (List.mem_singleton_self _), hrest hoperands⟩
  | named harg _ _ _ iharg ihrest =>
    have hcurrent₁ := hkept harg hcurrent
    obtain ⟨hspelled, hrest⟩ := ihrest (isSome_symbol?_addSymbol hcurrent₁ _ _) hspelled
    obtain ⟨hspelled, htext⟩ := hspelled.of_addSymbol hcurrent₁
    obtain ⟨hspelled, hfirst⟩ := iharg hcurrent hspelled
    refine ⟨hspelled, fun hresults => ?_⟩
    exact List.forall_mem_cons.mpr ⟨hfirst (List.forall_mem_singleton.mpr htext) _
      (List.mem_singleton_self _), hrest (List.forall_mem_cons.mp hresults).2⟩

end Takes

/-- The group that opens last, with what stands around it. -/
theorem group_eq {text before tail inner rest : Text}
    (hopen : cutLast? ['('] text = some (before, tail)) (hclose : cut? [')'] tail = some (inner, rest)) :
    text = before ++ '(' :: (inner ++ ')' :: rest) := by
  rw [eq_append_of_cutLast? hopen, eq_append_of_cut? hclose]
  simp

/-- Taking groups out brings no foreign character. -/
theorem Flattens.formed {q : Char} (hq : IsForeign q) {text text' : Text} {ctx ctx' : Context}
    (h : Flattens ['('] [')'] text ctx text' ctx') (htext : q ∉ text) (hctx : ctx.Formed q) :
    q ∉ text' ∧ ctx'.Formed q := by
  induction h with
  | done => exact ⟨htext, hctx⟩
  | known hopen hclose _ _ _ ih =>
    obtain rfl := group_eq hopen hclose
    simp only [List.mem_append, List.mem_cons, not_or] at htext
    exact ih (by simp [htext]) hctx
  | group hopen hclose _ _ _ ih =>
    obtain rfl := group_eq hopen hclose
    simp only [List.mem_append, List.mem_cons, not_or] at htext
    refine ih ?_ (hctx.addSymbol htext.2.2.1 fun h => by cases h)
    simp only [List.mem_append, not_or]
    exact ⟨⟨htext.1, hq.not_mem_addSymbol _ _ _⟩, htext.2.2.2.2⟩

/-- The symbols with given names are no calls. -/
def Plain (keys : List Text) (ctx : Context) : Prop :=
  ∀ key ∈ keys, ∀ s, ctx.symbol? key = some s → s.isCall = false

theorem Plain.flatten {keys : List Text} {text text' : Text} {ctx ctx' : Context} (h : ctx.Plain keys)
    (hflat : Flattens ['('] [')'] text ctx text' ctx') : ctx'.Plain keys :=
  hflat.preserves (P := Plain keys) (fun _ _ h key hkey s hs =>
    (eq_or_symbol?_of_addSymbol hs).elim (fun heq => heq.2 ▸ rfl) (h key hkey s)) h

theorem Plain.setText {keys : List Text} {ctx : Context} (h : ctx.Plain keys) (key text : Text) :
    (ctx.setText key text).Plain keys := by
  intro k hk s hs
  rw [symbol?_setText] at hs
  obtain ⟨s', hs', rfl⟩ := Option.map_eq_some_iff.mp hs
  have := h k hk s' hs'
  split <;> exact this

theorem Plain.tail {key : Text} {keys : List Text} {ctx : Context} (h : ctx.Plain (key :: keys)) :
    ctx.Plain keys :=
  fun k hk => h k (List.mem_cons_of_mem _ hk)

/-- Taking groups out of symbols that are no calls brings no foreign character. -/
theorem FlattensAll.formed {q : Char} (hq : IsForeign q) {keys : List Text} {ctx ctx' : Context}
    (h : FlattensAll ['('] [')'] keys ctx ctx') (hctx : ctx.Formed q) (hplain : ctx.Plain keys) :
    ctx'.Formed q := by
  induction h with
  | nil => exact hctx
  | skip _ _ ih => exact ih hctx hplain.tail
  | @symbol key text keys symbol ctx ctx₁ ctx' hkey hflat _ ih =>
    obtain ⟨htext, hctx₁⟩ := hflat.formed hq (hctx.free key symbol hkey) hctx
    have hplain₁ := hplain.flatten hflat
    exact ih (hctx₁.setText htext (hplain₁ key (List.mem_cons_self ..)))
      (hplain₁.tail.setText key text)

/-- A text that groups are taken out of is spelled if what is left of it and the symbols are. -/
theorem Flattens.spelled {text text' : Text} {ctx ctx' : Context}
    (h : Flattens ['('] [')'] text ctx text' ctx') (htext : '"' ∉ text)
    (hknown : ctx.KnowsOnly IsFamiliar) {current : Text}
    (hcurrent : (ctx.symbol? current).isSome = true) (hspelled : SpelledBut current ctx') :
    SpelledBut current ctx ∧ (Spelled text' → Spelled text) := by
  induction h with
  | done => exact ⟨hspelled, id⟩
  | known hopen hclose hne hinner _ ih =>
    obtain rfl := group_eq hopen hclose
    simp only [List.mem_append, List.mem_cons, not_or] at htext
    obtain ⟨hspelled, hflat⟩ := ih (by simp [htext]) hknown hcurrent hspelled
    refine ⟨hspelled, fun h => ?_⟩
    rcases hknown.of_isKnown hinner with hquote | hnil | htame
    · exact absurd hquote htext.2.2.1
    · exact absurd hnil hne
    · obtain ⟨hbefore, hrest⟩ := (hflat h).of_append htame.inert
      exact spelled_parenthesized_iff.mpr ⟨hbefore, htame.spelled, hrest⟩
  | @group text before tail inner rest text' ctx ctx' hopen hclose _ _ _ ih =>
    obtain rfl := group_eq hopen hclose
    simp only [List.mem_append, List.mem_cons, not_or] at htext
    obtain ⟨hspelled, hflat⟩ := ih (by
        simp only [List.mem_append, not_or]
        exact ⟨⟨htext.1, IsForeign.quote.not_mem_addSymbol _ _ _⟩, htext.2.2.2.2⟩)
      (hknown.addSymbol isFamiliar_generatedName _ _) (isSome_symbol?_addSymbol hcurrent _ _) hspelled
    obtain ⟨hspelled, hinner⟩ := hspelled.of_addSymbol hcurrent
    refine ⟨hspelled, fun h => ?_⟩
    obtain ⟨hbefore, hrest⟩ := (hflat h).of_append (inert_generatedName _)
    exact spelled_parenthesized_iff.mpr ⟨hbefore, hinner, hrest⟩

/-- Symbols are spelled if what is left of them without groups is. -/
theorem FlattensAll.spelled {keys : List Text} {ctx ctx' : Context}
    (h : FlattensAll ['('] [')'] keys ctx ctx') (hctx : ctx.Formed '"')
    (hknown : ctx.KnowsOnly IsFamiliar) (hplain : ctx.Plain keys) : ctx'.KnowsOnly IsFamiliar ∧
      ((∀ key s, ctx'.symbol? key = some s → Spelled s.text) →
        ∀ key s, ctx.symbol? key = some s → Spelled s.text) := by
  induction h with
  | nil => exact ⟨hknown, id⟩
  | skip _ _ ih => exact ih hctx hknown hplain.tail
  | @symbol key text keys symbol ctx ctx₁ ctx' hkey hflat _ ih =>
    obtain ⟨htext, hctx₁⟩ := hflat.formed .quote (hctx.free key symbol hkey) hctx
    have hplain₁ := hplain.flatten hflat
    obtain ⟨hknown₁, hcurrent₁⟩ : ctx₁.KnowsOnly IsFamiliar ∧ (ctx₁.symbol? key).isSome = true :=
      hflat.preserves
        (P := fun ctx => ctx.KnowsOnly IsFamiliar ∧ (ctx.symbol? key).isSome = true)
        (fun ctx text h => ⟨h.1.addSymbol isFamiliar_generatedName text false,
          isSome_symbol?_addSymbol h.2 text false⟩) ⟨hknown, by rw [hkey]; rfl⟩
    obtain ⟨hknown', hall⟩ := ih (hctx₁.setText htext (hplain₁ key (List.mem_cons_self ..)))
      (hknown₁.setText key text) (hplain₁.tail.setText key text)
    refine ⟨hknown', fun h => ?_⟩
    have hset := hall h
    have hothers : SpelledBut key ctx₁ := fun k hk s hs => hset k s (by
      rw [symbol?_setText, hs, Option.map_some, if_neg hk])
    obtain ⟨hspelled, hflattened⟩ :=
      hflat.spelled (hctx.free key symbol hkey) hknown (by rw [hkey]; rfl) hothers
    intro k s hs
    by_cases hk : k = key
    · obtain ⟨s₁, hs₁⟩ := Option.isSome_iff_exists.mp hcurrent₁
      have hmain := hset key { s₁ with text } (by
        rw [symbol?_setText, hs₁, Option.map_some, if_pos rfl])
      obtain rfl : symbol = s := Option.some.inj (hkey.symm.trans (hk ▸ hs))
      exact hflattened hmain
    · exact hspelled k hk s hs

/-! ### The operands -/

/-- Operands that are sorted out hold no characters but those of the language, unless they are quoted
texts. -/
theorem isLanguageChar_of_classify {operands : List Text} {found found' : List (Nat × Text)}
    {ctx ctx' : Context} (h : classify Registry.standard operands found ctx = .ok (found', ctx'))
    (hknown : ctx.KnowsOnly fun key => '"' ∈ key ∨ ∀ c ∈ key, isLanguageChar .default c = true)
    (hfound : ∀ entry ∈ found, ∀ c ∈ entry.2, isLanguageChar .default c = true) :
    ∀ x ∈ operands, '"' ∈ x ∨ ∀ c ∈ x, isLanguageChar .default c = true := by
  induction operands generalizing found ctx with
  | nil => simp
  | cons operand rest ih =>
    rw [classify] at h
    split at h
    · next hold =>
      refine List.forall_mem_cons.mpr ⟨?_, ih h hknown hfound⟩
      rcases Bool.or_eq_true_iff.mp hold with hold | hold
      · exact hknown.of_isKnown hold
      · obtain ⟨entry, hentry, heq⟩ := List.any_eq_true.mp hold
        exact .inr (eq_of_beq heq ▸ hfound entry hentry)
    · dsimp only at h
      have hasked : ({ ctx with cancelled := ctx.cancelled ||
          (Literal.parse Registry.standard operand).2 } : Context).KnowsOnly
            fun key => '"' ∈ key ∨ ∀ c ∈ key, isLanguageChar .default c = true :=
        ⟨hknown.constants, hknown.literals, hknown.symbols, hknown.params⟩
      split at h
      · next value hvalue =>
        have hchars := fun c hc => Literal.isLanguageChar_of_isLiteralChar
          (Literal.isLiteralChar_of_ofGrammar? (v := value) hvalue c hc)
        exact List.forall_mem_cons.mpr ⟨.inr hchars, ih h
          (hasked.intern (fun n => .inr (tame_generatedName n).chars) value (.inr hchars)) hfound⟩
      · split at h
        · next place _ =>
          split at h
          · next hidentifier =>
            have hchars : ∀ c ∈ operand, isLanguageChar .default c = true := fun c hc =>
              isLanguageChar_of_isIdentifierChar
                ((isIdentifierChar_of_isIdentifier hidentifier).2 c hc)
            exact List.forall_mem_cons.mpr ⟨.inr hchars, ih h hasked
              (List.forall_mem_append.mpr ⟨hfound, List.forall_mem_singleton.mpr hchars⟩)⟩
          · cases h
        · cases h

/-- Marking operators brings no characters but those of marks. -/
theorem not_mem_mark {c : Char} (hc : (Markers.common.tokens.all fun entry => decide (c ∉ entry.2)) = true)
    {text : Text} (h : c ∉ text) : c ∉ Markers.common.mark text := by
  have hne : (Markers.common.tokens.all fun entry => !entry.1.isEmpty) = true := by decide
  rw [Markers.mark]
  generalize Markers.common.tokens = tokens at hc hne
  induction tokens generalizing text with
  | nil => exact h
  | cons entry tokens ih =>
    rw [List.all_cons, Bool.and_eq_true] at hc hne
    refine ih ?_ hc.2 hne.2
    dsimp only
    split
    · exact h
    · intro hmem
      rcases mem_intercalate hmem with hmem | ⟨part, hpart, hmem⟩
      · exact of_decide_eq_true hc.1 hmem
      · exact h (mem_of_mem_splitAll (by simpa using hne.1) hpart hmem)

theorem mem_of_mem_operandsFrom {markers : Markers} {skip : Nat} {text x : Text}
    (hx : x ∈ markers.operandsFrom skip text) {c : Char} (hc : c ∈ x) : c ∈ text := by
  induction text generalizing skip x with
  | nil =>
    obtain rfl : x = [] := by simpa [Markers.operandsFrom] using hx
    cases hc
  | cons d text ih =>
    cases skip with
    | succ skip => exact List.mem_cons_of_mem _ (ih hx hc)
    | zero =>
      rw [Markers.operandsFrom] at hx
      split at hx
      · rcases List.mem_cons.mp hx with rfl | hx
        · cases hc
        · exact List.mem_cons_of_mem _ (ih hx hc)
      · obtain ⟨y, ys, hsplit⟩ := List.exists_cons_of_ne_nil (operandsFrom_ne_nil markers 0 text)
        rw [hsplit, List.modifyHead_cons] at hx
        rcases List.mem_cons.mp hx with rfl | hx
        · rcases List.mem_cons.mp hc with rfl | hc
          · exact List.mem_cons_self ..
          · exact List.mem_cons_of_mem _ (ih (hsplit ▸ List.mem_cons_self ..) hc)
        · exact List.mem_cons_of_mem _ (ih (hsplit ▸ List.mem_cons_of_mem _ hx) hc)

/-- Symbols are spelled if their operands have no characters but those of the language. -/
theorem Formed.spelled {style : Precedence} {ctx : Context} (hctx : ctx.Formed '"')
    (hoperands : ∀ x ∈ (ctx.markSymbols Markers.common).tableOperands (Compiler.common style).tokens,
      '"' ∈ x ∨ ∀ c ∈ x, isLanguageChar .default c = true) {key : Text} {s : Symbol}
    (hs : ctx.symbol? key = some s) : Spelled s.text := by
  have hunquoted := hctx.free key s hs
  have hmarked : (ctx.markSymbols Markers.common).symbol? key =
      some (if s.isCall then s else { s with text := Markers.common.mark s.text }) := by
    rw [symbol?_markSymbols, hs, Option.map_some]
  have hmem {x : Text} (hx : x ∈ symbolOperands (Compiler.common style).tokens
      (if s.isCall then s else { s with text := Markers.common.mark s.text })) :
      '"' ∈ x ∨ ∀ c ∈ x, isLanguageChar .default c = true :=
    hoperands x (List.mem_flatMap.mpr
      ⟨_, List.mem_mergeSort.mpr (mem_symbols_of_symbol? hmarked), hx⟩)
  cases hcall : s.isCall with
  | false =>
    rw [hcall, if_neg Bool.false_ne_true, symbolOperands, if_neg Bool.false_ne_true,
      Compiler.markers_common, Markers.operands] at hmem
    dsimp only at hmem
    refine Spelled.of_mark (spelled_of_operandsFrom fun x hx => ?_)
    by_cases hne : x = []
    · simp [hne]
    · have hquote : '"' ∉ x := fun h =>
        not_mem_mark (by decide) hunquoted (mem_of_mem_operandsFrom hx h)
      exact (hmem (List.mem_filter.mpr ⟨hx, decide_eq_true hne⟩)).resolve_left hquote
  | true =>
    rw [hcall, if_pos rfl, symbolOperands, hcall, if_pos rfl] at hmem
    obtain ⟨name, inner, htext, hname⟩ := hctx.calls key s hs hcall
    have hopen : '(' ∉ name := fun h => absurd (hname _ h) (by decide)
    obtain ⟨hopening, hclosing, hseparator⟩ := Compiler.delimiters_common style
    have hinner : ((cut? (Compiler.common style).tokens.opening s.text).bind fun p =>
        before? (Compiler.common style).tokens.closing p.2) = some inner := by
      rw [hopening, hclosing, htext, cut?_append_cons hopen, Option.bind_some,
        before?_append_singleton]
    rw [callOperands_eq hinner, hseparator] at hmem
    rw [htext] at hunquoted ⊢
    refine spelled_parenthesized_iff.mpr ⟨spelledIn_of_forall (fun c hc =>
      isLanguageChar_of_isIdentifierChar (isIdentifierChar_of_isWordChar (hname c hc))) [] [], ?_,
      spelledIn_of_forall (by simp) [] []⟩
    rw [← intercalate_splitAll (List.cons_ne_nil ',' []) inner, spelled_intercalate_iff]
    intro x hx
    refine spelledIn_of_forall ?_ [] []
    by_cases hne : x = []
    · simp [hne]
    · have hquote : '"' ∉ x := fun h => hunquoted (by
        have := mem_of_mem_splitAll (List.cons_ne_nil ',' []) hx h
        simp [this])
      exact (hmem (List.mem_filter.mpr ⟨hx, decide_eq_true hne⟩)).resolve_left hquote

end Context

/-! ### Recognized sources -/

/-- Taking the literals out of a source brings no symbols. -/
theorem Context.symbols_extractLiterals (style : Precedence) (source : Text) :
    ((start source).extractLiterals (Compiler.common style).definition
      (Compiler.common style).registry).2.symbols = [] := by
  have hintern (ctx : Context) (value : Value) (text : Text) (h : ctx.symbols = []) :
      (ctx.intern value text).2.symbols = [] := (symbols_intern ctx value text).trans h
  rw [show ((start source).extractLiterals (Compiler.common style).definition
    (Compiler.common style).registry) = _ from extractLiterals_common style source]
  refine pass_preserves (P := fun ctx => ctx.symbols = []) hintern _ _ _ _ ?_
  refine pass_preserves (P := fun ctx => ctx.symbols = []) hintern _ _ _ _ ?_
  exact takeStrings_preserves (P := fun ctx => ctx.symbols = []) hintern _ rfl

namespace Compiler

open Source

/-- What is left of a source without its literals is spelled if the source is resolved. -/
theorem spelled_of_resolve {style : Precedence} {initial text : Text} {ctx ctx' : Context}
    (hscanned : Scanned initial text ctx) (hsymbols : ctx.symbols = [])
    (h : (common style).resolve text ctx = .ok ctx') : Spelled initial := by
  obtain ⟨-, text₁, ctx₁, ctx₂, sorted, htakes, hgroups, hclassify, rfl⟩ := exists_stages h
  obtain ⟨hopening, hclosing, hseparator⟩ := delimiters_common style
  rw [hsymbols] at htakes
  -- the main symbol at the start
  have hmain {key : Text} {s : Symbol} (hs : ({ ctx with symbols := [(Context.mainName,
      ⟨text, false⟩)] } : Context).symbol? key = some s) : key = Context.mainName ∧ s = ⟨text, false⟩ := by
    rw [Context.symbol?, List.lookup_cons] at hs
    split at hs
    · next heq => exact ⟨eq_of_beq heq, (Option.some.inj hs).symm⟩
    · cases hs
  have hformed : ({ ctx with symbols := [(Context.mainName, ⟨text, false⟩)] } : Context).Formed '"' := by
    refine ⟨List.forall_mem_singleton.mpr rfl, fun key s hs => ?_, fun key s hs hcall => ?_⟩
    · rw [(hmain hs).2]
      exact hscanned.unquoted
    · rw [(hmain hs).2] at hcall
      cases hcall
  have hknown : ({ ctx with symbols := [(Context.mainName, ⟨text, false⟩)] } : Context).KnowsOnly
      IsFamiliar := by
    refine ⟨hscanned.known.constants, hscanned.known.literals, fun key hkey => ?_,
      hscanned.known.params⟩
    obtain ⟨s, hs⟩ := Option.isSome_iff_exists.mp hkey
    exact .inr (.inl (hmain hs).1)
  obtain ⟨htext₁, hformed₁⟩ := htakes.formed hopening hclosing hseparator .quote
    (List.forall_mem_singleton.mpr hscanned.unquoted) hformed
  obtain ⟨hknown₁, hmain₁⟩ : ctx₁.KnowsOnly IsFamiliar ∧
      ctx₁.symbol? Context.mainName = some ⟨text, false⟩ :=
    htakes.preserves (P := fun ctx => ctx.KnowsOnly IsFamiliar ∧
        ctx.symbol? Context.mainName = some ⟨text, false⟩)
      (fun ctx text isCall h => ⟨h.1.addSymbol isFamiliar_generatedName text isCall,
        Context.symbol?_addSymbol h.2 text isCall⟩) ⟨hknown, rfl⟩
  have hformed₂ : (ctx₁.setText Context.mainName text₁).Formed '"' :=
    hformed₁.setText (htext₁ text₁ (List.mem_singleton_self _)) fun s hs => by
      rw [hmain₁] at hs
      exact Option.some.inj hs ▸ rfl
  rw [hopening, hclosing] at hgroups
  have hplain : (ctx₁.setText Context.mainName text₁).Plain
      (ctx₁.setText Context.mainName text₁).plainKeys :=
    fun key hkey s hs => (Context.Indexed.mem_plainKeys hformed₂.found hs).mp hkey
  have hformed₃ := hgroups.formed .quote hformed₂ hplain
  obtain ⟨hknown₃, hflat⟩ := hgroups.spelled hformed₂ (hknown₁.setText Context.mainName text₁) hplain
  have hoperands := Context.isLanguageChar_of_classify hclassify
    ((hknown₃.markSymbols _).mono fun key hkey => hkey.imp_right fun hkey => by
      rcases hkey with rfl | htame
      · simp
      · exact htame.chars) (by simp)
  have hset := hflat fun key s hs => hformed₃.spelled hoperands hs
  have hothers : Context.SpelledBut Context.mainName ctx₁ := fun key hkey s hs => hset key s (by
    rw [Context.symbol?_setText, hs, Option.map_some, if_neg hkey])
  have htext : Spelled text₁ := hset Context.mainName ⟨text₁, false⟩ (by
    rw [Context.symbol?_setText, hmain₁]
    rfl)
  obtain ⟨-, htaken⟩ := htakes.spelled hopening hclosing hseparator rfl hothers
  exact hscanned.spelled
    (htaken (List.forall_mem_singleton.mpr htext) text (List.mem_singleton_self _))

/-- A recognized source whose quotation marks all belong to string literals holds, outside these
literals, no characters but those of the language, and `@` where the name of an operator mark stands
beside it. -/
theorem expression_alphabet (style : Precedence) {source : String}
    (hclosed : '"' ∉ Source.tail source.toList)
    (hrecognized : ((common style).expression source).isRecognized = true) :
    (∀ c ∈ outside source.toList, isLanguageChar .default c = true ∨ c = '@') ∧
      ∀ before c rest, Text.withoutBlanks (outside source.toList) = before ++ c :: rest →
        isLanguageChar .default c = true ∨ c = '@' ∧ TouchesMarker before rest := by
  have hspelled : Spelled (Text.withoutBlanks (outside source.toList)) := by
    rw [expression] at hrecognized
    cases houtcome : ((common style).compile source.toList false).outcome with
    | error fault =>
      rw [houtcome] at hrecognized
      cases hrecognized
    | ok result =>
      obtain ⟨ctx, hresolves, -⟩ := exists_resolves houtcome
      exact spelled_of_resolve (scanned_extractLiterals style hclosed)
        (Context.symbols_extractLiterals style _) hresolves
  constructor
  · intro c hc
    by_cases hblank : isBlank c = true
    · exact .inl (Literal.isLanguageChar_of_isBlank hblank)
    · have hmem : c ∈ Text.withoutBlanks (outside source.toList) :=
        List.mem_filter.mpr ⟨hc, by simpa using hblank⟩
      obtain ⟨before, rest, htext⟩ := List.append_of_mem hmem
      exact (hspelled before c rest htext).imp_right And.left
  · intro before c rest htext
    simpa using hspelled before c rest htext

/-- The text `x="y"` has one string literal, and its other characters are of the language. -/
theorem expression_alphabet_comparison :
    '"' ∉ Source.tail "x=\"y\"".toList ∧
      ((common .mathematical).expression "x=\"y\"").isRecognized = true ∧
      (∀ c ∈ outside "x=\"y\"".toList, isLanguageChar .default c = true ∨ c = '@') ∧
      ∀ before c rest, Text.withoutBlanks (outside "x=\"y\"".toList) = before ++ c :: rest →
        isLanguageChar .default c = true ∨ c = '@' ∧ TouchesMarker before rest := by
  have hfirst : firstString? "x=\"y\"".toList = some ⟨['x', '='], "\"y\"".toList, ['y'], []⟩ := by rfl
  have hclosed : '"' ∉ Source.tail "x=\"y\"".toList := by
    rw [tail_of_some hfirst, tail_of_none rfl]
    exact List.not_mem_nil
  obtain ⟨root, params, hbuild⟩ := buildTree_comparison
  have hrecognized : ((common .mathematical).expression "x=\"y\"").isRecognized = true := by
    rw [expression, outcome_compile rfl resolves_comparison, hbuild]
    rfl
  exact ⟨hclosed, hrecognized, expression_alphabet .mathematical hclosed hrecognized⟩

/-- The tables of the text `a@op0@b`. -/
def markedTables : Context :=
  { Context.start "a@op0@b".toList with
    symbols := [(Context.mainName, ⟨"a@op0@b".toList, false⟩)]
    params := [⟨"a", TypeMask.all⟩, ⟨"b", TypeMask.all⟩] }

theorem resolves_marked : (common .mathematical).Resolves "a@op0@b".toList markedTables := by
  have hoperands : Markers.common.operands "a@op0@b".toList = [['a'], ['b']] := by decide
  have ha : Text.firstWord? ['a'] "a@op0@b".toList = some 0 := by decide
  have hb : Text.firstWord? ['b'] "a@op0@b".toList = some 6 := by decide
  have horder : Context.orderedParameters [(0, ['a']), (6, ['b'])] =
      [⟨"a", TypeMask.all⟩, ⟨"b", TypeMask.all⟩] := by
    rw [Context.orderedParameters, List.mergeSort_of_pairwise (by simp)]
    rfl
  have hstrings : Context.takeStrings "a@op0@b".toList (Context.start "a@op0@b".toList) =
      ("a@op0@b".toList, Context.start "a@op0@b".toList) := Context.takeStrings_of_none rfl _
  obtain ⟨hblanks, hnumbers, hmark⟩ :
      Text.withoutBlanks "a@op0@b".toList = "a@op0@b".toList ∧
      Extractor.scanNumber "a@op0@b".toList 0 = .exhausted ∧
      Markers.common.mark "a@op0@b".toList = "a@op0@b".toList := by decide
  obtain ⟨hparse, hparse'⟩ : Literal.parse Registry.standard ['a'] = (none, false) ∧
      Literal.parse Registry.standard ['b'] = (none, false) := by decide
  refine resolves_of_strings hstrings hblanks (by decide) (by decide) (by decide)
    (by decide) hnumbers rfl rfl hmark hoperands ?_ horder
  rw [Context.classify_parameter (by decide) rfl hparse ha (by decide),
    Context.classify_parameter (by decide) rfl hparse' hb (by decide)]
  rfl

/-- The mark of an operator can be written in a source: the text `a@op0@b` is recognized. -/
theorem expression_marked :
    '"' ∉ "a@op0@b".toList ∧ '@' ∈ outside "a@op0@b".toList ∧
      isLanguageChar .default '@' = false ∧
      ((common .mathematical).expression "a@op0@b").isRecognized = true := by
  have hbuild : ∃ root params, (common .mathematical).buildTree markedTables = .ok (root, params) := by
    let t := TreeBuilder.ofDefinition (common .mathematical).definition (common .mathematical).tokens
      (common .mathematical).registry markedTables
    have hplain : t.plain "a@op0@b".toList = "a!=b" := by decide
    have hcandidates : t.candidates "a@op0@b".toList = [⟨.compare .ne, 0, 1, 5⟩] :=
      (TreeBuilder.candidates_of_inner (by decide)).trans (List.mergeSort_singleton _)
    refine exists_buildTree_of_split "a@op0@b".toList 16 ⟨.compare .ne, 0, 1, 5⟩ (.parameter 0)
      (.parameter 1) rfl (t := t) rfl rfl (by decide) hcandidates rfl rfl ?_
    rw [hplain]
    decide +kernel
  obtain ⟨root, params, hbuild⟩ := hbuild
  refine ⟨by decide, ?_, by decide, ?_⟩
  · rw [outside_of_none rfl]
    decide
  · rw [expression, outcome_compile rfl resolves_marked, hbuild]
    rfl

end Compiler

end Formula
