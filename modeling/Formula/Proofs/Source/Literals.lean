import Formula.Proofs.Compile.Preparation
import Formula.Proofs.Source.Strings
import Formula.Proofs.Text.Pieces

/-!
# The literals that are found

A scan for numbers finds a word with a digit in front, or a hexadecimal number behind its mark; it stands
alone. A scan for constants finds a name in brackets. Both give way to a name.

## Main definitions

* `Extractor.Numeral`: a text that is read as a number.

## Main results

* `Extractor.exists_of_scanNumber`, `Extractor.exists_of_scanSymbol`: what is found.
-/

namespace Formula

open Text

/-! ### Numbers -/

namespace Extractor

/-- Whether a word is a hexadecimal number behind its `&`. -/
def isHexWord : Text → Bool
  | [] => false
  | x :: run => (x == 'h' || x == 'H') && !run.isEmpty &&
      run.all fun d => d.isDigit || ('a' ≤ d && d ≤ 'f') || ('A' ≤ d && d ≤ 'F')

theorem eq_append_of_takeRun? {p : Char → Bool} {text run rest : Text}
    (h : takeRun? p text = some (run, rest)) :
    text = run ++ rest ∧ run ≠ [] ∧ ∀ c ∈ run, p c = true := by
  rw [takeRun?] at h
  split at h
  · cases h
  · next hne =>
    obtain ⟨rfl, rfl⟩ := Prod.mk.inj (Option.some.inj h)
    exact ⟨List.takeWhile_append_dropWhile.symm, hne, List.all_eq_true.mp List.all_takeWhile⟩

/-- A number: a word that is no name of a function, at the end of a text that starts with a word or
is the mark of a hexadecimal number. -/
structure Numeral (number : Text) : Prop where
  exists_word : ∃ pre word, number = pre ++ word ∧ word ≠ [] ∧
    (∀ c ∈ word, isIdentifierChar c = true) ∧ isFunctionName word = false ∧
    (∀ c ∈ pre.getLast?, isIdentifierChar c = false) ∧
    ((∃ c ∈ number.head?, isIdentifierChar c = true) ∨ pre = ['&'] ∧ isHexWord word = true)

theorem isFunctionName_eq_false {word : Text}
    (h : word.head?.any isDecimalDigit = true ∨ isHexWord word = true) :
    isFunctionName word = false := by
  have hall : (Function.allSpellings.all fun x =>
      !(x.head?.any isDecimalDigit || isHexWord x)) = true := by decide
  by_contra hname
  have := List.all_eq_true.mp hall word
    (mem_allSpellings_of_isFunctionName (Bool.eq_true_of_not_eq_false hname))
  rw [Bool.not_eq_true', Bool.or_eq_false_iff] at this
  rcases h with h | h
  · rw [this.1] at h
    cases h
  · rw [this.2] at h
    cases h

theorem isIdentifierChar_of_isDecimalDigit {c : Char} (h : isDecimalDigit c = true) :
    isIdentifierChar c = true :=
  isIdentifierChar_of_isWordChar (isWordChar_of_isDecimalDigit h)

theorem isDecimalDigit_zero : isDecimalDigit '0' = true := by decide

theorem numeral_word {word : Text} (hne : word ≠ []) (hword : ∀ c ∈ word, isIdentifierChar c = true)
    (hdigit : word.head?.any isDecimalDigit = true) : Numeral word := by
  obtain ⟨c, word, rfl⟩ := List.exists_cons_of_ne_nil hne
  exact ⟨[], _, rfl, hne, hword, isFunctionName_eq_false (.inl hdigit), by simp,
    .inl ⟨c, rfl, hword c (List.mem_cons_self ..)⟩⟩

theorem numeral_of_takeBinary? {text number rest : Text}
    (h : takeBinary? text = some (number, rest)) : text = number ++ rest ∧ Numeral number := by
  unfold takeBinary? at h
  split at h
  · next b tail =>
    split at h
    · next hb =>
      obtain ⟨⟨run, rest'⟩, hrun, heq⟩ := Option.map_eq_some_iff.mp h
      obtain ⟨rfl, rfl⟩ := Prod.mk.inj heq
      obtain ⟨rfl, -, hall⟩ := eq_append_of_takeRun? hrun
      refine ⟨rfl, numeral_word (by simp) (fun c hc => ?_) isDecimalDigit_zero⟩
      rcases List.mem_cons.mp hc with rfl | hc
      · decide
      · rcases List.mem_cons.mp hc with rfl | hc
        · rcases hb with rfl | rfl <;> decide
        · have := hall c hc
          simp only [Bool.or_eq_true, beq_iff_eq] at this
          rcases this with (rfl | rfl) | rfl <;> decide
    · cases h
  · cases h

theorem toNat_lt_of_isHexDigit {c : Char}
    (h : (c.isDigit || ('a' ≤ c && c ≤ 'f') || ('A' ≤ c && c ≤ 'F')) = true) : c.toNat < 0x80 := by
  simp only [Bool.or_eq_true, Bool.and_eq_true, decide_eq_true_eq, Char.le_def,
    UInt32.le_iff_toNat_le] at h
  rcases h with (hdigit | hlower) | hupper
  · exact toNat_lt_of_isDigit hdigit
  · exact Nat.lt_of_le_of_lt hlower.2 (by decide)
  · exact Nat.lt_of_le_of_lt hupper.2 (by decide)

theorem isIdentifierChar_of_isHexDigit {c : Char}
    (h : (c.isDigit || ('a' ≤ c && c ≤ 'f') || ('A' ≤ c && c ≤ 'F')) = true) :
    isIdentifierChar c = true := by
  have hall : ∀ n < 0x80, ((Char.ofNat n).isDigit || ('a' ≤ Char.ofNat n && Char.ofNat n ≤ 'f') ||
      ('A' ≤ Char.ofNat n && Char.ofNat n ≤ 'F')) = true →
        isIdentifierChar (Char.ofNat n) = true := by decide
  have := hall c.toNat (toNat_lt_of_isHexDigit h)
  rw [Char.ofNat_toNat] at this
  exact this h

theorem numeral_of_takeHex? {text number rest : Text}
    (h : takeHex? text = some (number, rest)) : text = number ++ rest ∧ Numeral number := by
  unfold takeHex? at h
  split at h
  · next c x tail =>
    split at h
    · next hmark =>
      obtain ⟨⟨run, rest'⟩, hrun, heq⟩ := Option.map_eq_some_iff.mp h
      obtain ⟨rfl, rfl⟩ := Prod.mk.inj heq
      obtain ⟨rfl, hne, hall⟩ := eq_append_of_takeRun? hrun
      have hx : isIdentifierChar x = true := by
        rcases hmark with ⟨-, rfl | rfl⟩ | ⟨-, rfl | rfl⟩ <;> decide
      have hrun : ∀ c ∈ x :: run, isIdentifierChar c = true :=
        List.forall_mem_cons.mpr ⟨hx, fun c hc => isIdentifierChar_of_isHexDigit (hall c hc)⟩
      refine ⟨rfl, ?_⟩
      rcases hmark with ⟨rfl, -⟩ | ⟨rfl, hh⟩
      · exact numeral_word (by simp) (List.forall_mem_cons.mpr ⟨by decide, hrun⟩)
          isDecimalDigit_zero
      · have hhex : isHexWord (x :: run) = true := by
          simp only [isHexWord, Bool.and_eq_true, Bool.or_eq_true, beq_iff_eq, Bool.not_eq_true',
            List.isEmpty_eq_false_iff, List.all_eq_true]
          exact ⟨⟨hh, hne⟩, by simpa using hall⟩
        refine ⟨['&'], x :: run, rfl, by simp, hrun, isFunctionName_eq_false (.inr hhex),
          fun c hc => ?_, .inr ⟨rfl, hhex⟩⟩
        obtain rfl : '&' = c := by simpa using hc
        decide
    · cases h
  · cases h

theorem exists_of_takeFraction {text fraction rest : Text}
    (h : takeFraction text = (fraction, rest)) : text = fraction ++ rest ∧
      (fraction = [] ∨ ∃ tail, fraction = '.' :: tail ∧ ∀ d ∈ tail, isDecimalDigit d = true) := by
  unfold takeFraction at h
  split at h
  · split at h
    · next run rest' hrun =>
      obtain ⟨rfl, rfl⟩ := Prod.mk.inj h
      obtain ⟨rfl, -, hall⟩ := eq_append_of_takeRun? hrun
      exact ⟨rfl, .inr ⟨run, rfl, hall⟩⟩
    · obtain ⟨rfl, rfl⟩ := Prod.mk.inj h
      exact ⟨rfl, .inl rfl⟩
  · obtain ⟨rfl, rfl⟩ := Prod.mk.inj h
    exact ⟨rfl, .inl rfl⟩

/-- The parts of a number with an exponent. -/
structure Exponential (whole fraction : Text) (letter : Char) (sign run : Text) : Prop where
  whole_ne_nil : whole ≠ []
  whole : ∀ d ∈ whole, isDecimalDigit d = true
  fraction : fraction = [] ∨ ∃ tail, fraction = '.' :: tail ∧ ∀ d ∈ tail, isDecimalDigit d = true
  letter : letter = 'e' ∨ letter = 'E'
  sign : sign = [] ∨ sign = ['+'] ∨ sign = ['-']
  run_ne_nil : run ≠ []
  run : ∀ d ∈ run, isDecimalDigit d = true

theorem exists_of_takeExponential? {text number rest : Text}
    (h : takeExponential? text = some (number, rest)) :
    ∃ whole fraction letter sign run, text = number ++ rest ∧
      number = whole ++ fraction ++ letter :: (sign ++ run) ∧
      Exponential whole fraction letter sign run := by
  obtain ⟨⟨whole, rest₁⟩, hwhole, hread⟩ := Option.bind_eq_some_iff.mp h
  obtain ⟨rfl, hne, hdigits⟩ := eq_append_of_takeRun? hwhole
  cases htake : takeFraction rest₁ with
  | mk fraction rest₂ =>
  obtain ⟨rfl, hfraction⟩ := exists_of_takeFraction htake
  dsimp only at hread
  rw [htake] at hread
  cases rest₂ with
  | nil => cases hread
  | cons letter rest₃ =>
  dsimp only at hread
  split at hread
  · next hletter =>
    have hparts {sign tail : Text} (hsign : sign = [] ∨ sign = ['+'] ∨ sign = ['-'])
        (hrest : rest₃ = sign ++ tail) (h : ((takeRun? isDecimalDigit tail).bind fun p =>
          some (whole ++ fraction ++ letter :: sign ++ p.1, p.2)) = some (number, rest)) :
        ∃ whole' fraction' letter' sign' run,
          whole ++ (fraction ++ letter :: rest₃) = number ++ rest ∧
          number = whole' ++ fraction' ++ letter' :: (sign' ++ run) ∧
          Exponential whole' fraction' letter' sign' run := by
      obtain ⟨⟨run, rest'⟩, hrun, heq⟩ := Option.bind_eq_some_iff.mp h
      obtain ⟨rfl, rfl⟩ := Prod.mk.inj (Option.some.inj heq)
      obtain ⟨rfl, hrunne, hall⟩ := eq_append_of_takeRun? hrun
      exact ⟨whole, fraction, letter, sign, run, by simp [hrest], by simp,
        hne, hdigits, hfraction, hletter, hsign, hrunne, hall⟩
    split at hread
    · exact hparts (.inr (.inl rfl)) rfl hread
    · exact hparts (.inr (.inr rfl)) rfl hread
    · exact hparts (.inl rfl) rfl hread
  · cases hread

theorem numeral_of_takeExponential? {text number rest : Text}
    (h : takeExponential? text = some (number, rest)) : text = number ++ rest ∧ Numeral number := by
  obtain ⟨whole, fraction, letter, sign, run, htext, rfl, hparts⟩ := exists_of_takeExponential? h
  refine ⟨htext, ?_⟩
  obtain ⟨d, tail, rfl⟩ := List.exists_cons_of_ne_nil hparts.whole_ne_nil
  have hd : isDecimalDigit d = true := hparts.whole d (List.mem_cons_self ..)
  have hrun : ∀ c ∈ run, isIdentifierChar c = true := fun c hc =>
    isIdentifierChar_of_isDecimalDigit (hparts.run c hc)
  have hsigned {s : Char} (hs : isIdentifierChar s = false) (hsign : sign = [s]) :
      Numeral (d :: tail ++ fraction ++ letter :: (sign ++ run)) := by
    have hname : isFunctionName run = false := by
      obtain ⟨e, run, rfl⟩ := List.exists_cons_of_ne_nil hparts.run_ne_nil
      exact isFunctionName_eq_false (.inl (hparts.run e (List.mem_cons_self ..)))
    refine ⟨d :: tail ++ fraction ++ [letter, s], run, by simp [hsign], hparts.run_ne_nil, hrun,
      hname, fun c hc => ?_, .inl ⟨d, rfl, isIdentifierChar_of_isDecimalDigit hd⟩⟩
    rw [List.getLast?_append_of_ne_nil _ (List.cons_ne_nil _ _)] at hc
    obtain rfl : s = c := by simpa using hc
    exact hs
  rcases hparts.sign with rfl | hsign | hsign
  · refine numeral_word (by simp) (fun c hc => ?_) hd
    rw [List.nil_append, List.mem_append, List.mem_append, List.mem_cons (a := c) (b := letter)] at hc
    rcases hc with (hc | hc) | hc | hc
    · exact isIdentifierChar_of_isDecimalDigit (hparts.whole c hc)
    · rcases hparts.fraction with rfl | ⟨digits, rfl, hdigits⟩
      · cases hc
      · rcases List.mem_cons.mp hc with rfl | hc
        · decide
        · exact isIdentifierChar_of_isDecimalDigit (hdigits c hc)
    · rw [hc]
      rcases hparts.letter with rfl | rfl <;> decide
    · exact hrun c hc
  · exact hsigned (by decide) hsign
  · exact hsigned (by decide) hsign

theorem numeral_of_takeNumber? {text number rest : Text}
    (h : takeNumber? text = some (number, rest)) : text = number ++ rest ∧ Numeral number := by
  rw [takeNumber?] at h
  rcases Option.or_eq_some_iff.mp h with h | ⟨-, h⟩
  · exact numeral_of_takeBinary? h
  · rcases Option.or_eq_some_iff.mp h with h | ⟨-, h⟩
    · exact numeral_of_takeHex? h
    · exact numeral_of_takeExponential? h

/-- A number that is found stands at the front of what remains and touches no other word. -/
theorem exists_of_scanNumber {text : Text} {start first last : Nat} {v : Value}
    (h : scanNumber text start = .found first last v) :
    ∃ before number rest, text = before ++ number ++ rest ∧ first = byteLength before ∧
      last = byteLength before + byteLength number ∧
      takeNumber? (number ++ rest) = some (number, rest) ∧ IsolatedBy before rest := by
  have happend := splitAtOrAfter_append start text
  simp only [scanNumber] at h
  split at h
  · cases h
  · next skipped number rest hnumber =>
    obtain ⟨tail, htail, hnumber⟩ := exists_of_findNumber? hnumber
    obtain ⟨rfl, -⟩ := numeral_of_takeNumber? hnumber
    split at h
    · cases h
    · next htouches =>
      split at h
      · obtain ⟨rfl, rfl, -⟩ := Extraction.found.inj h
        rw [Bool.or_eq_true, not_or, Bool.not_eq_true, Bool.not_eq_true] at htouches
        refine ⟨(splitAtOrAfter start text).1 ++ skipped, number, rest, ?_, ?_, ?_, hnumber, ?_, ?_⟩
        · rw [List.append_assoc, List.append_assoc, ← htail, happend]
        · rw [byteLength_append]
        · rw [byteLength_append]
        · intro c hc
          simpa [Option.mem_def.mp hc] using htouches.1
        · intro c hc
          simpa [Option.mem_def.mp hc] using htouches.2
      · cases h

/-- A constant that is found stands in brackets. -/
theorem exists_of_scanSymbol {style : Precedence} {text : Text} {start first last : Nat} {v : Value}
    (h : scanSymbol { precedence := style } text start = .found first last v) :
    ∃ before inner rest, text = before ++ '[' :: (inner ++ ']' :: rest) ∧
      first = byteLength before ∧ last = byteLength before + byteLength ('[' :: (inner ++ [']'])) ∧
      (Constants.symbol? inner).isSome = true := by
  have hleft : ({ precedence := style } : Definition).symbolIndicators.1.toList = ['['] :=
    (by decide : "[".toList = ['['])
  have hright : ({ precedence := style } : Definition).symbolIndicators.2.toList = [']'] :=
    (by decide : "]".toList = [']'])
  simp only [scanSymbol, hleft, hright] at h
  split at h
  · cases h
  · next skipped tail hcut =>
    split at h
    · cases h
    · next inner rest hclose =>
      split at h
      · next hvalue =>
        obtain ⟨rfl, rfl, -⟩ := Extraction.found.inj h
        obtain ⟨⟨passed, rest'⟩, hsplit, hopen⟩ := Option.bind_eq_some_iff.mp hcut
        obtain ⟨rfl, rfl⟩ := eq_append_of_splitAtByte? hsplit
        obtain rfl := eq_append_of_cut? hopen
        obtain rfl := eq_append_of_cut? hclose
        refine ⟨passed ++ skipped, inner, rest, by simp, by rw [byteLength_append], ?_, ?_⟩
        · simp only [byteLength_append, byteLength_cons, byteLength_nil]
          omega
        · obtain ⟨name, hname, -⟩ := Option.bind_eq_some_iff.mp hvalue
          rw [hname]
          rfl
      · cases h

end Extractor

/-! ### Names in place of literals -/

namespace Source

theorem generatedName_word (n : Nat) : Context.generatedName n ≠ [] ∧
    ∀ c ∈ Context.generatedName n, isIdentifierChar c = true :=
  ⟨by simp [Context.generatedName], fun _ hc =>
    isIdentifierChar_of_isWordChar (Context.Sorted.isWordChar_of_mem_generatedName hc)⟩

theorem names_intern {ctx : Context}
    (h : ∀ name ∈ ctx.literals.map Prod.snd, ∃ n, name = Context.generatedName n) (value : Value)
    (text : Text) : ∀ name ∈ (ctx.intern value text).2.literals.map Prod.snd,
      ∃ n, name = Context.generatedName n := by
  rw [Context.intern]
  split
  · exact h
  · exact List.forall_mem_cons.mpr ⟨⟨_, rfl⟩, h⟩

/-! ### The passes -/

theorem Fills.withoutBlanks {isName : Text → Prop} {out filled : Text} (h : Fills isName out filled)
    (hnames : ∀ name, isName name → ∀ c ∈ name, isWordChar c = true) :
    Fills isName (Text.withoutBlanks out) (Text.withoutBlanks filled) := by
  induction h with
  | refl text => exact .refl _
  | @name before name out filled hname _ ih =>
    have hkept : Text.withoutBlanks name = name := by
      rw [Text.withoutBlanks, List.filter_eq_self]
      intro c hc
      rw [Literal.isBlank_of_isWordChar (hnames name hname c hc)]
      rfl
    have hquote : isBlank '"' = false := by decide
    have hout : Text.withoutBlanks (before ++ '"' :: out) =
        Text.withoutBlanks before ++ '"' :: Text.withoutBlanks out := by
      simp [Text.withoutBlanks, hquote]
    have hfilled : Text.withoutBlanks (before ++ name ++ filled) =
        Text.withoutBlanks before ++ name ++ Text.withoutBlanks filled := by
      rw [← hkept]
      simp [Text.withoutBlanks]
    rw [hout, hfilled]
    exact .name _ hname ih

end Source

/-- Two cuts of a text after the same number of bytes are the same. -/
theorem Text.append_inj_of_byteLength {a b c d : Text} (h : a ++ b = c ++ d)
    (hlen : byteLength a = byteLength c) : a = c ∧ b = d := by
  have hsplit := splitAtByte?_append a b
  rw [h, hlen, splitAtByte?_append] at hsplit
  obtain ⟨rfl, rfl⟩ := Prod.mk.inj (Option.some.inj hsplit)
  exact ⟨rfl, rfl⟩

namespace Extractor

/-- A number that is found between two parts of a text. -/
theorem of_scanNumber_append {before number rest : Text} {offset : Nat} {v : Value}
    (h : scanNumber (before ++ number ++ rest) offset =
      .found (byteLength before) (byteLength before + byteLength number) v) :
    takeNumber? (number ++ rest) = some (number, rest) ∧ IsolatedBy before rest := by
  obtain ⟨before', number', rest', htext, hfirst, hlast, htake, hisolated⟩ :=
    exists_of_scanNumber h
  rw [List.append_assoc, List.append_assoc] at htext
  obtain ⟨rfl, hparts⟩ := append_inj_of_byteLength htext hfirst
  obtain ⟨rfl, rfl⟩ := append_inj_of_byteLength hparts (Nat.add_left_cancel hlast)
  exact ⟨htake, hisolated⟩

/-- A constant that is found between two parts of a text. -/
theorem of_scanSymbol_append {style : Precedence} {before literal rest : Text} {offset : Nat}
    {v : Value} (h : scanSymbol { precedence := style } (before ++ literal ++ rest) offset =
      .found (byteLength before) (byteLength before + byteLength literal) v) :
    ∃ inner, literal = '[' :: (inner ++ [']']) ∧ (Constants.symbol? inner).isSome = true := by
  obtain ⟨before', inner, rest', htext, hfirst, hlast, hsymbol⟩ := exists_of_scanSymbol h
  rw [List.append_assoc] at htext
  obtain ⟨rfl, hparts⟩ := append_inj_of_byteLength htext hfirst
  rw [List.append_cons inner, ← List.cons_append] at hparts
  obtain ⟨rfl, rfl⟩ := append_inj_of_byteLength hparts (Nat.add_left_cancel hlast)
  exact ⟨inner, rfl, hsymbol⟩

end Extractor

end Formula
