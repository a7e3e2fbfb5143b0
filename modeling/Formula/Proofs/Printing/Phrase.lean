import Mathlib.Algebra.GroupWithZero.Nat
import Formula.Proofs.Compile.Preparation
import Formula.Proofs.Text.Nesting
import Formula.Proofs.Text.Words

/-!
# Printed expressions

An expression of integers, parameters, negation, the arithmetic operators and calls of functions
that accept any numbers. It is printed with parentheses around every negation and every operator
with its two operands, so the text shows the tree: its parentheses match, and its words are the
integers, the parameters and the names of the functions. Nothing in it looks like a literal that
has to be taken out of a text first.

## Main definitions

* `Phrase`, `Phrase.text`: expressions and their printed text.
* `Phrase.IsPlain`: what an expression may be made of.
* `Phrase.parameters`, `Phrase.operators`: the parameters from left to right, and the number of
  operators.

## Main results

* `Phrase.IsPlain.balanced`: the parentheses of a printed text match.
* `Phrase.IsPlain.filter_words`: the parameters are the words that may name one.
* `Phrase.IsPlain.extractLiterals`: nothing is taken out of a printed text.
-/

namespace Formula

open Text

/-- An expression of integers, parameters, negation, operators and calls. -/
inductive Phrase where
  | literal (digits : Text)
  | parameter (name : Text)
  | negate (operand : Phrase)
  | binary (op : Operation) (left right : Phrase)
  | call (f : Function) (args : List Phrase)

namespace Phrase

/-- Functions whose overloads accept any numbers. -/
def functions : List Function := [
  .abs, .rounding .ceil, .rounding .floor, .rounding .round, .rounding .truncate, .sign,
  .real .sqrt, .real .exp, .real .sin, .real .cos, .real .tan, .real .ln, .real .lg, .real .log2,
  .real .cbrt, .log, .pow, .atan2, .min, .max]

/-- The printed text: parentheses around every negation and every operator with its operands, and
around the arguments of a call. -/
def text : Phrase → Text
  | literal digits => digits
  | parameter name => name
  | negate e => '(' :: '-' :: (e.text ++ [')'])
  | binary op l r => '(' :: (l.text ++ op.mark :: (r.text ++ [')']))
  | call f args => f.name.toList ++ '(' :: ([','].intercalate (args.map text) ++ [')'])

/-- The names of the parameters as they occur from left to right. -/
def parameters : Phrase → List Text
  | literal _ => []
  | parameter name => [name]
  | negate e => e.parameters
  | binary _ l r => l.parameters ++ r.parameters
  | call _ args => args.flatMap parameters

/-- The number of negations and of operators between two operands. -/
def operators : Phrase → Nat
  | literal _ | parameter _ => 0
  | negate e => e.operators + 1
  | binary _ l r => l.operators + r.operators + 1
  | call _ args => (args.map operators).sum

/-- The expression is made of integers of 64 bits, plain names that are no names of functions,
arithmetic operators, and calls of functions that accept any numbers. -/
inductive IsPlain : Phrase → Prop
  | literal {digits : Text} (h : digits.isPlainInteger = true) : IsPlain (literal digits)
  | parameter {name : Text} (hname : name.isPlainName = true)
      (hfunction : Function.isName (String.ofList name) = false) : IsPlain (parameter name)
  | negate {e : Phrase} (h : IsPlain e) : IsPlain (negate e)
  | binary {op : Operation} {l r : Phrase} (hop : op ∈ Family.arithmetic.operations)
      (hl : IsPlain l) (hr : IsPlain r) : IsPlain (binary op l r)
  | call {f : Function} {args : List Phrase} (hf : f ∈ functions) (hcount : args.length = f.arity)
      (hargs : ∀ e ∈ args, IsPlain e) : IsPlain (call f args)

/-! ### Names of functions -/

/-- The name of a function starts with a letter and goes on with letters and digits. -/
theorem exists_name {f : Function} (h : f ∈ functions) :
    ∃ c rest, f.name.toList = c :: rest ∧ isLetter c = true ∧ isNameStart c = true ∧
      ∀ d ∈ c :: rest, isWordChar d = true ∧ (isLetter d || isNumeral d || d == '_') = true := by
  have hall : ∀ f ∈ functions, ∃ c rest, f.name.toList = c :: rest ∧ isLetter c = true ∧
      isNameStart c = true ∧
      ((c :: rest).all fun d => isWordChar d && (isLetter d || isNumeral d || d == '_')) = true
      := by
    simp only [functions, List.forall_mem_cons, List.not_mem_nil, false_imp_iff, implies_true,
      and_true]
    refine ⟨?_, ?_, ?_, ?_, ?_, ?_, ?_, ?_, ?_, ?_, ?_, ?_, ?_, ?_, ?_, ?_, ?_, ?_, ?_, ?_⟩ <;>
      exact ⟨_, _, rfl, by decide, by decide, by decide⟩
  obtain ⟨c, rest, hname, hletter, hstart, hchars⟩ := hall f h
  refine ⟨c, rest, hname, hletter, hstart, fun d hd => ?_⟩
  simpa using List.all_eq_true.mp hchars d hd

theorem isWordChar_of_mem_name {f : Function} (h : f ∈ functions) {c : Char}
    (hc : c ∈ f.name.toList) : isWordChar c = true := by
  obtain ⟨d, rest, hname, -, -, hchars⟩ := exists_name h
  exact (hchars c (hname ▸ hc)).1

theorem name_ne_nil {f : Function} (h : f ∈ functions) : f.name.toList ≠ [] := by
  obtain ⟨d, rest, hname, -⟩ := exists_name h
  rw [hname]
  exact List.cons_ne_nil _ _

theorem arity_pos {f : Function} (h : f ∈ functions) : 0 < f.arity := by
  revert f
  decide

theorem lookup?_name {f : Function} (h : f ∈ functions) :
    Function.lookup? f.name f.arity = some f := by
  revert f
  decide

theorem isName_name {f : Function} (h : f ∈ functions) : Function.isName f.name = true := by
  revert f
  decide

/-! ### Characters -/

/-- The characters around the words of a printed text. -/
def marks : List Char :=
  '(' :: ')' :: ',' :: Family.arithmetic.marks

theorem isIdentifierChar_of_mem_marks {c : Char} (h : c ∈ marks) : isIdentifierChar c = false := by
  have hall : (marks.all fun c => !isIdentifierChar c) = true := by decide
  simpa using List.all_eq_true.mp hall c h

theorem isWordChar_of_mem_marks {c : Char} (h : c ∈ marks) : isWordChar c = false := by
  by_contra hword
  have := isIdentifierChar_of_isWordChar (Bool.not_eq_false _ ▸ hword)
  rw [isIdentifierChar_of_mem_marks h] at this
  cases this

theorem mark_mem_marks {op : Operation} (h : op ∈ Family.arithmetic.operations) : op.mark ∈ marks :=
  List.mem_cons_of_mem _ (List.mem_cons_of_mem _ (List.mem_cons_of_mem _
    (Family.mark_mem_marks h)))

theorem mark_ne {op : Operation} (h : op ∈ Family.arithmetic.operations) :
    op.mark ≠ '(' ∧ op.mark ≠ ')' ∧ op.mark ≠ ',' := by
  revert op
  decide

/-- A word of a printed text: an atom, or the name of a function. -/
theorem isAtom_literal {digits : Text} (h : digits.isPlainInteger = true) :
    Family.arithmetic.isAtom digits = true := by
  simp [Family.isAtom, Family.value?, h]

theorem isAtom_parameter {name : Text} (h : name.isPlainName = true) :
    Family.arithmetic.isAtom name = true := by
  simp [Family.isAtom, h]

namespace IsPlain

/-- Words and the characters around them are all there is in a printed text. -/
theorem mem_marks_or_isWordChar {e : Phrase} (h : e.IsPlain) {c : Char} (hc : c ∈ e.text) :
    c ∈ marks ∨ isWordChar c = true := by
  induction h with
  | literal hdigits =>
    rw [text] at hc
    exact .inr (Family.isWordChar_of_mem_atom (isAtom_literal hdigits) hc)
  | parameter hname _ =>
    rw [text] at hc
    exact .inr (Family.isWordChar_of_mem_atom (isAtom_parameter hname) hc)
  | negate _ ih =>
    simp only [text, List.mem_cons, List.mem_append, List.not_mem_nil, or_false] at hc
    rcases hc with rfl | rfl | hc | rfl
    · exact .inl (by decide)
    · exact .inl (by decide)
    · exact ih hc
    · exact .inl (by decide)
  | binary hop _ _ ihl ihr =>
    simp only [text, List.mem_cons, List.mem_append, List.not_mem_nil, or_false] at hc
    rcases hc with rfl | hc | rfl | hc | rfl
    · exact .inl (by decide)
    · exact ihl hc
    · exact .inl (mark_mem_marks hop)
    · exact ihr hc
    · exact .inl (by decide)
  | call hf _ _ ih =>
    simp only [text, List.mem_cons, List.mem_append, List.not_mem_nil, or_false] at hc
    rcases hc with hc | rfl | hc | rfl
    · exact .inr (isWordChar_of_mem_name hf hc)
    · exact .inl (by decide)
    · rcases mem_intercalate hc with hc | ⟨part, hpart, hc⟩
      · obtain rfl := List.mem_singleton.mp hc
        exact .inl (by decide)
      · obtain ⟨e, he, rfl⟩ := List.mem_map.mp hpart
        exact ih e he hc
    · exact .inl (by decide)

theorem not_mem {e : Phrase} (h : e.IsPlain) {c : Char} (hmark : c ∉ marks)
    (hword : isWordChar c = false) : c ∉ e.text := by
  intro hmem
  rcases h.mem_marks_or_isWordChar hmem with hc | hc
  · exact hmark hc
  · rw [hword] at hc
    cases hc

theorem text_ne_nil {e : Phrase} (h : e.IsPlain) : e.text ≠ [] := by
  cases h with
  | literal hdigits => simpa [text] using Family.atom_ne_nil (isAtom_literal hdigits)
  | parameter hname _ => simpa [text] using Family.atom_ne_nil (isAtom_parameter hname)
  | negate _ => simp [text]
  | binary _ _ _ => simp [text]
  | call _ _ _ => simp [text]

/-- The parentheses of a printed text match. -/
theorem balanced {e : Phrase} (h : e.IsPlain) : Balanced false e.text := by
  have hword {x : Text} (hx : ∀ c ∈ x, isWordChar c = true) : Balanced false x := by
    refine .of_forall fun c hc => ⟨?_, ?_, ?_⟩ <;> rintro rfl <;> cases hx _ hc
  induction h with
  | literal hdigits =>
    rw [text]
    exact hword fun c hc => Family.isWordChar_of_mem_atom (isAtom_literal hdigits) hc
  | parameter hname _ =>
    rw [text]
    exact hword fun c hc => Family.isWordChar_of_mem_atom (isAtom_parameter hname) hc
  | negate _ ih =>
    rw [text, ← List.cons_append]
    exact .group (.char (by decide) (by decide) (by decide) ih.of_inside) (.nil _)
  | binary hop _ _ ihl ihr =>
    obtain ⟨hopen, hclose, hseparator⟩ := mark_ne hop
    have hinner := ihl.of_inside.append
      (.char hopen hclose (fun heq => absurd heq hseparator) ihr.of_inside)
    simpa [text] using Balanced.group hinner (.nil false)
  | call hf _ _ ih =>
    rw [text]
    refine (hword fun c hc => isWordChar_of_mem_name hf hc).append (.group ?_ (.nil _))
    exact Balanced.intercalate (List.forall_mem_map.mpr ih)

/-! ### Words -/

end IsPlain

theorem words_atom {x : Text} (h : Family.arithmetic.isAtom x = true) : words x = [x] :=
  words_of_name (Family.atom_ne_nil h) fun _ hc =>
    isIdentifierChar_of_isWordChar (Family.isWordChar_of_mem_atom h hc)

theorem words_negate (e : Phrase) : words (negate e).text = words e.text := by
  rw [text, words_cons (by decide), words_cons (by decide), words_append_cons (by decide),
    words_nil, List.append_nil]

theorem words_binary {op : Operation} (hop : op ∈ Family.arithmetic.operations) (l r : Phrase) :
    words (binary op l r).text = words l.text ++ words r.text := by
  rw [text, words_cons (by decide),
    words_append_cons (isIdentifierChar_of_mem_marks (mark_mem_marks hop)),
    words_append_cons (by decide), words_nil, List.append_nil]

theorem words_call {f : Function} (hf : f ∈ functions) (args : List Phrase) :
    words (call f args).text = f.name.toList :: args.flatMap fun e => words e.text := by
  rw [text, words_append_cons (by decide), words_append_cons (by decide), words_nil,
    List.append_nil, words_of_name (name_ne_nil hf) fun _ hc =>
      isIdentifierChar_of_isWordChar (isWordChar_of_mem_name hf hc),
    words_intercalate, List.flatMap_map, List.singleton_append]

/-- Whether a word may name a parameter. -/
def isParameter (word : Text) : Bool :=
  word.isPlainName && !Function.isName (String.ofList word)

theorem isParameter_of_isPlainInteger {digits : Text} (h : digits.isPlainInteger = true) :
    isParameter digits = false := by
  obtain ⟨hne, hall⟩ : digits ≠ [] ∧ ∀ c ∈ digits, c.isDigit = true := by
    simp only [isPlainInteger, Bool.and_eq_true, decide_eq_true_eq, List.all_eq_true, ne_eq] at h
    exact h.1
  obtain ⟨c, rest, rfl⟩ := List.exists_cons_of_ne_nil hne
  have hc := isAlphabetic_of_isDecimalDigit
    (isDecimalDigit_of_isDigit (hall c (List.mem_cons_self ..)))
  have hunderscore : c ≠ '_' := by
    rintro rfl
    exact absurd (hall _ (List.mem_cons_self ..)) (by decide)
  simp [isParameter, isPlainName, hc, hunderscore]

namespace IsPlain

/-- A word of a printed text is an atom or the name of a function. -/
theorem cases_of_mem_words {e : Phrase} (h : e.IsPlain) {x : Text} (hx : x ∈ words e.text) :
    Family.arithmetic.isAtom x = true ∨ ∃ f ∈ functions, x = f.name.toList := by
  induction h with
  | literal hdigits =>
    have hatom := isAtom_literal hdigits
    rw [text, words_atom hatom, List.mem_singleton] at hx
    exact .inl (hx ▸ hatom)
  | parameter hname _ =>
    have hatom := isAtom_parameter hname
    rw [text, words_atom hatom, List.mem_singleton] at hx
    exact .inl (hx ▸ hatom)
  | negate _ ih =>
    rw [words_negate] at hx
    exact ih hx
  | binary hop _ _ ihl ihr =>
    rw [words_binary hop, List.mem_append] at hx
    exact hx.elim ihl ihr
  | call hf _ _ ih =>
    rw [words_call hf, List.mem_cons, List.mem_flatMap] at hx
    rcases hx with rfl | ⟨e, he, hx⟩
    · exact .inr ⟨_, hf, rfl⟩
    · exact ih e he hx

/-- The parameters are the words that may name one. -/
theorem filter_words {e : Phrase} (h : e.IsPlain) :
    (words e.text).filter isParameter = e.parameters := by
  induction h with
  | @literal digits hdigits =>
    have hnot := isParameter_of_isPlainInteger hdigits
    rw [text, words_atom (isAtom_literal hdigits), parameters, List.filter_singleton, hnot]
    rfl
  | @parameter name hname hfunction =>
    have his : isParameter name = true := by simp [isParameter, hname, hfunction]
    rw [text, words_atom (isAtom_parameter hname), parameters, List.filter_singleton, his]
    rfl
  | negate _ ih => rw [words_negate, ih, parameters]
  | binary hop _ _ ihl ihr => rw [words_binary hop, List.filter_append, ihl, ihr, parameters]
  | @call f args hf _ _ ih =>
    have hnot : isParameter f.name.toList = false := by
      simp [isParameter, String.ofList_toList, isName_name hf]
    rw [words_call hf, List.filter_cons_of_neg (by simp [hnot]), List.filter_flatMap, parameters]
    exact List.flatMap_congr fun e he => ih e he

/-! ### Literals -/

/-- Digits in a printed text that stand at the front of a word are the whole word, and no number
that has to be taken out. -/
theorem getLast?_of_takeNumber? {e : Phrase} (h : e.IsPlain) {before rest : Text}
    (htext : e.text = before ++ rest) (hnumber : (Extractor.takeNumber? rest).isSome) :
    before.getLast?.any isIdentifierChar = true := by
  obtain ⟨c, tail, rfl⟩ : ∃ c tail, rest = c :: tail := by
    cases rest with
    | nil => cases hnumber
    | cons c tail => exact ⟨c, tail, rfl⟩
  have hand : c ≠ '&' := by
    rintro rfl
    exact h.not_mem (by decide) (by decide)
      (htext ▸ List.mem_append_right _ (List.mem_cons_self ..))
  have hdigit : isDecimalDigit c = true := by
    by_contra hdigit
    rw [Extractor.takeNumber?_cons_eq_none (eq_false_of_ne_true hdigit) hand] at hnumber
    cases hnumber
  by_contra hlast
  let x := (c :: tail).takeWhile isIdentifierChar
  let after := (c :: tail).dropWhile isIdentifierChar
  have hsplit : c :: tail = x ++ after := List.takeWhile_append_dropWhile.symm
  have hcons : x = c :: tail.takeWhile isIdentifierChar := by
    have := isIdentifierChar_of_isWordChar (isWordChar_of_isDecimalDigit hdigit)
    simp [x, this]
  have hne : x ≠ [] := hcons ▸ List.cons_ne_nil _ _
  have hx : ∀ d ∈ x, isIdentifierChar d = true := List.all_eq_true.mp List.all_takeWhile
  have hafter : ∀ d ∈ after.head?, isIdentifierChar d = false := fun d hd => by
    have := List.head?_dropWhile_not isIdentifierChar (c :: tail)
    rw [Option.mem_def.mp hd] at this
    simpa using this
  have hbefore : ∀ d ∈ before.getLast?, isIdentifierChar d = false := fun d hd => by
    rw [Option.mem_def.mp hd] at hlast
    simpa using hlast
  have hmem : x ∈ words e.text := by
    rw [htext, hsplit, ← List.append_assoc, words_isolated hne hx ⟨hbefore, hafter⟩]
    simp
  -- a word that starts with a digit is an integer
  have hstart {d : Char} {rest : Text} (heq : x = d :: rest) (hd : isNameStart d = true) :
      False := by
    obtain ⟨rfl, -⟩ := List.cons.inj (hcons.symm.trans heq)
    rw [isDecimalDigit_of_isNameStart hd] at hdigit
    cases hdigit
  rcases h.cases_of_mem_words hmem with hatom | ⟨f, hf, hname⟩
  · rcases Family.atom_cases hatom with ⟨d, rest, heq, hd, -⟩ | ⟨-, hdigits, -⟩
    · exact hstart heq hd
    · rw [hsplit, Extractor.takeNumber?_digits hne hdigits hafter] at hnumber
      cases hnumber
  · obtain ⟨d, rest, hcons', -, hd, -⟩ := exists_name hf
    exact hstart (hname.trans hcons') hd

/-- Nothing is taken out of a printed text. -/
theorem extractLiterals {e : Phrase} (h : e.IsPlain) (style : Precedence) :
    (Context.start e.text).extractLiterals { precedence := style } Registry.standard =
      (e.text, Context.start e.text) := by
  refine Context.extractLiterals_eq_self ?_ (h.not_mem (by decide) (by decide))
    (h.not_mem (by decide) (by decide)) (Extractor.scanNumber_ne_found_of_touches fun _ _ =>
      h.getLast?_of_takeNumber?) style
  rw [withoutBlanks, List.filter_eq_self]
  intro c hc
  rw [Bool.not_eq_true']
  rcases h.mem_marks_or_isWordChar hc with hc | hc
  · have hall : (marks.all fun c => !isBlank c) = true := by decide
    simpa using List.all_eq_true.mp hall c hc
  · exact Literal.isBlank_of_isWordChar hc

end IsPlain

end Phrase

end Formula
