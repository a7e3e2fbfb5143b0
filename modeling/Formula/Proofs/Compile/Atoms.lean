import Formula.Plugin.Extractors
import Formula.Proofs.Compile.Chain
import Formula.Proofs.Text.Occurrences

/-!
# The atoms of chains

An atom of a chain starts with a letter or an underscore and goes on with characters of names, or
it consists of digits. No operator is such a character. So a chain has no white space, no quotes and
no parentheses, and the searches for literals leave it as it is. What looks like a hexadecimal
number or a number with an exponent starts inside a name, or at an operator that a name precedes,
and a number that touches a name is none.

## Main results

* `Family.atom_cases`: the two kinds of atoms.
* `Family.parse_atom`: the literals among the atoms, and what they stand for.
* `Chain.not_mem_text`: characters that no chain has.
* `Chain.scanNumber_ne_found`: no numbers are taken out of a chain.
-/

namespace Formula

open Text

/-! ### Characters -/

namespace Text

theorem toNat_lt_of_isDigit {c : Char} (h : c.isDigit = true) : c.toNat < 0x80 := by
  have := isDigit_iff.mp h
  omega

theorem isDecimalDigit_of_isDigit {c : Char} (h : c.isDigit = true) : isDecimalDigit c = true := by
  rw [isDecimalDigit, if_pos (toNat_lt_of_isDigit h), h]

theorem isWordChar_of_isDecimalDigit {c : Char} (h : isDecimalDigit c = true) :
    isWordChar c = true := by
  have hnumeral : isNumeral c = true := by
    rw [isDecimalDigit] at h
    rw [isNumeral]
    split at h
    · next hascii => rw [if_pos hascii, h]
    · next hascii => rw [if_neg hascii, h, Bool.true_or, Bool.true_or]
  simp [isWordChar, isAlphanumeric, hnumeral]

theorem isWordChar_of_isDigit {c : Char} (h : c.isDigit = true) : isWordChar c = true :=
  isWordChar_of_isDecimalDigit (isDecimalDigit_of_isDigit h)

theorem isIdentifierChar_of_isWordChar {c : Char} (h : isWordChar c = true) :
    isIdentifierChar c = true := by
  simp only [isWordChar, isIdentifierChar, Bool.or_eq_true] at h ⊢
  exact .inl h

/-- Whether a name may start with a character. -/
def isNameStart (c : Char) : Bool :=
  isAlphabetic c || c == '_'

theorem isWordChar_of_isNameStart {c : Char} (h : isNameStart c = true) : isWordChar c = true := by
  simp only [isNameStart, isWordChar, isAlphanumeric, Bool.or_eq_true] at h ⊢
  tauto

theorem isDecimalDigit_of_isNameStart {c : Char} (h : isNameStart c = true) :
    isDecimalDigit c = false := by
  by_contra hdigit
  rw [isNameStart, isAlphabetic_of_isDecimalDigit (Bool.not_eq_false _ ▸ hdigit), Bool.false_or,
    beq_iff_eq] at h
  subst h
  exact hdigit (by decide)

/-- Lower case leaves what is then no letter as it was. -/
theorem toLower_eq_self {c : Char} (h : c.toLower.isAlpha = false) : c.toLower = c := by
  obtain heq | hupper := eq_or_of_toLower (c := c) rfl
  · exact heq.symm
  · rw [Bool.eq_false_iff, ne_eq, isAlpha_iff] at h
    omega

theorem toLower_of_isDigit {c : Char} (h : c.isDigit = true) : c.toLower = c := by
  obtain heq | hupper := eq_or_of_toLower (c := c) rfl
  · exact heq.symm
  · have := isDigit_iff.mp h
    omega

theorem ne_of_isNameStart {c d : Char} (h : isNameStart c = true)
    (hd : isNameStart d = false) : c ≠ d := by
  rintro rfl
  rw [h] at hd
  cases hd

end Text

namespace Family

theorem isIdentifierChar_of_mem_marks {f : Family} {m : Char} (h : m ∈ f.marks) :
    isIdentifierChar m = false := by
  have hall : (f.marks.all fun m => !isIdentifierChar m) = true := by
    cases f <;> decide
  simpa using List.all_eq_true.mp hall m h

theorem isWordChar_of_mem_marks {f : Family} {m : Char} (h : m ∈ f.marks) :
    isWordChar m = false := by
  by_contra hword
  have := isIdentifierChar_of_isWordChar (Bool.not_eq_false _ ▸ hword)
  rw [isIdentifierChar_of_mem_marks h] at this
  cases this

theorem mark_mem_marks {f : Family} {op : Operation} (h : op ∈ f.operations) : op.mark ∈ f.marks :=
  List.mem_cons_of_mem _ (List.mem_map_of_mem h)

/-! ### Atoms -/

/-- An atom is a name, or consists of digits. -/
theorem atom_cases {f : Family} {x : Text} (h : f.isAtom x = true) :
    (∃ c rest, x = c :: rest ∧ isNameStart c = true ∧ ∀ d ∈ rest, isWordChar d = true) ∨
      (x ≠ [] ∧ (∀ d ∈ x, d.isDigit = true) ∧ f = .arithmetic ∧ Decimal.naturalOf x < 2 ^ 63) := by
  rw [isAtom, Bool.or_eq_true] at h
  rcases h with h | h
  · cases f with
    | arithmetic =>
      simp only [value?] at h
      split at h
      · next hinteger =>
        simp only [isPlainInteger, Bool.and_eq_true, decide_eq_true_eq, List.all_eq_true,
          ne_eq] at hinteger
        exact .inr ⟨hinteger.1.1, hinteger.1.2, rfl, hinteger.2⟩
      · cases h
    | logical =>
      simp only [value?] at h
      split at h
      · next heq =>
        subst heq
        exact .inl ⟨'t', ['r', 'u', 'e'], rfl, by decide, List.all_eq_true.mp (by decide)⟩
      · split at h
        · next heq =>
          subst heq
          exact .inl ⟨'f', ['a', 'l', 's', 'e'], rfl, by decide, List.all_eq_true.mp (by decide)⟩
        · cases h
  · simp only [isPlainName, Bool.and_eq_true] at h
    cases x with
    | nil => simp at h
    | cons c rest =>
      simp only [Bool.and_eq_true, List.all_eq_true] at h
      exact .inl ⟨c, rest, rfl, h.1.1.1, h.1.1.2⟩

theorem atom_ne_nil {f : Family} {x : Text} (h : f.isAtom x = true) : x ≠ [] := by
  rcases atom_cases h with ⟨c, rest, rfl, -⟩ | ⟨hne, -⟩
  · exact List.cons_ne_nil _ _
  · exact hne

theorem isWordChar_of_mem_atom {f : Family} {x : Text} (h : f.isAtom x = true) {c : Char}
    (hc : c ∈ x) : isWordChar c = true := by
  rcases atom_cases h with ⟨d, rest, rfl, hd, hrest⟩ | ⟨-, hdigits, -⟩
  · rcases List.mem_cons.mp hc with rfl | hc
    · exact isWordChar_of_isNameStart hd
    · exact hrest c hc
  · exact isWordChar_of_isDigit (hdigits c hc)

theorem not_mem_atom {f : Family} {x : Text} (h : f.isAtom x = true) {m : Char} (hm : m ∈ f.marks) :
    m ∉ x := by
  intro hmem
  have := isWordChar_of_mem_atom h hmem
  rw [isWordChar_of_mem_marks hm] at this
  cases this

end Family

/-! ### Literals -/

namespace Literal

theorem readNatural?_cons {c : Char} (h : c.isDigit = false) (rest : Text) :
    Decimal.readNatural? (c :: rest) = none := by
  simp [Decimal.readNatural?, h]

theorem takeSign_cons {c : Char} (hminus : c ≠ '-') (hplus : c ≠ '+') (rest : Text) :
    Decimal.takeSign (c :: rest) = (false, c :: rest) := by
  unfold Decimal.takeSign
  split
  · next heq => exact absurd (List.cons.inj heq).1 hminus
  · next heq => exact absurd (List.cons.inj heq).1 hplus
  · rfl

theorem trimBoth_eq_self {p : Char → Bool} {x : Text} (h : ∀ c ∈ x, p c = false) :
    Text.trimBoth p x = x := by
  have hdrop {y : Text} (h : ∀ c ∈ y, p c = false) : y.dropWhile p = y := by
    cases y with
    | nil => rfl
    | cons c y => rw [List.dropWhile_cons_of_neg (by simp [h c (List.mem_cons_self ..)])]
  rw [Text.trimBoth, hdrop h, hdrop (by simpa using h), List.reverse_reverse]

theorem isBlank_of_isWordChar {c : Char} (h : isWordChar c = true) : isBlank c = false := by
  by_contra hblank
  rw [isWordChar_of_isBlank (Bool.not_eq_false _ ▸ hblank)] at h
  cases h

section Name

variable {c : Char} (hc : isNameStart c = true) (rest : Text)
include hc

theorem isDigit_of_isNameStart : c.isDigit = false := by
  by_contra hdigit
  have := isDecimalDigit_of_isDigit (Bool.not_eq_false _ ▸ hdigit)
  rw [isDecimalDigit_of_isNameStart hc] at this
  cases this

theorem takeSign_name : Decimal.takeSign (c :: rest) = (false, c :: rest) :=
  takeSign_cons (ne_of_isNameStart hc (by decide)) (ne_of_isNameStart hc (by decide)) rest

theorem plainInteger?_name : plainInteger? (c :: rest) = none := by
  rw [plainInteger?, signedDigits?, takeSign_name hc]
  simp [readNatural?_cons (isDigit_of_isNameStart hc)]

theorem exponentInteger?_name : exponentInteger? (c :: rest) = none := by
  have hmantissa : plainInteger? ((c :: rest).takeWhile fun c => c != 'e' && c != 'E') = none := by
    rw [List.takeWhile_cons]
    split
    · exact plainInteger?_name hc _
    · rfl
  simp only [exponentInteger?, hmantissa, Option.bind_eq_bind, Option.bind_none, Option.bind_fun_none]
  split <;> rfl

theorem integer?_name (hcomma : ',' ∉ c :: rest) : integer? (c :: rest) = none := by
  have hgrouped : isGrouped (c :: rest) = false := by
    rw [isGrouped, Text.splitAll_eq_singleton (List.mem_singleton_self ',') hcomma]
  simp [integer?, plainInteger?_name hc, takeSign_name hc, hgrouped, exponentInteger?_name hc]

theorem read?_name : Decimal.read? (c :: rest) = none := by
  have hdigit := isDigit_of_isNameStart hc
  have hpoint := ne_of_isNameStart hc (d := '.') (by decide)
  have hwhole : (c :: rest).takeWhile Char.isDigit = [] := by
    rw [List.takeWhile_cons_of_neg (by simp [hdigit])]
  have hrest : (c :: rest).dropWhile Char.isDigit = c :: rest := by
    rw [List.dropWhile_cons_of_neg (by simp [hdigit])]
  have hscientific : Decimal.scientific? (c :: rest) = none := by
    simp only [Decimal.scientific?, hwhole, hrest]
    split
    · next hcons => exact absurd (List.cons.inj hcons).1 hpoint
    · rfl
  rw [Decimal.read?, takeSign_name hc]
  simp [hscientific]

theorem hex?_name : hex? (c :: rest) = none := by
  have hlower {d : Char} (hd : d.isAlpha = false) (hname : isNameStart d = false) :
      d ≠ c.toLower := by
    rintro rfl
    rw [toLower_eq_self hd, hc] at hname
    cases hname
  simp only [hex?, List.map_cons, afterHexMark?, Text.after?]
  rw [if_neg (hlower (by decide) (by decide)), if_neg (hlower (by decide) (by decide))]
  rfl

/-- The grammars of numbers do not read a name. -/
theorem numeric?_name (hrest : ∀ d ∈ rest, isWordChar d = true) : numeric? (c :: rest) = none := by
  have hword : ∀ d ∈ c :: rest, isWordChar d = true :=
    List.forall_mem_cons.mpr ⟨isWordChar_of_isNameStart hc, hrest⟩
  have hcomma : ',' ∉ c :: rest := fun hmem => by cases hword _ hmem
  have htrim : Text.trimBoth isBlank (c :: rest) = c :: rest :=
    trimBoth_eq_self fun d hd => isBlank_of_isWordChar (hword d hd)
  simp [numeric?, htrim, hex?_name hc, integer?_name hc rest hcomma, read?_name hc]

theorem binary?_name : binary? (c :: rest) = none := by
  have hzero := ne_of_isNameStart hc (d := '0') (by decide)
  simp [binary?, Text.after?, hzero.symm]

/-- The grammars read a name as a truth value or not at all. -/
theorem ofGrammar?_name (hrest : ∀ d ∈ rest, isWordChar d = true) :
    ofGrammar? (c :: rest) = boolean? (c :: rest) := by
  rw [ofGrammar?, binary?_name hc, numeric?_name hc rest hrest, Option.none_or, Option.none_or]

end Name

/-- The grammars read digits as an integer, if it fits in 64 bits. -/
theorem ofGrammar?_digits {x : Text} (hne : x ≠ []) (hdigits : ∀ d ∈ x, d.isDigit = true)
    (hsize : Decimal.naturalOf x < 2 ^ 63) :
    ofGrammar? x = some (.integer (Int64.ofNat (Decimal.naturalOf x))) := by
  have habsent {d : Char} (hd : d.isDigit = false) : d ∉ x := fun hmem => by
    rw [hdigits d hmem] at hd
    cases hd
  have hafter (a : Char) {d : Char} (hd : d.isDigit = false) : Text.after? [a, d] x = none :=
    Text.after?_eq_none (List.mem_cons_of_mem _ (List.mem_singleton_self d)) (habsent hd)
  have hbinary : binary? x = none := by
    simp [binary?, hafter '0' (d := 'b') (by decide), hafter '0' (d := 'B') (by decide)]
  have htrim : Text.trimBoth isBlank x = x :=
    trimBoth_eq_self fun d hd => isBlank_of_isWordChar (isWordChar_of_isDigit (hdigits d hd))
  have hlower : x.map Char.toLower = x :=
    (List.map_congr_left fun d hd => toLower_of_isDigit (hdigits d hd)).trans (List.map_id x)
  have hhex : hex? x = none := by
    simp [hex?, afterHexMark?, hlower, hafter '0' (d := 'x') (by decide),
      hafter '&' (d := 'h') (by decide)]
  have hinteger : integer? x = some (Int64.ofNat (Decimal.naturalOf x)) := by
    obtain ⟨c, rest, rfl⟩ := List.exists_cons_of_ne_nil hne
    have hsign : Decimal.takeSign (c :: rest) = (false, c :: rest) := by
      refine takeSign_cons ?_ ?_ rest
      all_goals
        rintro rfl
        exact absurd (hdigits _ (List.mem_cons_self ..)) (by decide)
    have hread : Decimal.readNatural? (c :: rest) = some (Decimal.naturalOf (c :: rest)) :=
      if_pos ⟨hne, List.all_eq_true.mpr hdigits⟩
    have hword : Word.ofInt? (Decimal.naturalOf (c :: rest) : Nat) =
        some (Int64.ofNat (Decimal.naturalOf (c :: rest))) := by
      rw [Word.ofInt?, if_pos, Int64.ofInt_eq_ofNat]
      have hmin : Int64.minValue.toInt = -2 ^ 63 := rfl
      have hmax : Int64.maxValue.toInt = 2 ^ 63 - 1 := rfl
      omega
    simp [integer?, plainInteger?, signedDigits?, hsign, hread, hword]
  rw [ofGrammar?, hbinary, numeric?, htrim, hhex, hinteger]
  rfl

end Literal

/-- The literals among the atoms are read as such, all other atoms are not. -/
theorem Family.parse_atom {f : Family} {x : Text} (h : f.isAtom x = true) :
    Literal.parse Registry.standard x = (f.value? x, false) := by
  have hparse : Literal.parse Registry.standard x = (Literal.ofGrammar? x, false) := rfl
  rw [hparse]
  rcases atom_cases h with ⟨c, rest, rfl, hc, hrest⟩ | ⟨hne, hdigits, rfl, hsize⟩
  · rw [Literal.ofGrammar?_name hc rest hrest]
    cases hvalue : f.value? (c :: rest) with
    | none =>
      rw [isAtom, hvalue, Option.isSome_none, Bool.false_or, isPlainName, Bool.and_eq_true] at h
      rw [Option.isNone_iff_eq_none.mp h.2]
    | some v =>
      cases f with
      | arithmetic => simp [value?, isPlainInteger, Literal.isDigit_of_isNameStart hc] at hvalue
      | logical =>
        simp only [value?] at hvalue
        split at hvalue
        · next heq =>
          rw [heq, ← hvalue]
          rfl
        · split at hvalue
          · next heq =>
            rw [heq, ← hvalue]
            rfl
          · cases hvalue
  · rw [Literal.ofGrammar?_digits hne hdigits hsize, value?, if_pos]
    simp only [isPlainInteger, Bool.and_eq_true, decide_eq_true_eq, List.all_eq_true]
    exact ⟨⟨hne, hdigits⟩, hsize⟩

/-! ### Texts of pieces -/

section Pieces

variable {f : Family} {e e' : Bool} {pieces u v : List Piece}

theorem Family.mark_mem_of_follow (h : f.follow e pieces = some e') {m : Char}
    (hm : Piece.mark m ∈ pieces) : m ∈ f.marks := by
  induction pieces generalizing e with
  | nil => cases hm
  | cons piece pieces ih =>
    cases piece with
    | mark c =>
      rcases List.mem_cons.mp hm with hm | hm
      · obtain rfl := Piece.mark.inj hm
        cases e <;> rw [follow] at h <;> split at h
        · next hmem => exact List.mem_cons_of_mem _ hmem
        · cases h
        · next heq => exact heq ▸ List.mem_cons_self ..
        · cases h
      · exact ih (follow_mark h) hm
    | atom x =>
      have hm : Piece.mark m ∈ pieces := by simpa using hm
      cases e <;> rw [follow] at h
      · cases h
      · exact ih h hm

/-- Atoms and operators are all there is in a text of pieces. -/
theorem Family.mem_marks_or_isWordChar (h : f.follow e pieces = some e')
    (hatoms : ∀ x, Piece.atom x ∈ pieces → f.isAtom x = true) {c : Char}
    (hc : c ∈ Piece.textAll pieces) : c ∈ f.marks ∨ isWordChar c = true := by
  obtain ⟨piece, hmem, hc⟩ := List.mem_flatMap.mp hc
  cases piece with
  | mark m =>
    obtain rfl := List.mem_singleton.mp hc
    exact .inl (mark_mem_of_follow h hmem)
  | atom x => exact .inr (isWordChar_of_mem_atom (hatoms x hmem) hc)

/-- Where an operand is expected, an operator stands just before. -/
theorem Family.getLast?_of_follow_true (h : f.follow true u = some true) {c : Char}
    (hc : c ∈ (Piece.textAll u).getLast?) : c ∈ f.marks := by
  obtain rfl | ⟨u, piece, rfl⟩ := List.eq_nil_or_concat u
  · cases hc
  · rw [List.concat_eq_append] at h hc
    cases piece with
    | mark m =>
      obtain rfl : m = c := by simpa [Piece.text] using hc
      exact mark_mem_of_follow h (by simp)
    | atom x =>
      rw [follow_append] at h
      obtain ⟨e, -, h⟩ := Option.bind_eq_some_iff.mp h
      cases e <;> cases h

/-- Where no operand is expected, an atom stands just before. -/
theorem Family.getLast?_of_follow_false (h : f.follow true u = some false)
    (hatoms : ∀ x, Piece.atom x ∈ u → f.isAtom x = true) :
    ∃ c, (Piece.textAll u).getLast? = some c ∧ isWordChar c = true := by
  obtain rfl | ⟨u, piece, rfl⟩ := List.eq_nil_or_concat u
  · cases h
  · rw [List.concat_eq_append] at h hatoms ⊢
    cases piece with
    | mark m =>
      rw [follow_append] at h
      obtain ⟨e, -, h⟩ := Option.bind_eq_some_iff.mp h
      cases follow_mark h
    | atom x =>
      have hx := hatoms x (by simp)
      have hne := atom_ne_nil hx
      refine ⟨x.getLast hne, ?_, isWordChar_of_mem_atom hx (List.getLast_mem hne)⟩
      simp [Piece.text, List.getLast?_append, List.getLast?_eq_some_getLast hne]

/-- After an atom an operator comes next. -/
theorem Family.head?_of_follow_false (h : f.follow false v = some e') {c : Char}
    (hc : c ∈ (Piece.textAll v).head?) : c ∈ f.marks := by
  cases v with
  | nil => cases hc
  | cons piece v =>
    cases piece with
    | mark m =>
      obtain rfl : m = c := by simpa [Piece.text] using hc
      exact mark_mem_of_follow h (List.mem_cons_self ..)
    | atom x => cases h

/-- An operand is expected where an atom stands, and not after it. -/
theorem Family.follow_around_atom {x : Text}
    (h : f.follow true (u ++ .atom x :: v) = some e') :
    f.follow true u = some true ∧ f.follow false v = some e' := by
  rw [follow_append] at h
  obtain ⟨e, hu, h⟩ := Option.bind_eq_some_iff.mp h
  cases e with
  | true => exact ⟨hu, h⟩
  | false => cases h

/-- A character of names stands in an atom. -/
theorem Family.exists_atom_of_textAll_eq (h : f.follow e pieces = some e') {a b : Text} {c : Char}
    (hc : isWordChar c = true) (heq : Piece.textAll pieces = a ++ c :: b) :
    ∃ u x v y z, pieces = u ++ .atom x :: v ∧ x = y ++ c :: z ∧ a = Piece.textAll u ++ y ∧
      b = z ++ Piece.textAll v := by
  induction pieces generalizing e a with
  | nil => simp at heq
  | cons piece pieces ih =>
    rw [Piece.textAll_cons] at heq
    cases piece with
    | mark m =>
      have hm := mark_mem_of_follow h (List.mem_cons_self ..)
      rw [Piece.text, List.singleton_append] at heq
      cases a with
      | nil =>
        obtain ⟨rfl, -⟩ := List.cons.inj heq
        rw [isWordChar_of_mem_marks hm] at hc
        cases hc
      | cons d a =>
        rw [List.cons_append, List.cons.injEq] at heq
        obtain ⟨u, x, v, y, z, rfl, rfl, rfl, rfl⟩ := ih (follow_mark h) heq.2
        exact ⟨.mark m :: u, _, v, y, z, rfl, rfl, by rw [heq.1]; rfl, rfl⟩
    | atom x =>
      rw [Piece.text, List.append_eq_append_iff] at heq
      have hrest : f.follow false pieces = some e' := by
        cases e with
        | true => exact h
        | false => cases h
      rcases heq with ⟨a', rfl, heq⟩ | ⟨w, rfl, heq⟩
      · obtain ⟨u, y, v, z, z', rfl, rfl, rfl, rfl⟩ := ih hrest heq
        exact ⟨.atom x :: u, _, v, z, z', rfl, rfl, by simp [Piece.text], rfl⟩
      · cases w with
        | nil =>
          rw [List.nil_append] at heq
          have hm : c ∈ f.marks := head?_of_follow_false hrest (heq ▸ rfl)
          rw [isWordChar_of_mem_marks hm] at hc
          cases hc
        | cons d z =>
          obtain ⟨rfl, rfl⟩ := List.cons.inj heq
          exact ⟨[], _, pieces, a, z, rfl, rfl, rfl, rfl⟩

end Pieces

/-! ### Searching for numbers -/

namespace Extractor

theorem takeRun?_cons_of_neg {p : Char → Bool} {c : Char} (h : p c = false) (rest : Text) :
    takeRun? p (c :: rest) = none := by
  simp [takeRun?, h]

/-- A number starts with a digit, or with the mark of a hexadecimal number. -/
theorem takeNumber?_cons_eq_none {c : Char} (hdigit : isDecimalDigit c = false) (hand : c ≠ '&')
    (rest : Text) : takeNumber? (c :: rest) = none := by
  have hzero : c ≠ '0' := by
    rintro rfl
    cases hdigit
  have hbinary : takeBinary? (c :: rest) = none := by
    unfold takeBinary?
    split
    · next heq => exact absurd (List.cons.inj heq).1 hzero
    · rfl
  have hhex : takeHex? (c :: rest) = none := by
    cases rest with
    | nil => rfl
    | cons x rest => simp [takeHex?, hzero, hand]
  have hexponential : takeExponential? (c :: rest) = none := by
    simp [takeExponential?, takeRun?_cons_of_neg hdigit]
  rw [takeNumber?, hbinary, hhex, hexponential]
  rfl

/-- No number is made of digits alone, up to the next character that is none of names. -/
theorem takeNumber?_digits {x rest : Text} (hne : x ≠ []) (hdigits : ∀ d ∈ x, d.isDigit = true)
    (hrest : ∀ c ∈ rest.head?, isIdentifierChar c = false) : takeNumber? (x ++ rest) = none := by
  have hexponential : takeExponential? (x ++ rest) = none := by
    have hdecimal : ∀ d ∈ x, isDecimalDigit d = true := fun d hd =>
      isDecimalDigit_of_isDigit (hdigits d hd)
    have hrun : takeRun? isDecimalDigit (x ++ rest) = some (x, rest) := by
      rw [takeRun?, List.takeWhile_append_of_pos hdecimal, List.dropWhile_append_of_pos hdecimal]
      cases rest with
      | nil => simp [hne]
      | cons c rest =>
        have hc : isDecimalDigit c = false := by
          by_contra hdigit
          have := isIdentifierChar_of_isWordChar
            (isWordChar_of_isDecimalDigit (Bool.not_eq_false _ ▸ hdigit))
          rw [hrest c rfl] at this
          cases this
        simp [hc, hne]
    cases rest with
    | nil =>
      rw [takeExponential?, hrun]
      rfl
    | cons c rest =>
      have hfraction : takeFraction (c :: rest) = ([], c :: rest) := by
        unfold takeFraction
        split
        · next heq => cases (List.cons.inj heq).1 ▸ hrest _ rfl
        · rfl
      have hexponent : ¬(c = 'e' ∨ c = 'E') := by
        rintro (rfl | rfl) <;> cases hrest _ rfl
      simp [takeExponential?, hrun, hfraction, hexponent]
  obtain ⟨c, y, rfl⟩ := List.exists_cons_of_ne_nil hne
  -- the character after the first one is a digit or none of names, and no letter
  have hnext {d : Char} (hd : d ∈ (y ++ rest).head?) : isAlphabetic d = false := by
    cases y with
    | nil =>
      have := hrest d hd
      simp_all [isIdentifierChar, isAlphanumeric]
    | cons d' y =>
      obtain rfl : d' = d := by simpa using hd
      exact isAlphabetic_of_isDecimalDigit (isDecimalDigit_of_isDigit (hdigits _ (by simp)))
  rw [List.cons_append] at hexponential ⊢
  have hbinary : takeBinary? (c :: (y ++ rest)) = none := by
    unfold takeBinary?
    split
    · next b tail heq =>
      have hb := hnext (d := b) (by rw [(List.cons.inj heq).2]; rfl)
      rw [if_neg]
      rintro (rfl | rfl) <;> cases hb
    · rfl
  have hhex : takeHex? (c :: (y ++ rest)) = none := by
    unfold takeHex?
    split
    · next d x tail heq =>
      have hx := hnext (d := x) (by rw [(List.cons.inj heq).2]; rfl)
      rw [if_neg]
      rintro (⟨-, rfl | rfl⟩ | ⟨-, rfl | rfl⟩) <;> cases hx
    · rfl
  rw [takeNumber?, hbinary, hhex, hexponential]
  rfl

/-- What looks like a number in a chain has a character of names before it. -/
theorem getLast?_of_takeNumber? {f : Family} {pieces : List Piece}
    (h : f.follow true pieces = some false)
    (hatoms : ∀ x, Piece.atom x ∈ pieces → f.isAtom x = true) {before rest : Text}
    (htext : Piece.textAll pieces = before ++ rest) (hnumber : (takeNumber? rest).isSome) :
    before.getLast?.any isIdentifierChar = true := by
  obtain ⟨c, rest, rfl⟩ : ∃ c tail, rest = c :: tail := by
    cases rest with
    | nil => cases hnumber
    | cons c rest => exact ⟨c, rest, rfl⟩
  have hlast {c : Char} (hget : before.getLast? = some c) (hword : isWordChar c = true) :
      before.getLast?.any isIdentifierChar = true := by
    rw [hget]
    exact isIdentifierChar_of_isWordChar hword
  by_cases hc : c = '&'
  · -- the mark of a hexadecimal number is an operator between two operands
    subst hc
    have hnot : ∀ x, Piece.atom x ∈ pieces → '&' ∉ x := fun x hx hmem => by
      cases Family.isWordChar_of_mem_atom (hatoms x hx) hmem
    obtain ⟨u, v, rfl, rfl, rfl⟩ := Piece.exists_of_textAll_eq hnot htext
    rw [Family.follow_append] at h
    obtain ⟨e, hu, h⟩ := Option.bind_eq_some_iff.mp h
    cases e with
    | true =>
      rw [Family.follow, if_neg (by cases f <;> decide)] at h
      cases h
    | false =>
      obtain ⟨c, hget, hword⟩ := Family.getLast?_of_follow_false hu fun x hx =>
        hatoms x (List.mem_append_left _ hx)
      exact hlast hget hword
  · have hdigit : isDecimalDigit c = true := by
      by_contra hdigit
      rw [takeNumber?_cons_eq_none (eq_false_of_ne_true hdigit) hc] at hnumber
      cases hnumber
    obtain ⟨u, x, v, y, z, rfl, rfl, rfl, rfl⟩ :=
      Family.exists_atom_of_textAll_eq h (isWordChar_of_isDecimalDigit hdigit) htext
    have hx := hatoms _ (List.mem_append_right _ (List.mem_cons_self ..))
    obtain rfl | ⟨y, d, rfl⟩ := List.eq_nil_or_concat y
    · -- at the front of an atom there is no number
      have hv := (Family.follow_around_atom h).2
      rw [List.nil_append] at hx
      exfalso
      rcases Family.atom_cases hx with ⟨d, rest, heq, hd, -⟩ | ⟨hne, hdigits, -⟩
      · obtain ⟨rfl, rfl⟩ := List.cons.inj heq
        rw [isDecimalDigit_of_isNameStart hd] at hdigit
        cases hdigit
      · rw [← List.cons_append, takeNumber?_digits hne hdigits fun c hc =>
          Family.isIdentifierChar_of_mem_marks (Family.head?_of_follow_false hv hc)] at hnumber
        cases hnumber
    · exact hlast (c := d) (by simp) (Family.isWordChar_of_mem_atom hx (by simp))

theorem splitAtOrAfter_append (n : Nat) (text : Text) :
    (splitAtOrAfter n text).1 ++ (splitAtOrAfter n text).2 = text := by
  induction text generalizing n with
  | nil => cases n <;> rfl
  | cons c text ih =>
    cases n with
    | zero => rfl
    | succ n => simp [splitAtOrAfter, ih]

theorem exists_of_findNumber? {text skipped number rest : Text}
    (h : findNumber? text = some (skipped, number, rest)) :
    ∃ tail, text = skipped ++ tail ∧ takeNumber? tail = some (number, rest) := by
  induction text generalizing skipped with
  | nil => cases h
  | cons c text ih =>
    rw [findNumber?] at h
    split at h
    · next hnumber =>
      obtain ⟨rfl, rfl, rfl⟩ := by simpa using h
      exact ⟨c :: text, rfl, hnumber⟩
    · obtain ⟨⟨skipped, number', rest'⟩, hfound, heq⟩ := Option.map_eq_some_iff.mp h
      simp only [Prod.mk.injEq] at heq
      obtain ⟨rfl, rfl, rfl⟩ := heq
      obtain ⟨tail, rfl, htail⟩ := ih hfound
      exact ⟨tail, rfl, htail⟩

/-- Nothing is taken out of a text in which everything that looks like a number has a character of
names before it. -/
theorem scanNumber_ne_found_of_touches {text : Text}
    (h : ∀ before rest, text = before ++ rest → (takeNumber? rest).isSome →
      before.getLast?.any isIdentifierChar = true) (start first last : Nat) (v : Value) :
    scanNumber text start ≠ .found first last v := by
  intro hfound
  have happend := splitAtOrAfter_append start text
  simp only [scanNumber] at hfound
  split at hfound
  · cases hfound
  · next skipped number rest hnumber =>
    obtain ⟨tail, htail, hnumber⟩ := exists_of_findNumber? hnumber
    rw [htail, ← List.append_assoc] at happend
    have htouches := h _ _ happend.symm (by rw [hnumber]; rfl)
    rw [if_pos (Bool.or_eq_true_iff.mpr (.inl htouches))] at hfound
    cases hfound

/-- No numbers are taken out of a chain. -/
theorem scanNumber_ne_found {f : Family} {pieces : List Piece}
    (h : f.follow true pieces = some false)
    (hatoms : ∀ x, Piece.atom x ∈ pieces → f.isAtom x = true) (start first last : Nat)
    (v : Value) : scanNumber (Piece.textAll pieces) start ≠ .found first last v :=
  scanNumber_ne_found_of_touches (fun _ _ htext hnumber =>
    getLast?_of_takeNumber? h hatoms htext hnumber) start first last v

end Extractor

end Formula
