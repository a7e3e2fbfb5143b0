import Formula.Proofs.Numbers.Integers
import Formula.Proofs.Numbers.Nearest

/-!
# Spellings of an integer

An integer is written by its digits, by digits in groups of three, or by digits and an exponent, each
with an optional sign. However it is written, it is read as a 64-bit integer if it fits, and else as the
double nearest to it. Two spellings are read otherwise: digits in groups are not read at all if they do
not fit, and zero with an exponent of more than 18 is read as a double.

## Main definitions

* `Literal.Writing`: the ways to write digits, and the power of ten that they are multiplied by.
* `Literal.reading`: what a sign, a number and a power of ten are read as.

## Main results

* `Literal.numeric?_writing`: how the spellings of an integer are read.
* `Literal.numeric?_groups`, `Literal.numeric?_zero_exponent`: the spellings that are read otherwise.
* `Literal.numeric?_spelling`: an integer that fits is read as such, and another as the double nearest
  to it.
-/

namespace Formula

open Text

/-- A sign before a number. The truth value stands for minus. -/
inductive Decimal.IsSign : Bool → Text → Prop
  | none : IsSign false []
  | plus : IsSign false ['+']
  | minus : IsSign true ['-']

/-- A number with a truth value for minus. -/
def Decimal.signedValue (negative : Bool) (n : Nat) : Int :=
  if negative then -(n : Int) else n

namespace Literal

/-- The ways to write digits: as they are, in groups of three, or with an exponent. The number is the
power of ten that the digits are multiplied by. -/
inductive Writing (digits : Text) : Text → Nat → Prop
  | plain : Writing digits digits 0
  | groups {first : Text} {rest : List Text} (hdigits : digits = first ++ rest.flatten)
      (hfirst : 1 ≤ first.length ∧ first.length ≤ 3) (hrest : ∀ group ∈ rest, group.length = 3) :
      Writing digits ([','].intercalate (first :: rest)) 0
  | exponent {letter : Char} {plus power : Text} (hletter : letter = 'e' ∨ letter = 'E')
      (hplus : plus = [] ∨ plus = ['+']) (hne : power ≠ [])
      (hpower : ∀ d ∈ power, d.isDigit = true) :
      Writing digits (digits ++ letter :: (plus ++ power)) (Nat.ofDigitChars 10 power 0)

/-- What a sign, a number and a power of ten are read as: an integer if it fits. -/
def reading (negative : Bool) (n k : Nat) : Value :=
  match Word.ofInt? (Decimal.signedValue negative (n * 10 ^ k)) with
  | some i => .integer i
  | none => .numeric (if negative then -(Decimal.nearest n k) else Decimal.nearest n k)

/-! ### Values -/

theorem ofInt?_eq_none_iff {negative : Bool} {n : Nat} :
    Word.ofInt? (Decimal.signedValue negative n) = none ↔
      (if negative then 2 ^ 63 else 2 ^ 63 - 1) < n := by
  rw [Word.ofInt?_eq_none_iff]
  cases negative <;>
    simp only [Decimal.signedValue, if_true, Bool.false_eq_true, if_false] <;>
    omega

theorem ofInt?_eq_none_of_le {negative : Bool} {n m : Nat} (hle : n ≤ m)
    (h : Word.ofInt? (Decimal.signedValue negative n) = none) :
    Word.ofInt? (Decimal.signedValue negative m) = none :=
  ofInt?_eq_none_iff.mpr (Nat.lt_of_lt_of_le (ofInt?_eq_none_iff.mp h) hle)

theorem ofInt?_eq_none_of_lt {n : Nat} (h : 2 ^ 63 < n) (negative : Bool) :
    Word.ofInt? (Decimal.signedValue negative n) = none := by
  rw [ofInt?_eq_none_iff]
  split <;> omega

theorem reading_of_fits {negative : Bool} {n k : Nat} {i : Int64}
    (h : i.toInt = Decimal.signedValue negative (n * 10 ^ k)) : reading negative n k = .integer i := by
  rw [reading, Word.ofInt?_eq_some_iff.mpr h]

/-- What does not fit is read as the nearest double. -/
theorem reading_of_not_fits {negative : Bool} {n k : Nat}
    (h : ∀ i : Int64, i.toInt ≠ Decimal.signedValue negative (n * 10 ^ k)) :
    ∃ x, reading negative n k = .numeric x ∧
      Binary64.IsNearest (Decimal.signedValue negative (n * 10 ^ k)) x := by
  have hnone : Word.ofInt? (Decimal.signedValue negative (n * 10 ^ k)) = none :=
    Option.eq_none_iff_forall_ne_some.mpr fun i hi => h i (Word.ofInt?_eq_some_iff.mp hi)
  have hlarge : 2 ^ 63 ≤ n * 10 ^ k := by
    have := ofInt?_eq_none_iff.mp hnone
    split at this <;> omega
  have hlog : 52 ≤ (n * 10 ^ k).log2 :=
    (Nat.le_log2 (by omega)).mpr (Nat.le_trans (by norm_num) hlarge)
  have hvalue : ((Decimal.signedValue negative (n * 10 ^ k) : Int) : ℚ) =
      Binary64.signed negative (n * 10 ^ k : Nat) := by
    cases negative <;> simp [Decimal.signedValue, Binary64.signed]
  refine ⟨_, by rw [reading, hnone], ?_⟩
  rw [hvalue]
  exact Decimal.isNearest_nearest negative hlog

/-! ### Reading a sign and digits -/

theorem hex?_eq_none {text : Text} (h : ∀ c ∈ text, c ∉ ['x', 'X', 'h', 'H']) : hex? text = none := by
  rw [hex?]
  cases hafter : afterHexMark? (text.map Char.toLower) with
  | none => rfl
  | some digits =>
    obtain ⟨c, x, run, rfl, -, hmark⟩ := exists_of_afterHexMark? hafter
    have := h x (by simp)
    simp only [List.mem_cons, List.not_mem_nil, or_false, not_or] at this
    tauto

/-- The characters of a whole number. -/
def IsWholeChar (c : Char) : Prop :=
  c.isDigit = true ∨ c ∈ [',', '+', '-', 'e', 'E']

/-- A text of the characters of a whole number is no hexadecimal number. -/
theorem numeric?_eq {text : Text} (h : ∀ c ∈ text, IsWholeChar c) :
    numeric? text = ((integer? text).map .integer).or ((Decimal.read? text).map .numeric) := by
  have htrim : Text.trimBoth Text.isBlank text = text := by
    refine trimBoth_eq_self fun c hc => ?_
    rcases h c hc with hdigit | hother
    · exact isBlank_of_isWordChar (isWordChar_of_isDigit hdigit)
    · simp only [List.mem_cons, List.not_mem_nil, or_false] at hother
      rcases hother with rfl | rfl | rfl | rfl | rfl <;> rfl
  have hhex : hex? text = none := by
    refine hex?_eq_none fun c hc hmark => ?_
    simp only [List.mem_cons, List.not_mem_nil, or_false] at hmark
    rcases h c hc with hdigit | hother
    · rcases hmark with rfl | rfl | rfl | rfl <;> exact absurd hdigit (by decide)
    · rcases hmark with rfl | rfl | rfl | rfl <;> exact absurd hother (by decide)
  rw [numeric?, htrim, hhex, Option.none_or]

theorem readNatural?_digits {digits : Text} (hne : digits ≠ [])
    (hdigits : ∀ d ∈ digits, d.isDigit = true) :
    Decimal.readNatural? digits = some (Nat.ofDigitChars 10 digits 0) := by
  rw [Decimal.readNatural?, if_pos ⟨hne, List.all_eq_true.mpr hdigits⟩,
    Decimal.naturalOf_eq_ofDigitChars]

theorem readNatural?_eq_none {text : Text} {c : Char} (hc : c ∈ text) (hdigit : c.isDigit = false) :
    Decimal.readNatural? text = none := by
  refine Option.eq_none_iff_forall_ne_some.mpr fun n hn => ?_
  rw [(forall_of_readNatural? hn).2 c hc] at hdigit
  cases hdigit

/-- What follows the digits of a decimal starts with neither a digit nor the point. -/
theorem scientific?_append {digits : Text} (hne : digits ≠ [])
    (hdigits : ∀ d ∈ digits, d.isDigit = true) (rest : Text)
    (hrest : ∀ c ∈ rest.head?, c.isDigit = false ∧ c ≠ '.') :
    Decimal.scientific? (digits ++ rest) =
      (Decimal.readExponent? rest).map fun e => (Nat.ofDigitChars 10 digits 0, e) := by
  have htake : (digits ++ rest).takeWhile Char.isDigit = digits := by
    rw [List.takeWhile_append_of_pos hdigits]
    cases rest with
    | nil => simp
    | cons c rest => simp [(hrest c rfl).1]
  have hdrop : (digits ++ rest).dropWhile Char.isDigit = rest := by
    rw [List.dropWhile_append_of_pos hdigits]
    cases rest with
    | nil => rfl
    | cons c rest => simp [(hrest c rfl).1]
  have hread := readNatural?_digits hne hdigits
  simp only [Decimal.scientific?, htake, hdrop]
  split
  · next hpoint => exact absurd rfl (hrest '.' rfl).2
  · rw [List.append_nil, hread]
    cases Decimal.readExponent? rest with
    | none => rfl
    | some e => simp

section Signed

variable {negative : Bool} {sign : Text} (hsign : Decimal.IsSign negative sign)
include hsign

theorem takeSign_append {text : Text} (htext : ∀ c ∈ text.head?, c.isDigit = true) :
    Decimal.takeSign (sign ++ text) = (negative, text) := by
  cases hsign with
  | none =>
    rw [List.nil_append]
    unfold Decimal.takeSign
    split
    · exact absurd (htext _ rfl) (by decide)
    · exact absurd (htext _ rfl) (by decide)
    · rfl
  | plus => rfl
  | minus => rfl

theorem isWholeChar_of_isSign : ∀ c ∈ sign, IsWholeChar c := by
  cases hsign with
  | none => simp
  | plus | minus => exact List.forall_mem_singleton.mpr (.inr (by decide))

theorem not_mem_of_isSign {c : Char} (hplus : c ≠ '+') (hminus : c ≠ '-') : c ∉ sign := by
  cases hsign <;> simp [hplus, hminus]

theorem plainInteger?_eq_none {text : Text} (htext : ∀ c ∈ text.head?, c.isDigit = true) {c : Char}
    (hc : c ∈ text) (hdigit : c.isDigit = false) : plainInteger? (sign ++ text) = none := by
  rw [plainInteger?, signedDigits?, takeSign_append hsign htext]
  dsimp only
  rw [readNatural?_eq_none hc hdigit]
  rfl

/-- A sign and a text are read with the sign of the number that the text is read as. -/
theorem read?_append {text : Text} (htext : ∀ c ∈ text.head?, c.isDigit = true) :
    Decimal.read? (sign ++ text) = (Decimal.scientific? text).map fun (n, e) =>
      if negative then -(Decimal.nearest n e) else Decimal.nearest n e := by
  rw [Decimal.read?, takeSign_append hsign htext]

section Digits

variable {digits : Text} (hne : digits ≠ []) (hdigits : ∀ d ∈ digits, d.isDigit = true)
include hne hdigits

omit hsign in
theorem head?_append_digits (rest : Text) : ∀ c ∈ (digits ++ rest).head?, c.isDigit = true := by
  obtain ⟨c, tail, rfl⟩ := List.exists_cons_of_ne_nil hne
  rintro c ⟨⟩
  exact hdigits _ (List.mem_cons_self ..)

theorem plainInteger?_digits : plainInteger? (sign ++ digits) =
    Word.ofInt? (Decimal.signedValue negative (Nat.ofDigitChars 10 digits 0)) := by
  have hhead := head?_append_digits hne hdigits []
  rw [List.append_nil] at hhead
  rw [plainInteger?, signedDigits?, takeSign_append hsign hhead]
  dsimp only
  rw [readNatural?_digits hne hdigits]
  rfl

/-- Digits are no number in groups, since there is no comma. -/
theorem isGrouped_eq_false (rest : Text) (hcomma : ',' ∉ rest) :
    isGrouped (Decimal.takeSign (sign ++ (digits ++ rest))).2 = false := by
  have habsent : ',' ∉ digits ++ rest := by
    rw [List.mem_append, not_or]
    exact ⟨fun hmem => absurd (hdigits _ hmem) (by decide), hcomma⟩
  rw [takeSign_append hsign (head?_append_digits hne hdigits rest), isGrouped,
    splitAll_eq_singleton (List.mem_singleton_self ',') habsent]

/-- A sign, digits and an exponent are read as an integer if mantissa, power and product fit. -/
theorem exponentInteger?_append {letter : Char} {plus power : Text}
    (hletter : letter = 'e' ∨ letter = 'E') (hplus : plus = [] ∨ plus = ['+']) (hpower : power ≠ [])
    (hpowers : ∀ d ∈ power, d.isDigit = true) :
    exponentInteger? (sign ++ (digits ++ letter :: (plus ++ power))) =
      (Word.ofInt? (Decimal.signedValue negative (Nat.ofDigitChars 10 digits 0))).bind fun m =>
        if Nat.ofDigitChars 10 power 0 ≤ 18 then
          Word.ofInt? (m.toInt * Nat.pow 10 (Nat.ofDigitChars 10 power 0))
        else none := by
  have hmantissa : (sign ++ (digits ++ letter :: (plus ++ power))).takeWhile
      (fun c => c != 'e' && c != 'E') = sign ++ digits := by
    rw [← List.append_assoc, List.takeWhile_append_of_pos, List.takeWhile_cons_of_neg,
      List.append_nil]
    · rcases hletter with rfl | rfl <;> decide
    · have hmark {c : Char} (he : c ≠ 'e') (hE : c ≠ 'E') : (c != 'e' && c != 'E') = true := by
        simp [he, hE]
      have habsent (c : Char) (hc : c ∈ digits) {d : Char} (hd : d.isDigit = false) : c ≠ d := by
        rintro rfl
        rw [hdigits c hc] at hd
        cases hd
      refine List.forall_mem_append.mpr ⟨fun c hc => hmark ?_ ?_, fun c hc => hmark ?_ ?_⟩
      · rintro rfl
        exact not_mem_of_isSign hsign (by decide) (by decide) hc
      · rintro rfl
        exact not_mem_of_isSign hsign (by decide) (by decide) hc
      · exact habsent c hc (by decide)
      · exact habsent c hc (by decide)
  have hdrop : (sign ++ (digits ++ letter :: (plus ++ power))).drop (sign ++ digits).length =
      letter :: (plus ++ power) := by
    rw [← List.append_assoc, List.drop_left]
  have hread := readNatural?_digits hpower hpowers
  simp only [exponentInteger?, hmantissa, hdrop, plainInteger?_digits hsign hne hdigits]
  rcases hplus with rfl | rfl
  · obtain ⟨d, power, rfl⟩ := List.exists_cons_of_ne_nil hpower
    have hd : d ≠ '+' := by
      rintro rfl
      exact absurd (hpowers _ (List.mem_cons_self ..)) (by decide)
    rw [List.nil_append]
    split
    · next heq => exact absurd (List.cons.inj (List.cons.inj heq).2).1 hd
    · next heq =>
      obtain ⟨-, rfl⟩ := List.cons.inj heq
      rw [hread]
      rfl
    · next heq => cases heq
  · change (Decimal.readNatural? power).bind _ = _
    rw [hread]
    rfl

/-- The value of a mantissa with an exponent, unless the mantissa is zero and the power too large. -/
theorem exponentInteger?_eq {letter : Char} {plus power : Text}
    (hletter : letter = 'e' ∨ letter = 'E') (hplus : plus = [] ∨ plus = ['+']) (hpower : power ≠ [])
    (hpowers : ∀ d ∈ power, d.isDigit = true)
    (hzero : Nat.ofDigitChars 10 digits 0 = 0 → Nat.ofDigitChars 10 power 0 ≤ 18) :
    exponentInteger? (sign ++ (digits ++ letter :: (plus ++ power))) =
      Word.ofInt? (Decimal.signedValue negative
        (Nat.ofDigitChars 10 digits 0 * 10 ^ Nat.ofDigitChars 10 power 0)) := by
  rw [exponentInteger?_append hsign hne hdigits hletter hplus hpower hpowers]
  generalize Nat.ofDigitChars 10 digits 0 = n at hzero ⊢
  generalize Nat.ofDigitChars 10 power 0 = k at hzero ⊢
  cases hmantissa : Word.ofInt? (Decimal.signedValue negative n) with
  | none =>
    exact (ofInt?_eq_none_of_le (Nat.le_mul_of_pos_right _ (Nat.pow_pos (by decide))) hmantissa).symm
  | some m =>
    rw [Word.ofInt?_eq_some_iff] at hmantissa
    rw [Option.bind_some, hmantissa]
    split
    · congr 1
      cases negative <;> simp [Decimal.signedValue]
    · next hlarge =>
      -- A product with so large a power does not fit, whatever the mantissa.
      have hpower : 10 ^ 19 ≤ 10 ^ k := Nat.pow_le_pow_right (by decide) (by omega)
      have hproduct : 10 ^ k ≤ n * 10 ^ k := Nat.le_mul_of_pos_left _ (by omega)
      exact (ofInt?_eq_none_of_lt (by omega) negative).symm

end Digits

end Signed

/-! ### The spellings -/

/-- A text is read as an integer if it fits, and else as a double. -/
theorem numeric?_eq_reading {text : Text} (hchars : ∀ c ∈ text, IsWholeChar c) {negative : Bool}
    {n k : Nat} (hinteger : integer? text = Word.ofInt? (Decimal.signedValue negative (n * 10 ^ k)))
    (hread : Decimal.read? text =
      some (if negative then -(Decimal.nearest n k) else Decimal.nearest n k)) :
    numeric? text = some (reading negative n k) := by
  rw [numeric?_eq hchars, hinteger, hread, reading]
  cases Word.ofInt? (Decimal.signedValue negative (n * 10 ^ k)) <;> rfl

/-- Without the commas between them, groups are the digits. -/
theorem filter_intercalate {groups : List Text} (h : ∀ group ∈ groups, ',' ∉ group) :
    ([','].intercalate groups).filter (· != ',') = groups.flatten := by
  have hself {group : Text} (hgroup : ',' ∉ group) : group.filter (· != ',') = group :=
    List.filter_eq_self.mpr fun c hc => bne_iff_ne.mpr fun heq => hgroup (heq ▸ hc)
  induction groups with
  | nil => rfl
  | cons group groups ih =>
    obtain ⟨hgroup, hgroups⟩ := List.forall_mem_cons.mp h
    cases groups with
    | nil => simpa [List.intercalate] using hself hgroup
    | cons next groups =>
      have hcomma : [','].filter (· != ',') = [] := rfl
      rw [List.intercalate_cons_cons, List.filter_append, List.filter_append, ih hgroups,
        hself hgroup, hcomma, List.append_nil, List.flatten_cons (l := group)]

section Spellings

variable {negative : Bool} {sign : Text} (hsign : Decimal.IsSign negative sign)
  {digits : Text} (hne : digits ≠ []) (hdigits : ∀ d ∈ digits, d.isDigit = true)
include hsign hne hdigits

/-- Digits as they are. -/
theorem numeric?_plain : numeric? (sign ++ digits) =
    some (reading negative (Nat.ofDigitChars 10 digits 0) 0) := by
  have hhead := head?_append_digits hne hdigits []
  have hscientific := scientific?_append hne hdigits [] (by simp)
  rw [List.append_nil] at hhead hscientific
  refine numeric?_eq_reading (List.forall_mem_append.mpr ⟨isWholeChar_of_isSign hsign,
    fun c hc => .inl (hdigits c hc)⟩) ?_ ?_
  · have hgroups := isGrouped_eq_false hsign hne hdigits [] (by simp)
    have hexponent : exponentInteger? (sign ++ digits) = none := by
      refine Option.eq_none_iff_forall_ne_some.mpr fun i hi => ?_
      obtain ⟨mantissa, letter, rest, power, m, htext, -, hpower⟩ := exists_of_exponentInteger? hi
      have hletter : letter ∈ sign ++ digits := by simp [htext]
      rcases List.mem_append.mp hletter with hmem | hmem
      · refine not_mem_of_isSign hsign ?_ ?_ hmem <;>
          rcases hpower.letter with rfl | rfl <;> decide
      · have := hdigits _ hmem
        rcases hpower.letter with rfl | rfl <;> cases this
    rw [List.append_nil] at hgroups
    rw [integer?, plainInteger?_digits hsign hne hdigits, hgroups, hexponent, Nat.pow_zero,
      Nat.mul_one]
    cases Word.ofInt? (Decimal.signedValue negative (Nat.ofDigitChars 10 digits 0)) <;> rfl
  · rw [read?_append hsign hhead, hscientific]
    rfl

section Exponent

variable {letter : Char} {plus power : Text} (hletter : letter = 'e' ∨ letter = 'E')
  (hplus : plus = [] ∨ plus = ['+']) (hpower : power ≠ [])
  (hpowers : ∀ d ∈ power, d.isDigit = true)
include hletter hplus hpower hpowers

omit hne hpower in
theorem isWholeChar_exponent :
    ∀ c ∈ sign ++ (digits ++ letter :: (plus ++ power)), IsWholeChar c := by
  refine List.forall_mem_append.mpr ⟨isWholeChar_of_isSign hsign, List.forall_mem_append.mpr
    ⟨fun c hc => .inl (hdigits c hc), List.forall_mem_cons.mpr ⟨.inr ?_, List.forall_mem_append.mpr
      ⟨fun c hc => .inr ?_, fun c hc => .inl (hpowers c hc)⟩⟩⟩⟩
  · rcases hletter with rfl | rfl <;> decide
  · rcases hplus with rfl | rfl
    · cases hc
    · rw [List.mem_singleton.mp hc]
      decide

omit hpower in
/-- Neither digits alone nor digits in groups have a letter. -/
theorem integer?_exponent : integer? (sign ++ (digits ++ letter :: (plus ++ power))) =
    exponentInteger? (sign ++ (digits ++ letter :: (plus ++ power))) := by
  have hdigit : letter.isDigit = false := by rcases hletter with rfl | rfl <;> rfl
  have hcomma : ',' ∉ letter :: (plus ++ power) := by
    have hne : ',' ≠ letter := by rcases hletter with rfl | rfl <;> decide
    have hplus : ',' ∉ plus := by rcases hplus with rfl | rfl <;> decide
    rw [List.mem_cons, List.mem_append, not_or, not_or]
    exact ⟨hne, hplus, fun hmem => absurd (hpowers _ hmem) (by decide)⟩
  rw [integer?, plainInteger?_eq_none hsign (head?_append_digits hne hdigits _) (by simp) hdigit,
    isGrouped_eq_false hsign hne hdigits _ hcomma]
  rfl

theorem read?_exponent : Decimal.read? (sign ++ (digits ++ letter :: (plus ++ power))) =
    some (if negative then
        -(Decimal.nearest (Nat.ofDigitChars 10 digits 0) (Nat.ofDigitChars 10 power 0 : Nat))
      else Decimal.nearest (Nat.ofDigitChars 10 digits 0) (Nat.ofDigitChars 10 power 0 : Nat)) := by
  have hstop : ∀ c ∈ (letter :: (plus ++ power)).head?, c.isDigit = false ∧ c ≠ '.' := by
    rintro c ⟨⟩
    rcases hletter with rfl | rfl <;> exact ⟨rfl, by decide⟩
  have htake : Decimal.takeSign (plus ++ power) = (false, power) := by
    have hhead := head?_append_digits hpower hpowers []
    rw [List.append_nil] at hhead
    rcases hplus with rfl | rfl
    · exact takeSign_append .none hhead
    · exact takeSign_append .plus hhead
  have hexponent : Decimal.readExponent? (letter :: (plus ++ power)) =
      some (Nat.ofDigitChars 10 power 0 : Int) := by
    rw [Decimal.readExponent?, if_pos hletter, htake]
    dsimp only
    rw [readNatural?_digits hpower hpowers]
    rfl
  rw [read?_append hsign (head?_append_digits hne hdigits _),
    scientific?_append hne hdigits _ hstop, hexponent]
  rfl

/-- Digits and an exponent. -/
theorem numeric?_exponent
    (hzero : Nat.ofDigitChars 10 digits 0 = 0 → Nat.ofDigitChars 10 power 0 ≤ 18) :
    numeric? (sign ++ (digits ++ letter :: (plus ++ power))) =
      some (reading negative (Nat.ofDigitChars 10 digits 0) (Nat.ofDigitChars 10 power 0)) := by
  refine numeric?_eq_reading
    (isWholeChar_exponent hsign hdigits hletter hplus hpowers) ?_
    (read?_exponent hsign hne hdigits hletter hplus hpower hpowers)
  rw [integer?_exponent hsign hne hdigits hletter hplus hpowers]
  exact exponentInteger?_eq hsign hne hdigits hletter hplus hpower hpowers hzero

/-- Zero with a power of ten that does not fit is read as a double. -/
theorem numeric?_zero_exponent (hzero : Nat.ofDigitChars 10 digits 0 = 0)
    (hlarge : 18 < Nat.ofDigitChars 10 power 0) :
    numeric? (sign ++ (digits ++ letter :: (plus ++ power))) =
      some (.numeric (if negative then -0 else 0)) := by
  have hinteger : integer? (sign ++ (digits ++ letter :: (plus ++ power))) = none := by
    rw [integer?_exponent hsign hne hdigits hletter hplus hpowers,
      exponentInteger?_append hsign hne hdigits hletter hplus hpower hpowers]
    exact Option.bind_eq_none_iff.mpr fun m _ => if_neg (Nat.not_le.mpr hlarge)
  have hnearest (k : Nat) : Decimal.nearest 0 k = 0 := by
    change Decimal.nearest 0 (Int.ofNat k) = 0
    rw [Decimal.nearest, if_pos (.inl rfl)]
  rw [numeric?_eq (isWholeChar_exponent hsign hdigits hletter hplus hpowers), hinteger,
    read?_exponent hsign hne hdigits hletter hplus hpower hpowers, hzero, hnearest]
  rfl

end Exponent

section Groups

variable {first : Text} {rest : List Text} (hgroups : digits = first ++ rest.flatten)
  (hfirst : 1 ≤ first.length ∧ first.length ≤ 3) (hrest : ∀ group ∈ rest, group.length = 3)
include hgroups hfirst hrest

/-- Digits in groups are read only if they fit. -/
theorem numeric?_groups (hmany : rest ≠ []) :
    numeric? (sign ++ [','].intercalate (first :: rest)) =
      (Word.ofInt? (Decimal.signedValue negative (Nat.ofDigitChars 10 digits 0))).map .integer := by
  obtain ⟨second, more, rfl⟩ := List.exists_cons_of_ne_nil hmany
  have hparts : ∀ group ∈ first :: second :: more, ∀ d ∈ group, d.isDigit = true := by
    intro group hgroup d hd
    refine hdigits d ?_
    rw [hgroups, ← List.flatten_cons]
    exact List.mem_flatten_of_mem hgroup hd
  have hcommas : ∀ group ∈ first :: second :: more, ',' ∉ group := fun group hgroup hmem =>
    absurd (hparts group hgroup _ hmem) (by decide)
  have hfilter := filter_intercalate hcommas
  have hsplit := splitAll_intercalate (List.cons_ne_nil first (second :: more)) hcommas
  have hchars : ∀ c ∈ sign ++ [','].intercalate (first :: second :: more), IsWholeChar c := by
    refine List.forall_mem_append.mpr ⟨isWholeChar_of_isSign hsign, fun c hc => ?_⟩
    rcases mem_intercalate hc with hcomma | ⟨group, hgroup, hmem⟩
    · exact .inr (by rw [List.mem_singleton.mp hcomma]; decide)
    · exact .inl (hparts group hgroup c hmem)
  have htext : [','].intercalate (first :: second :: more) =
      first ++ ',' :: [','].intercalate (second :: more) := by
    rw [List.intercalate_cons_cons, List.append_assoc, List.singleton_append]
  have hstop : ∀ c ∈ (',' :: [','].intercalate (second :: more)).head?,
      c.isDigit = false ∧ c ≠ '.' := by
    rintro c ⟨⟩
    exact ⟨rfl, by decide⟩
  have hne' : first ≠ [] := List.ne_nil_of_length_pos hfirst.1
  have hfirst' := hparts first (List.mem_cons_self ..)
  have hhead := head?_append_digits hne' hfirst' (',' :: [','].intercalate (second :: more))
  rw [← htext] at hhead
  have hgrouped : isGrouped ([','].intercalate (first :: second :: more)) = true := by
    rw [isGrouped, hsplit]
    simp only [Bool.and_eq_true, decide_eq_true_eq, List.all_eq_true, beq_iff_eq]
    exact ⟨⟨hfirst, hfirst'⟩, fun group hgroup =>
      ⟨hrest group hgroup, hparts group (List.mem_cons_of_mem _ hgroup)⟩⟩
  have hinteger : integer? (sign ++ [','].intercalate (first :: second :: more)) =
      Word.ofInt? (Decimal.signedValue negative (Nat.ofDigitChars 10 digits 0)) := by
    have hsigned : sign.filter (· != ',') = sign := List.filter_eq_self.mpr fun c hc =>
      bne_iff_ne.mpr fun heq => not_mem_of_isSign hsign (by decide) (by decide) (heq ▸ hc)
    rw [integer?, plainInteger?_eq_none hsign hhead (c := ',') (by simp [htext]) rfl,
      takeSign_append hsign hhead, List.filter_append, hsigned, hfilter, List.flatten_cons, ← hgroups]
    dsimp only
    rw [if_pos hgrouped, plainInteger?_digits hsign hne hdigits]
  have hread : Decimal.read? (sign ++ [','].intercalate (first :: second :: more)) = none := by
    rw [read?_append hsign hhead, htext, scientific?_append hne' hfirst' _ hstop]
    rfl
  rw [numeric?_eq hchars, hinteger, hread, Option.map_none, Option.or_none]

end Groups

/-- The spellings of an integer are read as its sign, its digits and its power of ten, but for numbers
in groups that do not fit, and for a zero with too large an exponent. -/
theorem numeric?_writing {text : Text} {k : Nat} (h : Writing digits text k)
    (hfits : ',' ∈ text → ∃ i : Int64,
      i.toInt = Decimal.signedValue negative (Nat.ofDigitChars 10 digits 0))
    (hzero : Nat.ofDigitChars 10 digits 0 = 0 → k ≤ 18) :
    numeric? (sign ++ text) = some (reading negative (Nat.ofDigitChars 10 digits 0) k) := by
  cases h with
  | plain => exact numeric?_plain hsign hne hdigits
  | exponent hletter hplus hpower hpowers =>
    exact numeric?_exponent hsign hne hdigits hletter hplus hpower hpowers hzero
  | @groups first rest hgroups hfirst hrest =>
    cases rest with
    | nil =>
      rw [List.flatten_nil, List.append_nil] at hgroups
      subst hgroups
      simpa [List.intercalate] using numeric?_plain hsign hne hdigits
    | cons second more =>
      obtain ⟨i, hi⟩ := hfits (by simp)
      rw [numeric?_groups hsign hne hdigits hgroups hfirst hrest (List.cons_ne_nil _ _),
        Word.ofInt?_eq_some_iff.mpr hi, reading_of_fits (by rwa [Nat.pow_zero, Nat.mul_one])]
      rfl

end Spellings

/-- However an integer is written, it is read as itself if it fits, and else as the double nearest to it;
digits in groups are read as the digits without the commas. -/
theorem numeric?_spelling {negative : Bool} {sign digits text : Text} {k : Nat}
    (hsign : Decimal.IsSign negative sign) (hne : digits ≠ [])
    (hdigits : ∀ d ∈ digits, d.isDigit = true) (h : Writing digits text k)
    (hfits : ',' ∈ text → ∃ i : Int64,
      i.toInt = Decimal.signedValue negative (Nat.ofDigitChars 10 digits 0))
    (hzero : Nat.ofDigitChars 10 digits 0 = 0 → k ≤ 18) :
    let v := Decimal.signedValue negative (Nat.ofDigitChars 10 digits 0 * 10 ^ k)
    (∀ i : Int64, i.toInt = v → numeric? (sign ++ text) = some (.integer i)) ∧
    ((∀ i : Int64, i.toInt ≠ v) →
      ∃ x, numeric? (sign ++ text) = some (.numeric x) ∧ Binary64.IsNearest v x) ∧
    (k = 0 → numeric? (sign ++ text) = numeric? (sign ++ digits)) := by
  have hread := numeric?_writing hsign hne hdigits h hfits hzero
  refine ⟨fun i hi => ?_, fun hnot => ?_, ?_⟩
  · rw [hread, reading_of_fits hi]
  · obtain ⟨x, hx, hnearest⟩ := reading_of_not_fits hnot
    exact ⟨x, by rw [hread, hx], hnearest⟩
  · rintro rfl
    rw [hread, numeric?_plain hsign hne hdigits]

/-- A negative integer in groups, and a power of ten that does not fit. -/
theorem numeric?_spelling_groups :
    Writing "1234567".toList "1,234,567".toList 0 ∧ Writing "1".toList "1e19".toList 19 ∧
      numeric? "-1,234,567".toList = some (.integer (-1234567)) ∧
      ∃ x, numeric? "1e19".toList = some (.numeric x) ∧ Binary64.IsNearest (10 ^ 19 : Int) x := by
  have hgroups : Writing "1234567".toList "1,234,567".toList 0 :=
    @Writing.groups _ "1".toList ["234".toList, "567".toList] rfl (by decide) (by decide)
  have hexponent : Writing "1".toList "1e19".toList 19 :=
    @Writing.exponent _ 'e' [] "19".toList (.inl rfl) (.inl rfl) (by decide)
      (List.all_eq_true.mp rfl)
  refine ⟨hgroups, hexponent, ?_, ?_⟩
  · exact (numeric?_spelling .minus (by decide) (List.all_eq_true.mp rfl) hgroups
      (fun _ => ⟨-1234567, by decide⟩) (by decide)).1 (-1234567) (by decide)
  · refine (numeric?_spelling .none (by decide) (List.all_eq_true.mp rfl) hexponent
      (fun h => absurd h (by decide)) (by decide)).2.1 fun i hi => ?_
    have := Int64.toInt_lt i
    have hvalue : Decimal.signedValue false (Nat.ofDigitChars 10 "1".toList 0 * 10 ^ 19) = 10 ^ 19 := by
      decide
    rw [hvalue] at hi
    omega

/-- An integer in groups that does not fit, and a zero that is not read as an integer. -/
theorem numeric?_groups_beyond :
    Writing "9223372036854775808".toList "9,223,372,036,854,775,808".toList 0 ∧
      Writing "0".toList "0e19".toList 19 ∧
      numeric? "9,223,372,036,854,775,808".toList = none ∧
      numeric? "0e19".toList = some (.numeric 0) := by
  refine ⟨@Writing.groups _ "9".toList ["223".toList, "372".toList, "036".toList, "854".toList,
    "775".toList, "808".toList] rfl (by decide) (by decide),
    @Writing.exponent _ 'e' [] "19".toList (.inl rfl) (.inl rfl) (by decide)
      (List.all_eq_true.mp rfl), ?_, ?_⟩
  · decide
  · decide

end Literal

end Formula
