import Mathlib.Data.List.Basic
import Mathlib.Data.List.TakeWhile
import Mathlib.Tactic.IntervalCases
import Formula.Json.Token
import Formula.Json.Write

/-!
# Tokens of written text

The decimal digits of a number are read as one token, and so is a string in quotes, whatever characters
it holds: an escaped character is read as itself. A token that is an integer has come from digits alone,
so that a text with a point or an exponent never gives one.

## Main definitions

* `Json.AtMark`: where a datum may end.
* `Json.Number.isWhole`: the kinds of numbers that are integers.

## Main results

* `Json.tokens_toDigits`, `Json.tokens_negative`: the tokens of decimal digits.
* `Json.tokens_writeString`: the token of a string in quotes.
* `Json.isDigit_or_of_isWhole`: the characters of a text that is read as an integer.
-/

namespace Formula.Json

/-! ### One token after another -/

@[simp]
theorem tokens_nil : tokens [] = [] := by
  rw [tokens]
  rfl

/-- A token at the front of a text, and those after it. -/
theorem tokens_cons {c : Char} {tail rest : Text} {token : Token} (hspace : isSpace c = false)
    (h : readToken? (c :: tail) = some (token, rest)) (hlen : rest.length ≤ tail.length) :
    tokens (c :: tail) = token :: tokens rest := by
  have hdrop : (c :: tail).dropWhile isSpace = c :: tail := by
    rw [List.dropWhile_cons, hspace]
    rfl
  have hshort : rest.length < (c :: tail).length := Nat.lt_succ_of_le hlen
  rw [tokens, hdrop]
  simp only [h, if_pos hshort]

@[simp]
theorem tokens_leftBrace (rest : Text) : tokens ('\x7b' :: rest) = .leftBrace :: tokens rest :=
  tokens_cons (by decide) rfl (Nat.le_refl _)

@[simp]
theorem tokens_rightBrace (rest : Text) : tokens ('\x7d' :: rest) = .rightBrace :: tokens rest :=
  tokens_cons (by decide) rfl (Nat.le_refl _)

@[simp]
theorem tokens_leftBracket (rest : Text) : tokens ('[' :: rest) = .leftBracket :: tokens rest :=
  tokens_cons (by decide) rfl (Nat.le_refl _)

@[simp]
theorem tokens_rightBracket (rest : Text) : tokens (']' :: rest) = .rightBracket :: tokens rest :=
  tokens_cons (by decide) rfl (Nat.le_refl _)

@[simp]
theorem tokens_colon (rest : Text) : tokens (':' :: rest) = .colon :: tokens rest :=
  tokens_cons (by decide) rfl (Nat.le_refl _)

@[simp]
theorem tokens_comma (rest : Text) : tokens (',' :: rest) = .comma :: tokens rest :=
  tokens_cons (by decide) rfl (Nat.le_refl _)

/-! ### Numbers -/

theorem le_ofDigitChars (digits : Text) (n : Nat) : n ≤ Nat.ofDigitChars 10 digits n := by
  rw [Nat.ofDigitChars_eq_ofDigitChars_zero]
  exact Nat.le_trans (Nat.le_mul_of_pos_left n (Nat.pow_pos (by decide))) (Nat.le_add_right ..)

/-- Digits are taken up to the end as long as the number fits in 64 bits. -/
theorem gather_eq {digits : Text} {n : Nat} (hfits : Nat.ofDigitChars 10 digits n < UInt64.size) :
    gather n digits = (Nat.ofDigitChars 10 digits n, digits.length, 0) := by
  induction digits generalizing n with
  | nil => rfl
  | cons c digits ih =>
    rw [Nat.ofDigitChars_cons, Nat.mul_comm] at hfits ⊢
    have hnext := Nat.lt_of_le_of_lt (le_ofDigitChars digits _) hfits
    rw [gather]
    simp only [if_pos hnext, ih hfits, List.length_cons]

theorem gather_toDigits {n : Nat} (hn : n < UInt64.size) :
    gather 0 (Nat.toDigits 10 n) = (n, (Nat.toDigits 10 n).length, 0) := by
  have hfits : Nat.ofDigitChars 10 (Nat.toDigits 10 n) 0 < UInt64.size := by
    rwa [Nat.ofDigitChars_ten_toDigits]
  rw [gather_eq hfits, Nat.ofDigitChars_ten_toDigits]

/-- Only the digits of zero start with a zero. -/
theorem head?_toDigits_ne {n : Nat} (hn : 0 < n) : (Nat.toDigits 10 n).head? ≠ some '0' := by
  induction n using Nat.strongRecOn with
  | _ n ih =>
    rcases Nat.lt_or_ge n 10 with hless | hmore
    · rw [Nat.toDigits_of_lt_base hless]
      interval_cases n <;> decide
    · rw [Nat.toDigits_of_base_le (by decide) hmore, List.head?_append_of_ne_nil _ Nat.toDigits_ne_nil]
      exact ih (n / 10) (Nat.div_lt_self hn (by decide)) (Nat.div_pos hmore (by decide))

/-- A digit starts a number. -/
theorem readToken?_digit {c : Char} (hc : c.isDigit = true) (text : Text) :
    readToken? (c :: text) = (readNumber? false (c :: text)).map fun (n, rest) => (.number n, rest) := by
  rw [readToken?, if_pos hc]
  all_goals
    rintro rfl
    exact absurd hc (by decide)

theorem isSpace_of_isDigit {c : Char} (hc : c.isDigit = true) : isSpace c = false := by
  have hbounds : 48 ≤ c.toNat := (Char.isDigit_iff_toNat.mp hc).1
  have hblank : c ≠ ' ' := fun heq => absurd hc (heq ▸ by decide)
  simp only [isSpace, Bool.or_eq_false_iff, beq_eq_false_iff_ne]
  exact ⟨⟨⟨hblank, by omega⟩, by omega⟩, by omega⟩

/-- The text is over, or goes on with a mark that may stand behind a datum. -/
def AtMark (rest : Text) : Prop :=
  ∀ c ∈ rest.head?, c = ',' ∨ c = ']' ∨ c = '\x7d'

theorem atMark_nil : AtMark [] := by simp [AtMark]

theorem atMark_comma (rest : Text) : AtMark (',' :: rest) := by simp [AtMark]

theorem atMark_rightBracket (rest : Text) : AtMark (']' :: rest) := by simp [AtMark]

theorem atMark_rightBrace (rest : Text) : AtMark ('\x7d' :: rest) := by simp [AtMark]

section Digits

variable {rest : Text} (hrest : AtMark rest)
include hrest

/-- Digits are read up to the next mark. -/
theorem readNumber?_toDigits (negative : Bool) (n : Nat) :
    readNumber? negative (Nat.toDigits 10 n ++ rest) =
      some (wholeNumber negative (Nat.toDigits 10 n), rest) := by
  have hdigits : ∀ c ∈ Nat.toDigits 10 n, c.isDigit = true := fun c hc =>
    Nat.isDigit_of_mem_toDigits (by decide) (Nat.le_refl 10) hc
  have hstop : rest.takeWhile Char.isDigit = [] ∧ rest.dropWhile Char.isDigit = rest := by
    cases rest with
    | nil => exact ⟨rfl, rfl⟩
    | cons c rest => rcases hrest c rfl with rfl | rfl | rfl <;> exact ⟨rfl, rfl⟩
  have hleading : ¬(Nat.toDigits 10 n = [] ∨
      ((Nat.toDigits 10 n).head? = some '0' ∧ 1 < (Nat.toDigits 10 n).length)) := by
    rintro (hnil | ⟨hhead, hlength⟩)
    · exact Nat.toDigits_ne_nil hnil
    · rcases Nat.eq_zero_or_pos n with rfl | hpos
      · rw [Nat.toDigits_zero] at hlength
        exact absurd hlength (by decide)
      · exact head?_toDigits_ne hpos hhead
  rw [readNumber?, List.takeWhile_append_of_pos hdigits, List.dropWhile_append_of_pos hdigits, hstop.1,
    hstop.2, List.append_nil]
  simp only [if_neg hleading]
  cases rest with
  | nil => rfl
  | cons c rest => rcases hrest c rfl with rfl | rfl | rfl <;> rfl

/-- The digits of a number below `2 ^ 64` are one token. -/
theorem tokens_toDigits {n : Nat} (hn : n < UInt64.size) :
    tokens (Nat.toDigits 10 n ++ rest) = .number (.natural n) :: tokens rest := by
  have hread := readNumber?_toDigits hrest false n
  have hwhole : wholeNumber false (Nat.toDigits 10 n) = .natural n := by
    rw [wholeNumber, gather_toDigits hn]
    rfl
  have hdigits : ∀ c ∈ Nat.toDigits 10 n, c.isDigit = true := fun c hc =>
    Nat.isDigit_of_mem_toDigits (by decide) (Nat.le_refl 10) hc
  rw [hwhole] at hread
  obtain ⟨c, digits, hcons⟩ := List.exists_cons_of_ne_nil (Nat.toDigits_ne_nil (n := n) (b := 10))
  rw [hcons] at hread hdigits ⊢
  have hc := hdigits c (List.mem_cons_self ..)
  refine tokens_cons (isSpace_of_isDigit hc) ?_ (List.length_append .. ▸ Nat.le_add_left ..)
  rw [readToken?_digit hc]
  exact congrArg (Option.map _) hread

/-- A minus sign and the digits of a number down to the least integer are one token. -/
theorem tokens_negative {n : Nat} (hpos : 0 < n) (hn : n ≤ 2 ^ 63) :
    tokens ('-' :: (Nat.toDigits 10 n ++ rest)) = .number (.negative (-n)) :: tokens rest := by
  have hsize : n < UInt64.size := Nat.lt_of_le_of_lt hn (by decide)
  have hwhole : wholeNumber true (Nat.toDigits 10 n) = .negative (-n) := by
    have hleast : Int64.minValue.toInt = -2 ^ 63 := rfl
    have hfits : 0 < n ∧ Int64.minValue.toInt ≤ -(n : Int) := ⟨hpos, by omega⟩
    rw [wholeNumber, gather_toDigits hsize]
    exact if_pos hfits
  refine tokens_cons (by decide) ?_ (List.length_append .. ▸ Nat.le_add_left ..)
  rw [readToken?, readNumber?_toDigits hrest true n, hwhole]
  rfl

end Digits

/-- The word of a truth value is one token. -/
theorem tokens_boolean (b : Bool) (rest : Text) :
    tokens ((if b then "true" else "false").toList ++ rest) = .boolean b :: tokens rest := by
  cases b
  · have hlen : rest.length ≤ (['a', 'l', 's', 'e'] ++ rest).length := by simp; omega
    exact tokens_cons (c := 'f') (by decide) rfl hlen
  · have hlen : rest.length ≤ (['r', 'u', 'e'] ++ rest).length := by simp; omega
    exact tokens_cons (c := 't') (by decide) rfl hlen

/-! ### Strings -/

theorem hexUnit?_lowerHexDigit :
    ∀ n < 32, hexUnit? '0' '0' (lowerHexDigit (n / 16)) (lowerHexDigit (n % 16)) = some n := by
  decide

/-- An escaped character is read as itself. -/
theorem readUnits?_writeChar (c : Char) (rest : Text) :
    readUnits? (writeChar c ++ rest) =
      (readUnits? rest).map fun (units, rest) => (c.toNat :: units, rest) := by
  by_cases hquote : c = '"'
  · subst hquote
    cases hrest : readUnits? rest <;> simp [writeChar, readUnits?, escaped?, hrest]
  by_cases hbackslash : c = '\\'
  · subst hbackslash
    cases hrest : readUnits? rest <;> simp [writeChar, readUnits?, escaped?, hrest]
  rw [writeChar, if_neg hquote, if_neg hbackslash]
  split
  case h_6 =>
    split
    · next hcontrol =>
      simp only [List.cons_append, List.nil_append]
      rw [readUnits?, hexUnit?_lowerHexDigit c.toNat hcontrol]
      cases readUnits? rest <;> rfl
    · next hplain =>
      rw [List.singleton_append, readUnits?, if_neg (not_or.mpr ⟨hbackslash, hplain⟩)]
      · exact hquote
      · exact fun _ _ _ _ _ h => absurd h hbackslash
      · exact fun _ _ h => absurd h hbackslash
  all_goals
    next h =>
    cases hrest : readUnits? rest <;> simp [readUnits?, escaped?, hrest, h]

/-- A string is read up to its closing quote. -/
theorem readUnits?_flatMap (text rest : Text) :
    readUnits? (text.flatMap writeChar ++ '"' :: rest) = some (text.map Char.toNat, rest) := by
  induction text with
  | nil => simp [readUnits?]
  | cons c text ih =>
    rw [List.flatMap_cons, List.append_assoc, readUnits?_writeChar, ih]
    rfl

/-- A character is no half of a surrogate pair. -/
theorem joinUnits?_map (text : Text) : joinUnits? (text.map Char.toNat) = some text := by
  induction text with
  | nil => rfl
  | cons c text ih =>
    have hvalid : c.toNat < 0xD800 ∨ (0xDFFF < c.toNat ∧ c.toNat < 0x110000) := c.valid
    have hfirst : ¬(0xD800 ≤ c.toNat ∧ c.toNat < 0xDC00) := by omega
    have hsecond : ¬(0xDC00 ≤ c.toNat ∧ c.toNat < 0xE000) := by omega
    unfold joinUnits?
    simp only [List.map_cons, if_neg hfirst, if_neg hsecond, ih, Option.map_some, Char.ofNat_toNat]

/-- A string in quotes is one token. -/
theorem tokens_writeString (s : String) (rest : Text) :
    tokens (writeString s ++ rest) = .string (some s) :: tokens rest := by
  have htext : writeString s ++ rest = '"' :: (s.toList.flatMap writeChar ++ '"' :: rest) := by
    simp [writeString]
  rw [htext]
  refine tokens_cons (by decide) ?_ (by simp; omega)
  rw [readToken?, readUnits?_flatMap]
  simp only [Option.map_some, joinUnits?_map, String.ofList_toList]

/-! ### Integers -/

/-- Whether a number is an integer. -/
def Number.isWhole : Number → Bool
  | natural _ | negative _ => true
  | double _ | outOfRange => false

theorem isWhole_scale (negative : Bool) (n : Nat) (e : Int) : (scale negative n e).isWhole = false := by
  cases e <;> simp only [scale, apply_ite Number.isWhole] <;> simp only [Number.isWhole, ite_self]

theorem readExponent?_eq_none {text rest : Text} (h : readExponent? text = some (none, rest)) :
    rest = text := by
  cases text with
  | nil => cases h; rfl
  | cons c text =>
    unfold readExponent? at h
    by_cases hc : c = 'e' ∨ c = 'E'
    · simp only [if_pos hc] at h
      repeat' split at h
      all_goals cases h
    · simp only [if_neg hc] at h
      cases h
      rfl

/-- A number that is an integer is read off digits alone. -/
theorem readNumber?_isWhole {negative : Bool} {text rest : Text} {n : Number}
    (h : readNumber? negative text = some (n, rest)) (hn : n.isWhole = true) :
    ∀ c ∈ text, c.isDigit = true ∨ c ∈ rest := by
  unfold readNumber? at h
  simp only [Option.bind_eq_bind, Option.pure_def] at h
  split at h
  · cases h
  split at h
  · split at h
    · cases h
    · rw [Option.bind_some] at h
      obtain ⟨⟨exponent, after⟩, -, h⟩ := Option.bind_eq_some_iff.mp h
      cases h
      rw [realNumber, isWhole_scale] at hn
      cases hn
  · rw [Option.bind_some] at h
    obtain ⟨⟨exponent, after⟩, hexponent, h⟩ := Option.bind_eq_some_iff.mp h
    cases exponent with
    | none =>
      cases h
      intro c hc
      rw [← List.takeWhile_append_dropWhile (p := Char.isDigit) (l := text), List.mem_append] at hc
      exact hc.imp List.mem_takeWhile_imp fun hc => readExponent?_eq_none hexponent ▸ hc
    | some e =>
      cases h
      rw [realNumber, isWhole_scale] at hn
      cases hn

theorem readToken?_number {text rest : Text} {n : Number}
    (h : readToken? text = some (.number n, rest)) :
    (∃ tail, text = '-' :: tail ∧ readNumber? true tail = some (n, rest)) ∨
      readNumber? false text = some (n, rest) := by
  unfold readToken? at h
  split at h
  · cases h
  split at h
  case h_8 =>
    obtain ⟨⟨m, after⟩, hread, heq⟩ := Option.map_eq_some_iff.mp h
    cases heq
    exact .inl ⟨_, rfl, hread⟩
  case h_9 =>
    split at h
    · obtain ⟨⟨m, after⟩, hread, heq⟩ := Option.map_eq_some_iff.mp h
      cases heq
      exact .inr hread
    · simp [Option.or_eq_some_iff] at h
  case h_7 =>
    obtain ⟨_, _, heq⟩ := Option.map_eq_some_iff.mp h
    cases heq
  all_goals cases h

/-- A text without tokens is blank. -/
theorem isSpace_of_tokens_eq_nil {text : Text} (h : tokens text = []) : ∀ c ∈ text, isSpace c = true := by
  rw [tokens] at h
  split at h
  · next hblank => exact List.dropWhile_eq_nil_iff.mp hblank
  · split at h
    · cases h
    · split at h <;> cases h

/-- The first token of a text is read where its blanks end. -/
theorem readToken?_of_tokens_eq_cons {text : Text} {token : Token} {more : List Token}
    (h : tokens text = token :: more) (hgood : token ≠ .bad) :
    ∃ rest, readToken? (text.dropWhile isSpace) = some (token, rest) ∧ tokens rest = more := by
  rw [tokens] at h
  split at h
  · cases h
  · next hblank =>
    rw [hblank]
    split at h
    · cases h
      exact absurd rfl hgood
    · next token' rest hread =>
      split at h
      · cases h
        exact ⟨rest, hread, rfl⟩
      · cases h
        exact absurd rfl hgood

/-- A text that is read as an integer holds digits, a minus sign and blanks only. -/
theorem isDigit_or_of_isWhole {text : Text} {n : Number} (h : tokens text = [.number n])
    (hn : n.isWhole = true) : ∀ c ∈ text, c.isDigit = true ∨ c = '-' ∨ isSpace c = true := by
  obtain ⟨rest, hread, hrest⟩ := readToken?_of_tokens_eq_cons h (by simp)
  have hend := isSpace_of_tokens_eq_nil hrest
  intro c hc
  rw [← List.takeWhile_append_dropWhile (p := isSpace) (l := text), List.mem_append] at hc
  rcases hc with hc | hc
  · exact .inr (.inr (List.mem_takeWhile_imp hc))
  · rcases readToken?_number hread with ⟨tail, htail, hread⟩ | hread
    · rw [htail, List.mem_cons] at hc
      rcases hc with rfl | hc
      · exact .inr (.inl rfl)
      · exact (readNumber?_isWhole hread hn c hc).imp_right fun hc => .inr (hend c hc)
    · exact (readNumber?_isWhole hread hn c hc).imp_right fun hc => .inr (hend c hc)

end Formula.Json
