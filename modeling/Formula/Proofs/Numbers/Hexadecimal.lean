import Mathlib.Data.Nat.Digits.Defs
import Formula.Proofs.Source.Numerals

/-!
# Hexadecimal numbers

A hexadecimal number is a mark and digits, in any case of their letters and with any number of zeros
in front. Its value has to fit in 64 bits, which are read as a signed integer. One text more than
these is accepted: a plus sign may stand between the mark and the digits.

## Main definitions

* `Literal.HexMark`: the marks of hexadecimal numbers.
* `Literal.isHexDigit`, `Literal.hexDigitValue`, `Literal.hexNumber`: digits and the number they
  write.

## Main results

* `Literal.hex?_eq_some_iff`: the texts that are hexadecimal numbers, and their values.
-/

namespace Formula.Literal

open Text

/-- The marks of hexadecimal numbers: `0x`, `0X`, `&h` and `&H`. -/
def HexMark (c x : Char) : Prop :=
  c = '0' ∧ (x = 'x' ∨ x = 'X') ∨ c = '&' ∧ (x = 'h' ∨ x = 'H')

/-- Hexadecimal digits. -/
def isHexDigit (c : Char) : Bool :=
  c.isDigit || ('a' ≤ c && c ≤ 'f') || ('A' ≤ c && c ≤ 'F')

/-- The value of a hexadecimal digit. -/
def hexDigitValue (c : Char) : Nat :=
  if c.isDigit then c.toNat - '0'.toNat
  else if 'a' ≤ c then c.toNat - 'a'.toNat + 10
  else c.toNat - 'A'.toNat + 10

/-- The number written by hexadecimal digits, the most significant first. -/
def hexNumber (digits : Text) : Nat :=
  Nat.ofDigits 16 (digits.reverse.map hexDigitValue)

theorem isHexDigit_eq_false {c : Char} (h : 0x80 ≤ c.toNat) : isHexDigit c = false := by
  have hle (d : Char) (hd : d.toNat < 0x80) : ¬c ≤ d := fun hcd =>
    absurd (h.trans (UInt32.le_iff_toNat_le.mp hcd)) (Nat.not_le.mpr hd)
  have hdigit : c.isDigit = false := Bool.eq_false_of_not_eq_true fun hc =>
    absurd (toNat_lt_of_isDigit hc) (by omega)
  simp [isHexDigit, hdigit, hle 'f' (by decide), hle 'F' (by decide)]

/-- A digit is read in lower case. -/
theorem hexDigit?_toLower (c : Char) :
    hexValue?.hexDigit? c.toLower = if isHexDigit c then some (hexDigitValue c) else none := by
  by_cases hc : c.toNat < 0x80
  · have hall : ∀ n < 0x80, hexValue?.hexDigit? (Char.ofNat n).toLower =
        if isHexDigit (Char.ofNat n) then some (hexDigitValue (Char.ofNat n)) else none := by
      decide
    simpa using hall c.toNat hc
  · have hfalse := isHexDigit_eq_false (Nat.le_of_not_lt hc)
    rw [hfalse, if_neg Bool.false_ne_true, Option.eq_none_iff_forall_ne_some]
    intro d hd
    rw [isHexDigit, isHexDigit_of_toLower (by rw [hd]; rfl)] at hfalse
    cases hfalse

theorem hexNumber_append_singleton (digits : Text) (c : Char) :
    hexNumber (digits ++ [c]) = hexNumber digits * 16 + hexDigitValue c := by
  rw [hexNumber, List.reverse_append, List.reverse_singleton, List.singleton_append, List.map_cons,
    Nat.ofDigits_cons, hexNumber, Nat.add_comm, Nat.mul_comm]

/-- Digits are read to their number, and a text with another character is not read. -/
theorem hexValue?_toLower (digits : Text) :
    hexValue? (digits.map Char.toLower) =
      if digits.all isHexDigit then some (hexNumber digits) else none := by
  induction digits using List.reverseRecOn with
  | nil => rfl
  | append_singleton digits c ih =>
    rw [hexValue?] at ih ⊢
    rw [List.map_append, List.foldlM_append, ih, List.all_append]
    cases digits.all isHexDigit with
    | false => rfl
    | true =>
      simp only [List.map_cons, List.map_nil, List.foldlM_cons, List.foldlM_nil, hexDigit?_toLower,
        List.all_cons, List.all_nil, Bool.and_true, Bool.true_and, hexNumber_append_singleton]
      cases isHexDigit c <;> rfl

/-- Two's complement of 64 bits. -/
theorem toInt_ofInt_of_lt {n : Nat} (h : n < 2 ^ 64) :
    (Int64.ofInt n).toInt = if n < 2 ^ 63 then (n : Int) else n - 2 ^ 64 := by
  rw [Int64.toInt_ofInt, Int.bmod_def, show Int64.size = 2 ^ 64 from rfl]
  split <;> split <;> omega

/-- What stands between the mark and the end, in lower case. -/
theorem afterHexMark?_toLower {c x : Char} (h : HexMark c x) (rest : Text) :
    afterHexMark? ((c :: x :: rest).map Char.toLower) = some (rest.map Char.toLower) := by
  rcases h with ⟨rfl, rfl | rfl⟩ | ⟨rfl, rfl | rfl⟩ <;> rfl

/-- A hexadecimal number is read from what follows the mark and a plus sign. -/
theorem hex?_mark {c x : Char} (h : HexMark c x) (plus digits : Text)
    (hplus : plus = [] ∧ digits.head? ≠ some '+' ∨ plus = ['+']) :
    hex? (c :: x :: (plus ++ digits)) =
      if digits ≠ [] ∧ digits.all isHexDigit = true ∧ hexNumber digits < 2 ^ 64 then
        some (.integer (Int64.ofInt (hexNumber digits)))
      else none := by
  -- what is left of the reader once the mark and the sign are passed
  have hread : (if digits.map Char.toLower = [] then none
      else (hexValue? (digits.map Char.toLower)).bind fun n =>
        if n < UInt64.size then some (.integer (Int64.ofInt n)) else none) =
      if digits ≠ [] ∧ digits.all isHexDigit = true ∧ hexNumber digits < 2 ^ 64 then
        some (Value.integer (Int64.ofInt (hexNumber digits)))
      else none := by
    rw [hexValue?_toLower]
    by_cases hnil : digits = []
    · simp [hnil]
    · by_cases hall : digits.all isHexDigit = true
      · simp [hnil, hall, UInt64.size]
      · simp [hall]
  rw [← hread, hex?, afterHexMark?_toLower h]
  rcases hplus with ⟨rfl, hhead⟩ | rfl
  · simp only [List.nil_append, Option.bind_eq_bind, Option.bind_some]
    split
    · next rest hrest =>
      obtain ⟨d, tail, rfl, hd, -⟩ := List.map_eq_cons_iff.mp hrest
      exact absurd (congrArg some (eq_of_toLower hd (by decide))) hhead
    · split <;> rfl
  · simp only [Option.bind_eq_bind, Option.bind_some]
    change (if digits.map Char.toLower = [] then _ else _) = _
    split <;> rfl

/-- A text is a hexadecimal number exactly if it is a mark, perhaps a plus sign, and one or more
hexadecimal digits whose number is less than `2 ^ 64`. Its value is the number in two's
complement. -/
theorem hex?_eq_some_iff (text : Text) (v : Value) :
    hex? text = some v ↔ ∃ c x plus digits i, text = c :: x :: (plus ++ digits) ∧ HexMark c x ∧
      (plus = [] ∨ plus = ['+']) ∧ digits ≠ [] ∧ (∀ d ∈ digits, isHexDigit d = true) ∧
      hexNumber digits < 2 ^ 64 ∧ v = .integer i ∧
      i.toInt = if hexNumber digits < 2 ^ 63 then (hexNumber digits : Int)
        else hexNumber digits - 2 ^ 64 := by
  constructor
  · intro h
    obtain ⟨lower, hafter, -⟩ := Option.bind_eq_some_iff.mp h
    obtain ⟨c, x, run, rfl, -, hmark⟩ := exists_of_afterHexMark? hafter
    obtain ⟨plus, digits, rfl, hplus⟩ : ∃ plus digits, run = plus ++ digits ∧
        (plus = [] ∧ digits.head? ≠ some '+' ∨ plus = ['+']) := by
      by_cases hhead : run.head? = some '+'
      · obtain ⟨digits, rfl⟩ := List.head?_eq_some_iff.mp hhead
        exact ⟨['+'], digits, rfl, .inr rfl⟩
      · exact ⟨[], run, rfl, .inl ⟨rfl, hhead⟩⟩
    rw [hex?_mark hmark plus digits hplus] at h
    split at h
    · next hdigits =>
      obtain ⟨hne, hall, hlt⟩ := hdigits
      exact ⟨c, x, plus, digits, _, rfl, hmark, hplus.imp_left And.left, hne,
        List.all_eq_true.mp hall, hlt, (Option.some.inj h).symm, toInt_ofInt_of_lt hlt⟩
    · cases h
  · rintro ⟨c, x, plus, digits, i, rfl, hmark, hplus, hne, hall, hlt, rfl, hi⟩
    have hhead : digits.head? ≠ some '+' := fun hhead =>
      absurd (hall _ (List.mem_of_head? hhead)) (by decide)
    rw [hex?_mark hmark plus digits (hplus.imp_left fun hplus => ⟨hplus, hhead⟩),
      if_pos ⟨hne, List.all_eq_true.mpr hall, hlt⟩, Option.some.injEq, Value.integer.injEq]
    exact Int64.toInt_inj.mp ((toInt_ofInt_of_lt hlt).trans hi.symm)

/-- A plus sign between the mark and the digits. -/
theorem hex?_signed : hex? "0x+1F".toList = some (.integer 31) := by
  decide

example : hex? "0xFFFFFFFFFFFFFFFF".toList = some (.integer (-1)) := by
  decide

end Formula.Literal
