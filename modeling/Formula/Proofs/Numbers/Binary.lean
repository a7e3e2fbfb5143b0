import Mathlib.Data.List.Induction
import Mathlib.Tactic.Ring
import Formula.Literal
import Formula.Proofs.Numbers.Bytes

/-!
# Binary numbers

A binary number is a mark and digits, among which underscores may stand anywhere. Its digits are
padded to whole bytes, cut into groups of eight, read group by group and put in reverse, so that the
array that comes out has one byte for every eight digits begun and stands for the number that the
digits write. Every array is written by its own bits.

Digits are counted and checked as bytes: a character beyond ASCII takes several of them, and none of
these is a digit.

## Main definitions

* `Literal.bitsNumber`: the number that bits write, the most significant one first.
* `Literal.bits`: the digits of an array, the most significant byte and bit first.

## Main results

* `Literal.mapM_octet?`: the bytes that groups of eight digits are read to.
* `Literal.binary?_eq_some_iff`: the texts that are binary numbers, and their arrays.
* `Literal.binary?_positional`: binary numbers, with underscores anywhere and for every array.
-/

namespace Formula

/-- Arrays of one length that stand for the same number are the same. -/
theorem Bytes.eq_of_toNat_eq {as bs : Bytes} (hlength : as.length = bs.length)
    (h : as.toNat = bs.toNat) : as = bs := by
  refine List.ext_getElem hlength fun i hi hi' => ?_
  have hbyte : as.byteAt i = bs.byteAt i := UInt8.toNat_inj.mp (by
    rw [toNat_byteAt, toNat_byteAt, h])
  rwa [byteAt, byteAt, List.getD_eq_getElem _ _ hi, List.getD_eq_getElem _ _ hi'] at hbyte

namespace Literal

open Text

/-! ### Bits and the numbers they write -/

/-- The number that bits write, the most significant one first. -/
def bitsNumber (bits : List Bool) : Nat :=
  Nat.ofDigits 2 (bits.reverse.map Bool.toNat)

theorem bitsNumber_append (xs ys : List Bool) :
    bitsNumber (xs ++ ys) = bitsNumber xs * 2 ^ ys.length + bitsNumber ys := by
  rw [bitsNumber, List.reverse_append, List.map_append, Nat.ofDigits_append, List.length_map,
    List.length_reverse, Nat.add_comm, Nat.mul_comm, bitsNumber, bitsNumber]

theorem bitsNumber_singleton (bit : Bool) : bitsNumber [bit] = bit.toNat := by
  rw [bitsNumber, List.reverse_singleton, List.map_singleton, Nat.ofDigits_singleton]

theorem bitsNumber_lt (bits : List Bool) : bitsNumber bits < 2 ^ bits.length := by
  have h := Nat.ofDigits_lt_base_pow_length (b := 2) (l := bits.reverse.map Bool.toNat) (by decide)
    fun d hd => by
      obtain ⟨bit, -, rfl⟩ := List.mem_map.mp hd
      cases bit <;> decide
  rwa [List.length_map, List.length_reverse] at h

/-- Zeros in front do not count. -/
theorem bitsNumber_zeros (n : Nat) (bits : List Bool) :
    bitsNumber (List.replicate n false ++ bits) = bitsNumber bits := by
  have hzeros : bitsNumber (List.replicate n false) = 0 := by
    rw [bitsNumber, List.reverse_replicate, List.map_replicate]
    induction n with
    | zero => rfl
    | succ n ih => rw [List.replicate_succ, Nat.ofDigits_cons, ih]; rfl
  rw [bitsNumber_append, hzeros, Nat.zero_mul, Nat.zero_add]

/-! ### Digits as bytes -/

/-- The bytes of the digits `0` and `1`. -/
def isBinaryByte (d : UInt8) : Bool :=
  d == 48 || d == 49

/-- The digits `0` and `1`. -/
def isBinaryDigit (c : Char) : Bool :=
  c == '0' || c == '1'

/-- The form of a character in bytes has nothing but digits only for digits. -/
theorem all_utf8EncodeChar (c : Char) :
    (String.utf8EncodeChar c).all isBinaryByte = isBinaryDigit c := by
  have hother {n : Nat} (h : 128 ≤ n) (hn : n < 256) : isBinaryByte (UInt8.ofNat n) = false := by
    have hne (d : UInt8) (hd : d.toNat < 128) : (UInt8.ofNat n == d) = false :=
      beq_false_of_ne fun heq => by
        have := congrArg UInt8.toNat heq
        rw [UInt8.toNat_ofNat', Nat.mod_eq_of_lt hn] at this
        omega
    rw [isBinaryByte, hne 48 (by decide), hne 49 (by decide)]
    rfl
  by_cases hc : c.toNat < 128
  · have hall : ∀ n < 128, (String.utf8EncodeChar (Char.ofNat n)).all isBinaryByte =
        isBinaryDigit (Char.ofNat n) := by
      decide
    simpa using hall c.toNat hc
  · have hne (d : Char) (hd : d.toNat < 128) : (c == d) = false :=
      beq_false_of_ne fun heq => hc (heq ▸ hd)
    have hsize : ¬c.val.toNat ≤ 127 := by
      have : c.toNat = c.val.toNat := rfl
      omega
    rw [isBinaryDigit, hne '0' (by decide), hne '1' (by decide), String.utf8EncodeChar]
    rw [if_neg hsize]
    split
    · rw [List.all_cons, hother (by omega) (by omega)]
      rfl
    · split
      · rw [List.all_cons, hother (by omega) (by omega)]
        rfl
      · rw [List.all_cons, hother (by omega) (by omega)]
        rfl

theorem all_flatMap_utf8EncodeChar (digits : Text) :
    (digits.flatMap String.utf8EncodeChar).all isBinaryByte = digits.all isBinaryDigit := by
  rw [List.all_flatMap]
  exact congrArg _ (funext all_utf8EncodeChar)

/-- Digits take one byte each. -/
theorem map_flatMap_utf8EncodeChar {digits : Text} (h : digits.all isBinaryDigit = true) :
    (digits.flatMap String.utf8EncodeChar).map (· == 49) = digits.map (· == '1') := by
  induction digits with
  | nil => rfl
  | cons c digits ih =>
    rw [List.all_cons, Bool.and_eq_true, isBinaryDigit, Bool.or_eq_true, beq_iff_eq, beq_iff_eq] at h
    obtain ⟨rfl | rfl, hrest⟩ := h
    all_goals
      rw [List.flatMap_cons, List.map_append, ih hrest, List.map_cons]
      rfl

/-! ### Groups of eight digits -/

theorem chunks_nil {α : Type} : chunks 8 ([] : List α) = [] := by
  simp [chunks]

/-- The first group stands apart from the others. -/
theorem chunks_append {α : Type} {group : List α} (h : group.length = 8) (rest : List α) :
    chunks 8 (group ++ rest) = group :: chunks 8 rest := by
  have hcount : (8 + rest.length + 8 - 1) / 8 = (rest.length + 8 - 1) / 8 + 1 := by omega
  rw [chunks, List.length_append, h, hcount, List.range_succ_eq_map, List.map_cons, List.map_map,
    Nat.mul_zero, List.drop_zero, List.take_left' h, chunks]
  refine congrArg _ (List.map_congr_left fun i _ => ?_)
  rw [Function.comp_apply, Nat.mul_succ, Nat.add_comm, ← List.drop_drop, List.drop_left' h]

/-- Reading one more digit doubles the number and adds the digit, as long as a byte holds it. -/
theorem toNat_shiftLeft_or {byte : UInt8} (h : byte.toNat < 128) (d : UInt8) :
    (byte <<< 1 ||| if d = 49 then 1 else 0).toNat = byte.toNat * 2 + (d == 49).toNat := by
  have hall : ∀ n < 128, (UInt8.ofNat n <<< 1 ||| 1).toNat = n * 2 + 1 ∧
      (UInt8.ofNat n <<< 1 ||| 0).toNat = n * 2 := by
    decide
  obtain ⟨hone, hzero⟩ := hall byte.toNat h
  rw [UInt8.ofNat_toNat] at hone hzero
  by_cases hd : d = 49
  · rw [if_pos hd, hone, hd]
    rfl
  · rw [if_neg hd, hzero, beq_false_of_ne hd]
    rfl

/-- Eight digits are read to the number that they write. -/
theorem octet?_eq {group : Bytes} (h : group.length ≤ 8) :
    octet? group = if group.all isBinaryByte then some (UInt8.ofNat (bitsNumber (group.map (· == 49))))
      else none := by
  have hfold : group.foldl (fun (byte d : UInt8) => byte <<< 1 ||| if d = 49 then 1 else 0) 0 =
      UInt8.ofNat (bitsNumber (group.map (· == 49))) := by
    induction group using List.reverseRecOn with
    | nil => rfl
    | append_singleton group d ih =>
      rw [List.length_append, List.length_singleton] at h
      have hlt := bitsNumber_lt (group.map (· == 49))
      rw [List.length_map] at hlt
      have hsmall : bitsNumber (group.map (· == 49)) < 128 :=
        Nat.lt_of_lt_of_le hlt (Nat.pow_le_pow_right (n := 2) (by decide) (show group.length ≤ 7 by omega))
      have hbyte : (UInt8.ofNat (bitsNumber (group.map (· == 49)))).toNat =
          bitsNumber (group.map (· == 49)) := by
        rw [UInt8.toNat_ofNat', Nat.mod_eq_of_lt (by omega)]
      rw [List.foldl_append, ih (by omega), List.foldl_cons, List.foldl_nil, List.map_append,
        List.map_singleton, bitsNumber_append, bitsNumber_singleton, List.length_singleton, pow_one]
      refine UInt8.toNat_inj.mp ?_
      have hbit := Bool.toNat_lt (d == 49)
      rw [toNat_shiftLeft_or (by omega), hbyte, UInt8.toNat_ofNat', Nat.mod_eq_of_lt (by omega)]
  rw [octet?, hfold]
  rfl

/-- Groups of eight digits are read to the bytes of the number that they write, the most significant
one first. -/
theorem mapM_octet? {n : Nat} {digits : Bytes} (h : digits.length = 8 * n) :
    if digits.all isBinaryByte then ∃ bytes, (chunks 8 digits).mapM octet? = some bytes ∧
      bytes.length = n ∧ Bytes.toNat bytes.reverse = bitsNumber (digits.map (· == 49))
    else (chunks 8 digits).mapM octet? = none := by
  induction n generalizing digits with
  | zero =>
    obtain rfl := List.length_eq_zero_iff.mp h
    exact ⟨[], by rw [chunks_nil]; rfl, rfl, rfl⟩
  | succ n ih =>
    have hgroup : (digits.take 8).length = 8 := by rw [List.length_take]; omega
    have hrest : (digits.drop 8).length = 8 * n := by rw [List.length_drop]; omega
    rw [← List.take_append_drop 8 digits]
    generalize digits.take 8 = group at hgroup
    generalize digits.drop 8 = rest at hrest
    have ih := ih hrest
    rw [chunks_append hgroup, List.mapM_cons, octet?_eq hgroup.le, List.all_append]
    cases group.all isBinaryByte with
    | false => rfl
    | true =>
      cases hall : rest.all isBinaryByte with
      | false =>
        rw [hall] at ih
        simp only [Bool.and_false, Bool.false_eq_true, if_false, if_true] at ih ⊢
        rw [ih]
        rfl
      | true =>
        rw [hall] at ih
        obtain ⟨bytes, hbytes, hlength, hnumber⟩ := ih
        have hlt := bitsNumber_lt (group.map (· == 49))
        rw [List.length_map, hgroup] at hlt
        refine ⟨UInt8.ofNat (bitsNumber (group.map (· == 49))) :: bytes, by rw [hbytes]; rfl,
          by rw [List.length_cons, hlength], ?_⟩
        rw [List.reverse_cons, Bytes.toNat_append, hnumber, List.length_reverse, hlength,
          Bytes.toNat_cons, Bytes.toNat_nil, UInt8.toNat_ofNat', Nat.mod_eq_of_lt hlt, List.map_append,
          bitsNumber_append, List.length_map, hrest, pow_mul]
        ring

/-! ### Binary numbers -/

/-- The digits of a number with underscores. -/
def withoutUnderscores (run : Text) : Text :=
  run.filter (· != '_')

section Mark

variable {b : Char} (hb : b = 'b' ∨ b = 'B') (run : Text)
include hb

/-- What follows the mark is read as bytes exactly if it has a digit and nothing but digits and
underscores. -/
theorem binary?_mark :
    if withoutUnderscores run ≠ [] ∧ (withoutUnderscores run).all isBinaryDigit then
      ∃ bs, binary? ('0' :: b :: run) = some (.bytes bs) ∧
        bs.length = ((withoutUnderscores run).length + 7) / 8 ∧
        bs.toNat = bitsNumber ((withoutUnderscores run).map (· == '1'))
    else binary? ('0' :: b :: run) = none := by
  have hafter : (Text.after? ['0', 'b'] ('0' :: b :: run)).or
      (Text.after? ['0', 'B'] ('0' :: b :: run)) = some run := by
    rcases hb with rfl | rfl <;> rfl
  rw [binary?, hafter, Option.bind_eq_bind, Option.bind_some, ← withoutUnderscores]
  generalize withoutUnderscores run = digits
  have hall := all_flatMap_utf8EncodeChar digits
  have hmap := @map_flatMap_utf8EncodeChar digits
  have hempty : digits = [] → digits.flatMap String.utf8EncodeChar = [] := by
    rintro rfl
    rfl
  generalize digits.flatMap String.utf8EncodeChar = bytes at hall hmap hempty
  -- zeros in front fill up the first group
  have hpadded : (List.replicate ((8 - bytes.length % 8) % 8) 48 ++ bytes).length =
      8 * ((bytes.length + 7) / 8) := by
    rw [List.length_append, List.length_replicate]
    omega
  have hread := mapM_octet? hpadded
  rw [List.all_append, List.all_replicate, hall] at hread
  have hzero : (if (8 - bytes.length % 8) % 8 = 0 then true else isBinaryByte 48) = true := by
    split <;> rfl
  rw [hzero, Bool.true_and] at hread
  split
  · next hdigits =>
    obtain ⟨hne, hdigits⟩ := hdigits
    have hlength : bytes.length = digits.length := by simpa using congrArg List.length (hmap hdigits)
    rw [if_pos hdigits] at hread
    obtain ⟨octets, hoctets, hcount, hnumber⟩ := hread
    refine ⟨octets.reverse, ?_, by rw [List.length_reverse, hcount, hlength], ?_⟩
    · rw [if_neg fun hnil => hne (List.length_eq_zero_iff.mp (by rw [← hlength, hnil]; rfl))]
      dsimp only
      rw [hoctets]
      rfl
    · rw [hnumber, List.map_append, List.map_replicate, hmap hdigits]
      exact bitsNumber_zeros _ _
  · next hdigits =>
    by_cases hnil : bytes = []
    · rw [if_pos hnil]
      rfl
    · rw [if_neg hnil]
      rw [if_neg fun h => hdigits ⟨fun hdigits => hnil (hempty hdigits), h⟩] at hread
      dsimp only
      rw [hread]
      rfl

end Mark

/-- A binary number starts with its mark. -/
theorem exists_mark_of_binary? {text : Text} {v : Value} (h : binary? text = some v) :
    ∃ b run, text = '0' :: b :: run ∧ (b = 'b' ∨ b = 'B') := by
  obtain ⟨run, hrun, -⟩ := Option.bind_eq_some_iff.mp h
  rcases Option.or_eq_some_iff.mp hrun with hmark | ⟨-, hmark⟩
  · exact ⟨'b', run, Text.after?_eq_some_iff.mp hmark, .inl rfl⟩
  · exact ⟨'B', run, Text.after?_eq_some_iff.mp hmark, .inr rfl⟩

theorem all_withoutUnderscores (run : Text) : (withoutUnderscores run).all isBinaryDigit = true ↔
    ∀ c ∈ run, c = '0' ∨ c = '1' ∨ c = '_' := by
  simp only [withoutUnderscores, List.all_filter, List.all_eq_true, isBinaryDigit, Bool.or_eq_true,
    Bool.not_eq_true', bne_eq_false_iff_eq, beq_iff_eq]
  exact forall₂_congr fun c _ => ⟨fun h => h.elim (fun h => .inr (.inr h)) (Or.imp_right .inl),
    fun h => h.elim (fun h => .inr (.inl h)) (Or.elim · (fun h => .inr (.inr h)) .inl)⟩

/-- A text is a binary number exactly if it is a mark and one or more digits with underscores anywhere
among them. It has a byte for every eight digits begun, and its bytes are the number written by the
digits. -/
theorem binary?_eq_some_iff (text : Text) (v : Value) :
    binary? text = some v ↔ ∃ b run bs, text = '0' :: b :: run ∧ (b = 'b' ∨ b = 'B') ∧
      (∀ c ∈ run, c = '0' ∨ c = '1' ∨ c = '_') ∧ withoutUnderscores run ≠ [] ∧ v = .bytes bs ∧
      bs.length = ((withoutUnderscores run).length + 7) / 8 ∧
      bs.toNat = bitsNumber ((withoutUnderscores run).map (· == '1')) := by
  constructor
  · intro h
    obtain ⟨b, run, rfl, hb⟩ := exists_mark_of_binary? h
    have hread := binary?_mark hb run
    split at hread
    · next hdigits =>
      obtain ⟨bs, hbs, hlength, hnumber⟩ := hread
      exact ⟨b, run, bs, rfl, hb, (all_withoutUnderscores run).mp hdigits.2, hdigits.1,
        Option.some.inj (h.symm.trans hbs), hlength, hnumber⟩
    · cases h.symm.trans hread
  · rintro ⟨b, run, bs, rfl, hb, hrun, hne, rfl, hlength, hnumber⟩
    have hread := binary?_mark hb run
    rw [if_pos ⟨hne, (all_withoutUnderscores run).mpr hrun⟩] at hread
    obtain ⟨bs', hbs', hlength', hnumber'⟩ := hread
    rw [hbs', Bytes.eq_of_toNat_eq (hlength.trans hlength'.symm) (hnumber.trans hnumber'.symm)]

/-! ### The digits of an array -/

/-- The digits of an array, the most significant byte and bit first. -/
def bits (bs : Bytes) : Text :=
  bs.reverse.flatMap fun b => (List.range 8).reverse.map fun i => if b.toNat.testBit i then '1' else '0'

theorem bits_cons (b : UInt8) (bs : Bytes) : bits (b :: bs) = bits bs ++ bits [b] := by
  rw [bits, List.reverse_cons, List.flatMap_append]
  rfl

/-- The lowest `k` bits of a number, the least significant one first, are the digits of its remainder. -/
theorem ofDigits_testBits (n k : Nat) :
    Nat.ofDigits 2 ((List.range k).map fun i => (n.testBit i).toNat) = n % 2 ^ k := by
  induction k with
  | zero => rw [Nat.pow_zero, Nat.mod_one]; rfl
  | succ k ih =>
    rw [List.range_succ, List.map_append, Nat.ofDigits_append, ih, List.length_map, List.length_range,
      List.map_singleton, Nat.ofDigits_singleton, Nat.toNat_testBit, Nat.mod_pow_succ]

/-- The digits of a byte write the number that it is. -/
theorem bits_singleton (b : UInt8) : bitsNumber ((bits [b]).map (· == '1')) = b.toNat ∧
    (bits [b]).length = 8 ∧ withoutUnderscores (bits [b]) = bits [b] ∧
      (bits [b]).all isBinaryDigit = true := by
  have hbits : bits [b] =
      (List.range 8).reverse.map fun i => if b.toNat.testBit i then '1' else '0' :=
    List.append_nil _
  have hdigit (i : Nat) : ((if b.toNat.testBit i then '1' else '0') == '1') = b.toNat.testBit i := by
    cases b.toNat.testBit i <;> rfl
  have hall : (bits [b]).all isBinaryDigit = true := by
    rw [hbits, List.all_map]
    refine List.all_eq_true.mpr fun i _ => ?_
    simp only [Function.comp_apply]
    cases b.toNat.testBit i <;> rfl
  refine ⟨?_, ?_, ?_, hall⟩
  · rw [hbits, bitsNumber, List.map_map, ← List.map_reverse, List.reverse_reverse, List.map_map]
    simp only [Function.comp_def, hdigit]
    rw [ofDigits_testBits, Nat.mod_eq_of_lt b.toNat_lt]
  · rw [hbits, List.length_map, List.length_reverse, List.length_range]
  · refine List.filter_eq_self.mpr fun c hc => ?_
    have := List.all_eq_true.mp hall c hc
    rw [isBinaryDigit, Bool.or_eq_true, beq_iff_eq, beq_iff_eq] at this
    obtain rfl | rfl := this <;> rfl

/-- The digits of an array write the number that it stands for. -/
theorem bitsNumber_bits (bs : Bytes) : bitsNumber ((bits bs).map (· == '1')) = bs.toNat ∧
    (bits bs).length = 8 * bs.length ∧ withoutUnderscores (bits bs) = bits bs ∧
      (bits bs).all isBinaryDigit = true := by
  induction bs with
  | nil => exact ⟨rfl, rfl, rfl, rfl⟩
  | cons b bs ih =>
    obtain ⟨hnumber, hlength, hplain, hall⟩ := ih
    obtain ⟨hbyte, height, hplain', hall'⟩ := bits_singleton b
    rw [bits_cons]
    refine ⟨?_, ?_, ?_, ?_⟩
    · rw [List.map_append, bitsNumber_append, hnumber, hbyte, List.length_map, height,
        Bytes.toNat_cons]
      ring
    · rw [List.length_append, hlength, height, List.length_cons]
      ring
    · rw [withoutUnderscores, List.filter_append, ← withoutUnderscores, ← withoutUnderscores, hplain,
        hplain']
    · rw [List.all_append, hall, hall']
      rfl

/-- Binary numbers are exact and reach every array. A text is one exactly if it is a mark and digits
with underscores anywhere among them; its array has a byte for every eight digits begun and stands for
the number that the digits write; where the underscores stand makes no difference; and the bits of an
array that is not empty, the most significant first, are read as the array. -/
theorem binary?_positional :
    (∀ (text : Text) (v : Value), binary? text = some v ↔ ∃ b run bs, text = '0' :: b :: run ∧
      (b = 'b' ∨ b = 'B') ∧ (∀ c ∈ run, c = '0' ∨ c = '1' ∨ c = '_') ∧ withoutUnderscores run ≠ [] ∧
      v = .bytes bs ∧ bs.length = ((withoutUnderscores run).length + 7) / 8 ∧
      bs.toNat = bitsNumber ((withoutUnderscores run).map (· == '1'))) ∧
    (∀ (b : Char) (run run' : Text), withoutUnderscores run = withoutUnderscores run' →
      binary? ('0' :: b :: run) = binary? ('0' :: b :: run')) ∧
    ∀ bs : Bytes, bs ≠ [] → binary? ('0' :: 'b' :: bits bs) = some (.bytes bs) := by
  refine ⟨binary?_eq_some_iff, fun b run run' h => ?_, fun bs hbs => ?_⟩
  · -- a text and another one with the same digits have the same properties
    have hsome {run run' : Text} (h : withoutUnderscores run = withoutUnderscores run') {v : Value}
        (hv : binary? ('0' :: b :: run) = some v) : binary? ('0' :: b :: run') = some v := by
      obtain ⟨b, run, bs, heq, hb, hall, hne, rfl, hlength, hnumber⟩ := (binary?_eq_some_iff _ _).mp hv
      obtain ⟨-, rfl, rfl⟩ := List.cons_eq_cons.mp heq |>.imp_right List.cons_eq_cons.mp
      refine (binary?_eq_some_iff _ _).mpr ⟨b, run', bs, rfl, hb, ?_, h ▸ hne, rfl, h ▸ hlength,
        h ▸ hnumber⟩
      rw [← all_withoutUnderscores, ← h]
      exact (all_withoutUnderscores run).mpr hall
    exact Option.ext fun v => ⟨hsome h, hsome h.symm⟩
  · obtain ⟨hnumber, hlength, hplain, hall⟩ := bitsNumber_bits bs
    have hpos : 0 < bs.length := List.length_pos_iff.mpr hbs
    refine (binary?_eq_some_iff _ _).mpr ⟨'b', bits bs, bs, rfl, .inl rfl, ?_, ?_, rfl, ?_, ?_⟩
    · exact (all_withoutUnderscores _).mp (by rw [hplain]; exact hall)
    · rw [hplain]
      exact List.ne_nil_of_length_pos (by omega)
    · rw [hplain, hlength]
      omega
    · rw [hplain, hnumber]

/-- Two bytes written by their bits, and the same digits with an underscore. -/
theorem binary?_positional_pair : binary? "0b00000001_00000010".toList = some (.bytes [2, 1]) := by
  have hbits := binary?_positional.2.2 [2, 1] (by decide)
  rw [← hbits]
  exact binary?_positional.2.1 'b' _ _ (by decide)

end Literal

end Formula
