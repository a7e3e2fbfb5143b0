import Mathlib.Algebra.Order.Ring.Int
import Mathlib.Tactic.Ring
import Formula.Word

/-!
# Shifts of 64-bit integers

A shift towards the most significant bit multiplies by a power of two and drops what leaves the word;
a shift towards the least significant bit divides by a power of two and rounds down. Each of the two
hands a negative count over to the other one as a positive count, so that a second hand-over never
follows the first. The most negative count has no negative in 64 bits; it is handed over as the
largest count, which moves every bit out of the word all the same.

## Main definitions

* `Word.product`, `Word.quotient`: the numbers that shifts come to.
* `Word.Unwinds`: the calls that a shift leads to, with the number of times that it is handed over.

## Main results

* `Word.toInt_negSaturating`: the count that is handed over.
* `Word.shift_arithmetic`: shifts by every count of 64 bits.
-/

namespace Formula.Word

/-- The product with a power of two, reduced modulo `2 ^ 64` to a signed number. -/
def product (v : Int64) (k : Nat) : Int :=
  (v.toInt * 2 ^ k).bmod (2 ^ 64)

/-- The quotient by a power of two, rounded down. -/
def quotient (v : Int64) (k : Nat) : Int :=
  v.toInt / 2 ^ k

theorem product_of_le (v : Int64) {k : Nat} (h : 64 ≤ k) : product v k = 0 := by
  obtain ⟨n, rfl⟩ := Nat.exists_eq_add_of_le h
  rw [product, show v.toInt * 2 ^ (64 + n) = (2 ^ 64 : Nat) * (v.toInt * 2 ^ n) by
    rw [Nat.cast_pow, Nat.cast_ofNat]; ring]
  exact Int.mul_bmod_right ..

theorem quotient_of_le (v : Int64) {k : Nat} (h : 64 ≤ k) :
    quotient v k = if v.toInt < 0 then -1 else 0 := by
  have hlow := v.le_toInt
  have hhigh := v.toInt_lt
  have hpow : (2 : Int) ^ 64 ≤ 2 ^ k := pow_le_pow_right₀ (by decide) h
  rw [quotient]
  split
  · exact Int.ediv_eq_neg_one_of_neg_of_le (by assumption) (by omega)
  · exact Int.ediv_eq_zero_of_lt (by omega) (by omega)

/-- Bits that are moved up are multiplied. -/
theorem toInt_up (v : Int64) (k : Nat) : (up v k).toInt = product v k := by
  rw [up]
  split
  · next h => rw [product_of_le v h]; rfl
  · rw [Int64.toInt_ofInt, Nat.one_shiftLeft, Nat.cast_pow, Nat.cast_ofNat]
    rfl

/-- Bits that are moved down are divided. -/
theorem toInt_down (v : Int64) (k : Nat) : (down v k).toInt = quotient v k := by
  rw [down]
  split
  · next h =>
    rw [quotient_of_le v h]
    simp only [Int64.lt_iff_toInt_lt, Int64.toInt_zero]
    split <;> rfl
  · have hlow := v.le_toInt
    have hhigh := v.toInt_lt
    have hpow : (0 : Int) < 2 ^ k := pow_pos (by decide) k
    rw [Nat.one_shiftLeft, Nat.cast_pow, Nat.cast_ofNat, quotient]
    refine Int64.toInt_ofInt_of_le ?_ ?_
    · exact Int.le_ediv_of_mul_le hpow (by omega)
    · exact Int.ediv_lt_of_lt_mul hpow (by omega)

/-- The saturating negative is the negative of all integers but the least. -/
theorem toInt_negSaturating (x : Int64) :
    (negSaturating x).toInt = if x = Int64.minValue then 2 ^ 63 - 1 else -x.toInt := by
  have hlow := x.le_toInt
  have hhigh := x.toInt_lt
  rw [negSaturating, neg?, ofInt?, Int64.toInt_minValue, Int64.toInt_maxValue]
  split
  · next h =>
    rw [Option.getD_some, Int64.toInt_ofInt_of_le (by omega) (by omega), if_neg]
    rintro rfl
    rw [Int64.toInt_minValue] at h
    omega
  · next h =>
    rw [if_pos (Int64.toInt_inj.mp (by rw [Int64.toInt_minValue]; omega))]
    rfl

/-! ### The two shifts and their hand-over -/

/-- The side that a shift moves bits to: the most significant or the least significant one. -/
inductive Side where
  | left
  | right

namespace Side

def other : Side → Side
  | left => right
  | right => left

/-- The shift to a side. -/
def shift : Side → Int64 → Int64 → Int64
  | left => shiftLeft
  | right => shiftRight

/-- What the shift to a side does itself. -/
def moved : Side → Int64 → Nat → Int64
  | left => up
  | right => down

/-- The number that bits moved to a side come to. -/
def value : Side → Int64 → Nat → Int
  | left => product
  | right => quotient

theorem toInt_moved (side : Side) (v : Int64) (k : Nat) : (side.moved v k).toInt = side.value v k := by
  cases side with
  | left => exact toInt_up v k
  | right => exact toInt_down v k

/-- All counts beyond the word are the same. -/
theorem value_of_le (side : Side) (v : Int64) {k : Nat} (h : 64 ≤ k) :
    side.value v k = side.value v 64 := by
  cases side with
  | left => rw [value, product_of_le v h, product_of_le v (Nat.le_refl _)]
  | right => rw [value, quotient_of_le v h, quotient_of_le v (Nat.le_refl _)]

/-- A shift hands a negative count over. -/
theorem shift_of_neg (side : Side) (v : Int64) {count : Int64} (h : count < 0) :
    side.shift v count = side.other.shift v (negSaturating count) := by
  cases side with
  | left => exact (shiftLeft.eq_1 v count).trans (if_pos h)
  | right => exact (shiftRight.eq_1 v count).trans (if_pos h)

theorem shift_of_not_neg (side : Side) (v : Int64) {count : Int64} (h : ¬count < 0) :
    side.shift v count = side.moved v count.toInt.natAbs := by
  cases side with
  | left => exact (shiftLeft.eq_1 v count).trans (if_neg h)
  | right => exact (shiftRight.eq_1 v count).trans (if_neg h)

/-- A shift moves bits to its side, or to the other one if the count is negative. -/
theorem toInt_shift (side : Side) (v count : Int64) : (side.shift v count).toInt =
    if 0 ≤ count.toInt then side.value v count.toInt.toNat
    else side.other.value v (-count.toInt).toNat := by
  have hneg : count < 0 ↔ count.toInt < 0 := by rw [Int64.lt_iff_toInt_lt, Int64.toInt_zero]
  split
  · next h =>
    rw [shift_of_not_neg side v (mt hneg.mp (by omega)), toInt_moved,
      show count.toInt.natAbs = count.toInt.toNat by omega]
  · next h =>
    have hcount : count < 0 := hneg.mpr (by omega)
    rw [shift_of_neg side v hcount, shift_of_not_neg _ v (not_negSaturating_neg hcount), toInt_moved,
      toInt_negSaturating]
    split
    · next hleast =>
      rw [hleast, Int64.toInt_minValue, value_of_le _ v (by decide), eq_comm]
      exact value_of_le _ v (by decide)
    · rw [show (-count.toInt).natAbs = (-count.toInt).toNat by omega]

end Side

/-- The calls that a shift of `v` leads to: `Unwinds v side count n r` if the call with `count` gives
`r` after it is handed over `n` times. -/
inductive Unwinds (v : Int64) : Side → Int64 → Nat → Int64 → Prop
  | own {side : Side} {count : Int64} (h : ¬count < 0) :
    Unwinds v side count 0 (side.moved v count.toInt.natAbs)
  | handOver {side : Side} {count r : Int64} {n : Nat} (h : count < 0)
    (hnext : Unwinds v side.other (negSaturating count) n r) : Unwinds v side count (n + 1) r

/-- A call unwinds in one way: it is handed over once or not at all. -/
theorem unwinds_iff {v : Int64} {side : Side} {count r : Int64} {n : Nat} :
    Unwinds v side count n r ↔ n = (if count < 0 then 1 else 0) ∧ r = side.shift v count := by
  constructor
  · rintro (h | ⟨h, hnext⟩)
    · exact ⟨(if_neg h).symm, (side.shift_of_not_neg v h).symm⟩
    · cases hnext with
      | own hown => exact ⟨(if_pos h).symm, by rw [side.shift_of_neg v h, Side.shift_of_not_neg _ v hown]⟩
      | handOver hagain => exact absurd hagain (not_negSaturating_neg h)
  · rintro ⟨rfl, rfl⟩
    split
    · next h =>
      rw [side.shift_of_neg v h, Side.shift_of_not_neg _ v (not_negSaturating_neg h)]
      exact .handOver h (.own (not_negSaturating_neg h))
    · next h =>
      rw [side.shift_of_not_neg v h]
      exact .own h

/-- Shifts of an integer are arithmetic for every count of 64 bits: a count to the left multiplies
modulo `2 ^ 64`, a count to the right divides and rounds down, where a negative count goes the other
way. A call is handed over at most once, and then it ends. -/
theorem shift_arithmetic (v count : Int64) :
    ((shiftLeft v count).toInt = if 0 ≤ count.toInt then product v count.toInt.toNat
      else quotient v (-count.toInt).toNat) ∧
    ((shiftRight v count).toInt = if 0 ≤ count.toInt then quotient v count.toInt.toNat
      else product v (-count.toInt).toNat) ∧
    ∀ side : Side, ∃ n ≤ 1, Unwinds v side count n (side.shift v count) ∧
      ∀ m r, Unwinds v side count m r → m = n ∧ r = side.shift v count := by
  refine ⟨Side.left.toInt_shift v count, Side.right.toInt_shift v count, fun side =>
    ⟨if count < 0 then 1 else 0, ?_, unwinds_iff.mpr ⟨rfl, rfl⟩, fun m r => unwinds_iff.mp⟩⟩
  split <;> decide

end Formula.Word
