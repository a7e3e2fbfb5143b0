/-!
# Arithmetic on 64-bit integers

Integer arithmetic is exact: an operation whose result does not fit in 64 bits has none. Shifts
are by any signed count; bits shifted out at the top are dropped, and shifting down is
arithmetic.

## Main definitions

* `Word.ofInt?`: the 64-bit integer equal to an integer.
* `Word.add?`, `Word.sub?`, `Word.mul?`, `Word.neg?`, `Word.abs?`, `Word.rem?`.
* `Word.negSaturating`: the negative, or the largest integer where it does not fit.
* `Word.shiftLeft`, `Word.shiftRight`.
-/

namespace Formula.Word

/-- The 64-bit integer equal to `i`, if there is one. -/
def ofInt? (i : Int) : Option Int64 :=
  if Int64.minValue.toInt ≤ i ∧ i ≤ Int64.maxValue.toInt then some (Int64.ofInt i) else none

/-- Exact sum. -/
def add? (x y : Int64) : Option Int64 := ofInt? (x.toInt + y.toInt)

/-- Exact difference. -/
def sub? (x y : Int64) : Option Int64 := ofInt? (x.toInt - y.toInt)

/-- Exact product. -/
def mul? (x y : Int64) : Option Int64 := ofInt? (x.toInt * y.toInt)

/-- Exact negative. -/
def neg? (x : Int64) : Option Int64 := ofInt? (-x.toInt)

/-- Exact absolute value. -/
def abs? (x : Int64) : Option Int64 := ofInt? x.toInt.natAbs

/-- Remainder of division truncated towards zero, where that division itself does not overflow;
the divisor is not zero. -/
def rem? (x y : Int64) : Option Int64 :=
  (ofInt? (x.toInt.tdiv y.toInt)).map fun _ => Int64.ofInt (x.toInt.tmod y.toInt)

/-- The sign: minus one, zero or one. -/
def sign (x : Int64) : Int64 := Int64.ofInt x.toInt.sign

/-- Shifts up by `n` bits, dropping what leaves the word. -/
def up (x : Int64) (n : Nat) : Int64 :=
  if 64 ≤ n then 0 else Int64.ofInt (x.toInt * (1 <<< n : Nat))

/-- Shifts down by `n` bits, filling with the sign. -/
def down (x : Int64) (n : Nat) : Int64 :=
  if 64 ≤ n then (if x < 0 then -1 else 0) else Int64.ofInt (x.toInt / (1 <<< n : Nat))

/-- The negative; that of the least integer is the largest one. -/
def negSaturating (x : Int64) : Int64 :=
  (neg? x).getD Int64.maxValue

/-- A count that is handed over is not negative any more. -/
theorem not_negSaturating_neg {count : Int64} (h : count < 0) : ¬negSaturating count < 0 := by
  rw [Int64.lt_iff_toInt_lt, Int64.toInt_zero] at h ⊢
  rw [negSaturating, neg?, ofInt?, Int64.toInt_minValue, Int64.toInt_maxValue]
  split
  · rw [Option.getD_some, Int64.toInt_ofInt_of_le (by omega) (by omega)]
    omega
  · decide

mutual

/-- Shift towards the most significant bit; a negative count shifts the other way. -/
def shiftLeft (x count : Int64) : Int64 :=
  if count < 0 then shiftRight x (negSaturating count) else up x count.toInt.natAbs
termination_by if count < 0 then 1 else 0
decreasing_by simp_all [not_negSaturating_neg]

/-- Shift towards the least significant bit; a negative count shifts the other way. -/
def shiftRight (x count : Int64) : Int64 :=
  if count < 0 then shiftLeft x (negSaturating count) else down x count.toInt.natAbs
termination_by if count < 0 then 1 else 0
decreasing_by simp_all [not_negSaturating_neg]

end

end Formula.Word
