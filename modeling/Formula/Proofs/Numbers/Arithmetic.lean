import Mathlib.Algebra.Order.Ring.Int
import Formula.Function
import Formula.Operation

/-!
# Arithmetic on 64-bit integers

Sums, differences, products, negatives and absolute values are computed as integers without a bound.
Such a result is a 64-bit integer if it fits, and a fault if it does not. A remainder is no larger than
the divisor, so it always fits; it is a fault where the quotient does not, which is so for one pair of
operands.

## Main definitions

* `Value.Exactly`: the outcome of an operation whose exact result is an integer.
* `Operation.Remainder`: the outcome of a remainder.

## Main results

* `Word.ofInt?_eq_some_iff`, `Word.ofInt?_eq_none_iff`: which integers fit in 64 bits.
* `Word.ofInt?_tdiv_eq_none_iff`: the quotient that does not fit.
* `Operation.arithmetic_outcomes`: arithmetic on all pairs of 64-bit integers.
-/

namespace Formula

namespace Word

theorem ofInt?_eq_some_iff {v : Int} {i : Int64} : ofInt? v = some i ↔ i.toInt = v := by
  have hmax : Int64.maxValue.toInt = 2 ^ 63 - 1 := rfl
  constructor
  · intro h
    rw [ofInt?] at h
    split at h
    · next hbounds =>
      rw [← Option.some.inj h]
      exact Int64.toInt_ofInt_of_le hbounds.1 (by omega)
    · cases h
  · rintro rfl
    rw [ofInt?, if_pos ⟨Int64.minValue_le_toInt i, Int64.toInt_le i⟩, Int64.ofInt_toInt]

theorem ofInt?_toInt (i : Int64) : ofInt? i.toInt = some i :=
  ofInt?_eq_some_iff.mpr rfl

theorem ofInt?_eq_none_iff {v : Int} : ofInt? v = none ↔ v < -2 ^ 63 ∨ 2 ^ 63 ≤ v := by
  rw [ofInt?, Int64.toInt_minValue, Int64.toInt_maxValue]
  split <;> simp only [reduceCtorEq, true_iff, false_iff] <;> omega

/-- A remainder is no larger than the dividend, and has its sign. So it fits. -/
theorem toInt_ofInt_tmod (x y : Int64) :
    (Int64.ofInt (x.toInt.tmod y.toInt)).toInt = x.toInt.tmod y.toInt := by
  have hlow := x.le_toInt
  have hhigh := x.toInt_lt
  have hle : (x.toInt.tmod y.toInt).natAbs ≤ x.toInt.natAbs := by
    rw [Int.natAbs_tmod]
    exact Nat.mod_le ..
  have hlimit : x.toInt.tmod y.toInt < 2 ^ 63 := by
    rcases Int.lt_or_le x.toInt 0 with hneg | hpos
    · have hsign := Int.tmod_nonneg y.toInt (a := -x.toInt) (by omega)
      rw [Int.neg_tmod] at hsign
      omega
    · omega
  exact Int64.toInt_ofInt_of_le (by omega) hlimit

/-- Only the least integer divided by minus one is too large. -/
theorem ofInt?_tdiv_eq_none_iff {x y : Int64} :
    ofInt? (x.toInt.tdiv y.toInt) = none ↔ x = Int64.minValue ∧ y = -1 := by
  have hlow := x.le_toInt
  have hhigh := x.toInt_lt
  have habs := Int.natAbs_tdiv x.toInt y.toInt
  rw [ofInt?_eq_none_iff, ← Int64.toInt_inj, ← Int64.toInt_inj, Int64.toInt_minValue,
    show (-1 : Int64).toInt = -1 from rfl]
  constructor
  · intro hlarge
    by_cases hunit : y.toInt = 1 ∨ y.toInt = -1
    · rcases hunit with hone | hminus
      · rw [hone, Int.tdiv_one] at hlarge
        omega
      · rw [hminus, Int.tdiv_neg, Int.tdiv_one] at hlarge
        omega
    · -- A divisor other than the two units at least halves the dividend, or is zero.
      have hhalf : x.toInt.natAbs / y.toInt.natAbs ≤ x.toInt.natAbs / 2 := by
        rcases Nat.eq_zero_or_pos y.toInt.natAbs with hzero | hpos
        · rw [hzero, Nat.div_zero]
          exact Nat.zero_le _
        · exact Nat.div_le_div_left (by omega) (by decide)
      change _ = x.toInt.natAbs / y.toInt.natAbs at habs
      omega
  · rintro ⟨hx, hy⟩
    rw [hx, hy]
    decide

end Word

/-- The outcome of an operation whose exact result is `i`. -/
inductive Value.Exactly {ε : Type} (i : Int) (fault : ε) : Except ε Value → Prop
  | fits {r : Int64} (h : r.toInt = i) : Exactly i fault (.ok (.integer r))
  | overflows (h : i < -2 ^ 63 ∨ 2 ^ 63 ≤ i) : Exactly i fault (.error fault)

/-- What becomes of an integer that is computed without a bound. -/
theorem Value.exactly_ofInt? {ε : Type} (i : Int) (fault : ε) :
    Exactly i fault (match Word.ofInt? i with
      | some r => .ok (.integer r)
      | none => .error fault) := by
  cases h : Word.ofInt? i with
  | some r => exact .fits (Word.ofInt?_eq_some_iff.mp h)
  | none => exact .overflows (Word.ofInt?_eq_none_iff.mp h)

namespace Operation

/-- The outcome of a remainder, that of division truncated towards zero. -/
inductive Remainder (x y : Int64) : Except OperationFault Value → Prop
  | byZero (h : y = 0) : Remainder x y (.error .divisionByZero)
  | quotientOverflows (hx : x = Int64.minValue) (hy : y = -1) :
      Remainder x y (.error (.overflow .modulo x y))
  | exact {r : Int64} (hzero : y ≠ 0) (hquotient : ¬(x = Int64.minValue ∧ y = -1))
      (h : r.toInt = x.toInt.tmod y.toInt) : Remainder x y (.ok (.integer r))

theorem remainder_apply (format : Value → String) (x y : Int64) :
    Remainder x y (apply format .modulo (.integer x) (.integer y)) := by
  simp only [apply]
  split
  · next hzero => exact .byZero hzero
  · next hzero =>
    rw [Word.rem?]
    cases hquotient : Word.ofInt? (x.toInt.tdiv y.toInt) with
    | none =>
      obtain ⟨hx, hy⟩ := Word.ofInt?_tdiv_eq_none_iff.mp hquotient
      exact .quotientOverflows hx hy
    | some q =>
      have hfits : ¬(x = Int64.minValue ∧ y = -1) := by
        rw [← Word.ofInt?_tdiv_eq_none_iff, hquotient]
        exact Option.some_ne_none q
      exact .exact hzero hfits (Word.toInt_ofInt_tmod x y)

/-- Integer arithmetic is exact or faults: the result of a sum, a difference, a product, a negative or
an absolute value is the exact one if it fits in 64 bits, and else an overflow. A remainder fails where
the divisor is zero, and where the quotient does not fit. -/
theorem arithmetic_outcomes (format : Value → String) (draw : UInt64) (x y : Int64) :
    Value.Exactly (x.toInt + y.toInt) (.overflow .add x y)
        (apply format .add (.integer x) (.integer y)) ∧
      Value.Exactly (x.toInt - y.toInt) (.overflow .subtract x y)
        (apply format .subtract (.integer x) (.integer y)) ∧
      Value.Exactly (x.toInt * y.toInt) (.overflow .multiply x y)
        (apply format .multiply (.integer x) (.integer y)) ∧
      Value.Exactly (-x.toInt) (.negationOverflow x) (UnaryOp.negate.apply (.integer x)) ∧
      Value.Exactly x.toInt.natAbs .overflow (Function.abs.eval draw [.integer x]) ∧
      Remainder x y (apply format .modulo (.integer x) (.integer y)) :=
  ⟨Value.exactly_ofInt? (x.toInt + y.toInt) _, Value.exactly_ofInt? (x.toInt - y.toInt) _,
    Value.exactly_ofInt? (x.toInt * y.toInt) _, Value.exactly_ofInt? (-x.toInt) _,
    Value.exactly_ofInt? (x.toInt.natAbs : Int) _, remainder_apply format x y⟩

/-- The least integer modulo minus one is an overflow, although the remainder is zero. -/
theorem modulo_least :
    Int64.minValue.toInt.tmod (-1 : Int64).toInt = (0 : Int64).toInt ∧
      apply Value.display .modulo (.integer Int64.minValue) (.integer (-1)) =
        .error (.overflow .modulo Int64.minValue (-1)) := by
  decide

end Operation

end Formula
