import Formula.Proofs.Numbers.Whole

/-!
# Integers compared with an allowance

An integer range is an allowance in whole numbers, and yet the operands are compared as doubles: both of
them, both limits of the range and both ends of the interval around the right operand are rounded to 53
bits. The outcome is that of integers if none of the six has more bits.

## Main definitions

* `Binary64.IsDouble`: a whole number that a double stands for.
* `Comparison.inBand`: a comparison of an integer with an interval of integers.

## Main results

* `Binary64.isDouble_iff`: the whole numbers that are not changed by rounding.
* `Comparison.applyWithin_rounded`: how integers are compared with an integer range.
* `Comparison.applyWithin_integerRange`: when this is the comparison of the integers.
-/

namespace Formula

namespace Binary64

/-- The whole number has no more than 53 bits before the zeros at its end. -/
def IsDouble (v : Int) : Prop :=
  2 ^ (v.natAbs.log2 - 52) ∣ v.natAbs

instance (v : Int) : Decidable (IsDouble v) :=
  inferInstanceAs (Decidable (_ ∣ _))

/-- Such a number is not changed by rounding, and no other one is kept. -/
theorem isDouble_iff {v : Int} : IsDouble v ↔ rounded v = v := by
  constructor
  · intro h
    rw [rounded, roundedNat_of_dvd h, Int.sign_mul_natAbs]
  · intro h
    have habs : roundedNat v.natAbs = v.natAbs := by
      rcases Int.natAbs_eq v with hpos | hneg
      · rw [hpos, rounded_natCast] at h
        exact_mod_cast h
      · rw [hneg, rounded_neg, rounded_natCast, neg_inj] at h
        exact_mod_cast h
    rw [IsDouble]
    exact ⟨halfEven v.natAbs (2 ^ (v.natAbs.log2 - 52)), by rw [Nat.mul_comm]; exact habs.symm⟩

end Binary64

namespace Comparison

open Binary64

/-- Compares an integer with an interval of integers: equal inside it, less below it, greater above
it, and the other three comparisons are the negations of these. -/
def inBand (op : Comparison) (x low high : Int) : Bool :=
  match op with
  | eq => low ≤ x ∧ x ≤ high
  | ne => ¬(low ≤ x ∧ x ≤ high)
  | lt => x < low
  | le => ¬high < x
  | gt => high < x
  | ge => ¬x < low

/-- An interval with one integer in it compares as that integer. -/
theorem inBand_self (op : Comparison) (x y : Int) : op.inBand x y y = op.holds (compare x y) := by
  rcases lt_trichotomy x y with hlt | rfl | hgt
  · rw [compare_lt_iff_lt.mpr hlt]
    cases op <;> simp only [inBand, holds] <;> simp <;> omega
  · rw [compare_eq_iff_eq.mpr rfl]
    cases op <;> simp [inBand, holds]
  · rw [compare_gt_iff_gt.mpr hgt]
    cases op <;> simp only [inBand, holds] <;> simp <;> omega

theorem withinBand_eq_inBand (op : Comparison) {x low high : Float} {p q r : Int}
    (hx : StandsFor x p) (hlow : StandsFor low q) (hhigh : StandsFor high r) :
    op.withinBand x low high = op.inBand p q r := by
  have hbelow := hlow.le_iff hx
  have habove := hx.le_iff hhigh
  cases op <;>
    simp only [withinBand, inBand, hbelow, habove, hx.lt_iff hlow, hhigh.lt_iff hx, Bool.decide_and,
      Bool.not_and, decide_not, Int.not_lt]

/-- Integers are compared with all numbers rounded. -/
theorem applyWithin_rounded (op : Comparison) (a b lower upper : Int64) :
    op.applyWithin (.integerRange lower upper) (.integer a) (.integer b) =
      .ok (op.inBand (rounded a.toInt) (rounded (rounded b.toInt - rounded lower.toInt))
        (rounded (rounded b.toInt + rounded upper.toInt))) := by
  have hbound (i : Int64) : (rounded i.toInt).natAbs ≤ 2 ^ 64 := by
    have := natAbs_rounded_le i.toInt
    have := i.le_toInt
    have := i.toInt_lt
    omega
  have hb := hbound b
  have hlower := hbound lower
  have hupper := hbound upper
  have hlow := (standsFor_ofInteger b).sub (standsFor_ofInteger lower) (by omega)
  have hhigh := (standsFor_ofInteger b).add (standsFor_ofInteger upper) (by omega)
  exact congrArg Except.ok (op.withinBand_eq_inBand (standsFor_ofInteger a) hlow hhigh)

/-- Integers are compared with all numbers rounded to 53 bits. If no operand, limit or end of the
interval has more bits, the outcome is that of exact arithmetic; and then an allowance of zero makes no
difference. -/
theorem applyWithin_integerRange (op : Comparison) (a b lower upper : Int64) :
    op.applyWithin (.integerRange lower upper) (.integer a) (.integer b) =
        .ok (op.inBand (rounded a.toInt) (rounded (rounded b.toInt - rounded lower.toInt))
          (rounded (rounded b.toInt + rounded upper.toInt))) ∧
      ((∀ v ∈ [a.toInt, b.toInt, lower.toInt, upper.toInt, b.toInt - lower.toInt,
          b.toInt + upper.toInt], IsDouble v) →
        op.applyWithin (.integerRange lower upper) (.integer a) (.integer b) =
          .ok (op.inBand a.toInt (b.toInt - lower.toInt) (b.toInt + upper.toInt))) ∧
      (IsDouble a.toInt → IsDouble b.toInt →
        op.applyWithin (.integerRange 0 0) (.integer a) (.integer b) =
          op.apply (.integer a) (.integer b)) := by
  have hexact {lower upper : Int64} (h : ∀ v ∈ [a.toInt, b.toInt, lower.toInt, upper.toInt,
      b.toInt - lower.toInt, b.toInt + upper.toInt], IsDouble v) :
      op.applyWithin (.integerRange lower upper) (.integer a) (.integer b) =
        .ok (op.inBand a.toInt (b.toInt - lower.toInt) (b.toInt + upper.toInt)) := by
    simp only [List.forall_mem_cons, isDouble_iff] at h
    obtain ⟨ha, hb, hlower, hupper, hlow, hhigh, -⟩ := h
    rw [applyWithin_rounded, ha, hb, hlower, hupper, hlow, hhigh]
  refine ⟨op.applyWithin_rounded a b lower upper, hexact, fun ha hb => ?_⟩
  have hzero : (0 : Int64).toInt = 0 := rfl
  have hdouble : IsDouble 0 := by decide
  rw [hexact (by simp [hzero, ha, hb, hdouble]), hzero, Int.sub_zero, Int.add_zero, inBand_self]
  rfl

/-- An allowance of two around ten. -/
theorem applyWithin_integerRange_ten :
    lt.applyWithin (.integerRange 2 2) (.integer 9) (.integer 10) = .ok false ∧
      eq.applyWithin (.integerRange 0 0) (.integer 9) (.integer 10) = .ok false :=
  ⟨(applyWithin_integerRange lt 9 10 2 2).2.1 (by decide),
    (applyWithin_integerRange eq 9 10 0 0).2.2 (by decide) (by decide)⟩

/-- Two integers that are rounded to the same double are equal without any allowance, too. -/
theorem applyWithin_rounded_apart :
    eq.applyWithin (.integerRange 0 0) (.integer 9007199254740993) (.integer 9007199254740992) =
        .ok true ∧
      eq.apply (.integer 9007199254740993) (.integer 9007199254740992) = .ok false ∧
      eq.inBand (9007199254740993 : Int64).toInt ((9007199254740992 : Int64).toInt - (0 : Int64).toInt)
        ((9007199254740992 : Int64).toInt + (0 : Int64).toInt) = false := by
  decide

end Comparison

end Formula
