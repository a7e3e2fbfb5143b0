import Mathlib.Algebra.Order.Field.Power
import Formula.Proofs.Lowering.Signs
import Formula.Proofs.Numbers.Rounding

/-!
# Doubles that stand for whole numbers

A 64-bit integer that is made a double keeps its leading 53 bits, and so do the sum and the difference
of two doubles that stand for whole numbers. Of such doubles the order is that of the numbers.

## Main definitions

* `Binary64.rounded`: a whole number rounded to 53 bits.
* `Binary64.Holds`: an unpacked double stands for a number.
* `Binary64.StandsFor`: a double stands for a whole number.

## Main results

* `Binary64.Holds.compare_eq`: doubles are ordered as the numbers that they stand for.
* `Binary64.holds_normalize`: a whole number is rounded however it is written as a mantissa and an
  exponent.
* `Binary64.standsFor_ofInteger`, `Binary64.StandsFor.add`, `Binary64.StandsFor.sub`: integers, sums and
  differences as doubles.
-/

namespace Formula.Binary64

open Float.Model Float.Model.UnpackedFloat

/-! ### Rounding to 53 bits -/

/-- A natural number with all but its leading 53 bits rounded. -/
def roundedNat (n : Nat) : Nat :=
  halfEven n (2 ^ (n.log2 - 52)) * 2 ^ (n.log2 - 52)

/-- A whole number with all but its leading 53 bits rounded. -/
def rounded (v : Int) : Int :=
  v.sign * roundedNat v.natAbs

@[simp]
theorem rounded_zero : rounded 0 = 0 := rfl

theorem rounded_natCast (n : Nat) : rounded n = roundedNat n := by
  rcases Nat.eq_zero_or_pos n with rfl | hpos
  · rfl
  · rw [rounded, Int.sign_eq_one_of_pos (by omega), one_mul, Int.natAbs_natCast]

@[simp]
theorem rounded_neg (v : Int) : rounded (-v) = -rounded v := by
  rw [rounded, rounded, Int.sign_neg, Int.natAbs_neg, neg_mul]

theorem halfEven_mul (q : Nat) {d : Nat} (hd : 0 < d) : halfEven (q * d) d = q := by
  rw [halfEven, Nat.mul_mod_left, if_pos (by omega), Nat.mul_div_left q hd]

/-- A number with no more than 53 bits before its zeros is kept. -/
theorem roundedNat_of_dvd {n : Nat} (h : 2 ^ (n.log2 - 52) ∣ n) : roundedNat n = n := by
  obtain ⟨q, hq⟩ := h
  have hpos := Nat.two_pow_pos (n.log2 - 52)
  rw [roundedNat]
  generalize n.log2 - 52 = k at hq hpos ⊢
  rw [hq, Nat.mul_comm (2 ^ k) q, halfEven_mul q hpos]

theorem roundedNat_le (n : Nat) : roundedNat n ≤ 2 * n := by
  rcases Nat.eq_zero_or_pos n with rfl | hpos
  · decide
  · have hle : 2 ^ (n.log2 - 52) ≤ n :=
      Nat.le_trans (Nat.pow_le_pow_right (by decide) (Nat.sub_le ..))
        (Nat.log2_self_le (Nat.ne_of_gt hpos))
    have hquotient := Nat.div_mul_le_self n (2 ^ (n.log2 - 52))
    have hhalf : halfEven n (2 ^ (n.log2 - 52)) ≤ n / 2 ^ (n.log2 - 52) + 1 := by
      rw [halfEven]
      split
      · omega
      · split <;> omega
    have hmul := Nat.mul_le_mul_right (2 ^ (n.log2 - 52)) hhalf
    rw [Nat.succ_mul] at hmul
    rw [roundedNat]
    omega

theorem natAbs_rounded_le (v : Int) : (rounded v).natAbs ≤ 2 * v.natAbs := by
  rw [rounded, Int.natAbs_mul, Int.natAbs_natCast]
  calc v.sign.natAbs * roundedNat v.natAbs ≤ 1 * roundedNat v.natAbs :=
        Nat.mul_le_mul_right _ (by rw [Int.natAbs_sign]; split <;> decide)
    _ ≤ 2 * v.natAbs := by rw [one_mul]; exact roundedNat_le v.natAbs

/-- The number that the leading 53 bits stand for, with zeros after them if there are not as many. -/
theorem halfEven_widened (n : Nat) :
    (halfEven (n * 2 ^ 52) (2 ^ n.log2) : ℚ) * 2 ^ ((n.log2 : ℤ) - 52) = roundedNat n := by
  rw [roundedNat]
  rcases Nat.lt_or_ge n.log2 52 with hless | hmore
  · have hsplit : n * 2 ^ 52 = n * 2 ^ (52 - n.log2) * 2 ^ n.log2 := by
      rw [Nat.mul_assoc, ← Nat.pow_add, Nat.sub_add_cancel (Nat.le_of_lt hless)]
    have hone : halfEven n 1 = n := by simpa using halfEven_mul n (d := 1) Nat.one_pos
    rw [hsplit, halfEven_mul _ (Nat.two_pow_pos _), Nat.sub_eq_zero_of_le (Nat.le_of_lt hless), pow_zero,
      hone, Nat.mul_one, Nat.cast_mul, Nat.cast_pow, Nat.cast_ofNat, mul_assoc, ← zpow_natCast,
      ← zpow_add₀ two_ne_zero, show ((52 - n.log2 : Nat) : ℤ) + (n.log2 - 52) = 0 by omega, zpow_zero,
      mul_one]
  · have hsplit : 2 ^ n.log2 = 2 ^ (n.log2 - 52) * 2 ^ 52 := by
      rw [← Nat.pow_add, Nat.sub_add_cancel hmore]
    have hexponent : (n.log2 : ℤ) - 52 = (n.log2 - 52 : Nat) := by omega
    rw [hsplit, halfEven_mul_right _ _ (Nat.two_pow_pos 52), hexponent, zpow_natCast]
    push_cast
    rfl

theorem carried_value (m : Nat) (e : Int) :
    ((carried m e).1 : ℚ) * 2 ^ (carried m e).2 = m * 2 ^ e := by
  rw [carried]
  split
  · next hcarry =>
    rw [hcarry, zpow_add_one₀ two_ne_zero]
    push_cast
    ring
  · rfl

/-- However a whole number is written as a mantissa and an exponent, it is rounded to 53 bits. -/
theorem exists_round (s : Sign) {n m a b : Nat} (hn : n ≠ 0) (hlog : n.log2 ≤ 1022)
    (h : m * 2 ^ a = n * 2 ^ b) :
    ∃ m' e', ∃ hnormal : IsNormal m' e',
      UnpackedFloat.round Format.binary64 s m ((a : Int) - b) = .finite s m' e' hnormal.pos ∧
        (m' : ℚ) * 2 ^ e' = roundedNat n := by
  have hm : m ≠ 0 := by
    rintro rfl
    have := Nat.mul_ne_zero hn (Nat.ne_of_gt (Nat.two_pow_pos b))
    omega
  have hlogs : m.log2 + a = n.log2 + b := by
    rw [← log2_mul_two_pow hm, h, log2_mul_two_pow hn]
  have hshift : ((a : Int) - b - Format.binary64.targetExponent (totalExponent m (a - b))).toNat =
      52 - m.log2 := by
    rw [targetExponent_eq]
    omega
  -- The mantissa is widened to 53 bits if it has less; the bits that it has more are rounded.
  have hwide : (m * 2 ^ (52 - m.log2)).log2 = m.log2 + (52 - m.log2) - 52 + 52 := by
    rw [log2_mul_two_pow hm]
    omega
  obtain ⟨hpos, heq⟩ := roundWithAccuracy_eq s hwide
    (show -1074 ≤ (a : Int) - b - (52 - m.log2 : Nat) + (m.log2 + (52 - m.log2) - 52 : Nat) by omega)
  have hexponent : (a : Int) - b - (52 - m.log2 : Nat) + (m.log2 + (52 - m.log2) - 52 : Nat) =
      (n.log2 : Int) - 52 := by
    omega
  have hhalf : halfEven (m * 2 ^ (52 - m.log2)) (2 ^ (m.log2 + (52 - m.log2) - 52)) =
      halfEven (n * 2 ^ 52) (2 ^ n.log2) := by
    have hmantissa : m * 2 ^ (52 - m.log2) * 2 ^ (a + 52) = n * 2 ^ 52 * 2 ^ (b + (52 - m.log2)) := by
      calc m * 2 ^ (52 - m.log2) * 2 ^ (a + 52) = m * 2 ^ a * 2 ^ (52 + (52 - m.log2)) := by
            rw [Nat.pow_add, Nat.pow_add]
            ring
        _ = n * 2 ^ 52 * 2 ^ (b + (52 - m.log2)) := by
            rw [h, Nat.pow_add, Nat.pow_add]
            ring
    rw [← halfEven_mul_right _ _ (Nat.two_pow_pos (a + 52)),
      ← halfEven_mul_right (n * 2 ^ 52) _ (Nat.two_pow_pos (b + (52 - m.log2))), hmantissa, ← Nat.pow_add,
      ← Nat.pow_add,
      show m.log2 + (52 - m.log2) - 52 + (a + 52) = n.log2 + (b + (52 - m.log2)) by omega]
  obtain ⟨hlower, hupper⟩ := halfEven_bounds hwide
  have hparts : carried (halfEven (m * 2 ^ (52 - m.log2)) (2 ^ (m.log2 + (52 - m.log2) - 52)))
      ((a : Int) - b - (52 - m.log2 : Nat) + (m.log2 + (52 - m.log2) - 52 : Nat)) =
        carried (halfEven (n * 2 ^ 52) (2 ^ n.log2)) ((n.log2 : Int) - 52) := by
    rw [hexponent, hhalf]
  rw [hhalf] at hlower hupper
  obtain ⟨hleast, hmost⟩ := carried_bounds hlower hupper ((n.log2 : Int) - 52)
  have hbounds : -1074 ≤ (carried (halfEven (n * 2 ^ 52) (2 ^ n.log2)) ((n.log2 : Int) - 52)).2 ∧
      (carried (halfEven (n * 2 ^ 52) (2 ^ n.log2)) ((n.log2 : Int) - 52)).2 ≤ 971 := by
    rw [carried]
    split <;> dsimp only <;> omega
  refine ⟨_, _, ⟨hleast, hmost, hbounds⟩, ?_, ?_⟩
  · rw [UnpackedFloat.round, decreaseExponent]
    dsimp only
    rw [hshift, Nat.shiftLeft_eq, heq]
    exact finite_eq rfl (congrArg Prod.fst hparts) (congrArg Prod.snd hparts)
  · rw [carried_value, halfEven_widened]

/-! ### Unpacked doubles -/

/-- An unpacked double stands for a number: it is a zero, or has a significand of 53 bits. -/
inductive Holds : UnpackedFloat → ℚ → Prop
  | zero (s : Sign) : Holds (.zero s) 0
  | finite {m : Nat} {e : Int} (h : IsNormal m e) (s : Sign) :
      Holds (.finite s m e h.pos) ((s.apply m : Int) * 2 ^ e)

/-- Numbers are compared as what they are mapped to. -/
theorem compare_map {α β : Type} [LinearOrder α] [LinearOrder β] {f : α → β} (hf : StrictMono f)
    (a b : α) : compare (f a) (f b) = compare a b := by
  rw [← cmp_eq_compare, ← cmp_eq_compare, hf.cmp_map_eq]

namespace IsNormal

variable {m m' : Nat} {e e' : Int} (h : IsNormal m e) (h' : IsNormal m' e')
include h

theorem value_pos : (0 : ℚ) < m * 2 ^ e :=
  mul_pos (Nat.cast_pos.mpr h.pos) (zpow_pos two_pos e)

include h'

/-- Of two doubles the one with the lesser exponent is the lesser one. -/
theorem value_lt_value (he : e < e') : (m : ℚ) * 2 ^ e < m' * 2 ^ e' := by
  have hm : (m : ℚ) < 2 ^ 53 := by exact_mod_cast h.upper
  have hm' : (2 : ℚ) ^ 52 ≤ m' := by exact_mod_cast h'.lower
  calc (m : ℚ) * 2 ^ e < 2 ^ 53 * 2 ^ e := by gcongr
    _ = 2 ^ 52 * 2 ^ (e + 1) := by
        rw [zpow_add_one₀ two_ne_zero]
        ring
    _ ≤ 2 ^ 52 * 2 ^ e' := by
        gcongr
        · exact one_le_two
        · omega
    _ ≤ m' * 2 ^ e' := by gcongr

/-- Exponents come first, then the significands. -/
theorem compare_value :
    compare ((m : ℚ) * 2 ^ e) (m' * 2 ^ e') = (compare e e').then (compare m m') := by
  rcases lt_trichotomy e e' with hlt | rfl | hgt
  · rw [compare_lt_iff_lt.mpr hlt, compare_lt_iff_lt.mpr (h.value_lt_value h' hlt)]
    rfl
  · have hscale : StrictMono fun n : Nat => (n : ℚ) * 2 ^ e := fun _ _ hlt =>
      mul_lt_mul_of_pos_right (Nat.cast_lt.mpr hlt) (zpow_pos two_pos e)
    rw [compare_eq_iff_eq.mpr (rfl : e = e)]
    exact compare_map hscale m m'
  · rw [compare_gt_iff_gt.mpr hgt, compare_gt_iff_gt.mpr (h'.value_lt_value h hgt)]
    rfl

end IsNormal

theorem compare_neg_neg (p q : ℚ) : compare (-p) (-q) = (compare p q).swap := by
  rw [← cmp_eq_compare, ← cmp_eq_compare, cmp_swap]
  exact StrictAnti.cmp_map_eq (fun _ _ hlt => neg_lt_neg hlt) p q

theorem apply_positive (m : Nat) (e : Int) :
    ((Sign.positive.apply m : Int) : ℚ) * 2 ^ e = m * 2 ^ e := by
  rw [Sign.apply, Int.cast_natCast]

theorem apply_negative (m : Nat) (e : Int) :
    ((Sign.negative.apply m : Int) : ℚ) * 2 ^ e = -(m * 2 ^ e) := by
  rw [Sign.apply, Int.cast_neg, Int.cast_natCast, neg_mul]

theorem apply_neg (s : Sign) (m : Nat) : (-s).apply m = -s.apply m := by
  cases s with
  | positive => rfl
  | negative => exact (Int.neg_neg (m : Int)).symm

namespace Holds

variable {u w : UnpackedFloat} {a b : ℚ}

/-- Unpacked doubles are ordered as the numbers that they stand for. -/
theorem compare_eq (hu : Holds u a) (hw : Holds w b) : u.compare w = some (compare a b) := by
  cases hu with
  | zero s =>
    cases hw with
    | zero s' => exact congrArg some (compare_eq_iff_eq.mpr rfl).symm
    | finite h' s' =>
      have hpos := h'.value_pos
      cases s' with
      | positive =>
        rw [apply_positive]
        exact congrArg some (compare_lt_iff_lt.mpr hpos).symm
      | negative =>
        rw [apply_negative]
        exact congrArg some (compare_gt_iff_gt.mpr (neg_lt_zero.mpr hpos)).symm
  | finite h s =>
    have hpos := h.value_pos
    cases hw with
    | zero s' =>
      cases s with
      | positive =>
        rw [apply_positive]
        exact congrArg some (compare_gt_iff_gt.mpr hpos).symm
      | negative =>
        rw [apply_negative]
        exact congrArg some (compare_lt_iff_lt.mpr (neg_lt_zero.mpr hpos)).symm
    | finite h' s' =>
      have hpos' := h'.value_pos
      cases s with
      | positive =>
        cases s' with
        | positive =>
          rw [apply_positive, apply_positive, h.compare_value h']
          rfl
        | negative =>
          rw [apply_positive, apply_negative]
          exact congrArg some (compare_gt_iff_gt.mpr ((neg_lt_zero.mpr hpos').trans hpos)).symm
      | negative =>
        cases s' with
        | positive =>
          rw [apply_negative, apply_positive]
          exact congrArg some (compare_lt_iff_lt.mpr ((neg_lt_zero.mpr hpos).trans hpos')).symm
        | negative =>
          rw [apply_negative, apply_negative, compare_neg_neg, h.compare_value h']
          rfl

theorem unique (ha : Holds u a) (hb : Holds u b) : a = b := by
  cases ha <;> cases hb <;> rfl

theorem neg (h : Holds u a) : Holds u.neg (-a) := by
  cases h with
  | zero s =>
    rw [neg_zero]
    exact .zero (-s)
  | @finite m e h s =>
    rw [← neg_mul, ← Int.cast_neg, ← apply_neg]
    exact .finite h (-s)

/-- What stands for a number is unpacked as it was packed. -/
theorem unpack_packed (h : Holds u a) : (packed u).toModel.unpack = u := by
  cases h with
  | zero s => cases s <;> rfl
  | finite h s => exact h.unpack_eq s

end Holds

/-! ### Sums -/

theorem IsNormal.round_eq {m : Nat} {e : Int} (h : IsNormal m e) (s : Sign) :
    UnpackedFloat.round Format.binary64 s m e = .finite s m e h.pos := by
  have hexponent := h.exponent
  have hshift : (e - Format.binary64.targetExponent (totalExponent m e)).toNat = 0 := by
    rw [targetExponent_eq, h.log2_eq]
    omega
  rw [UnpackedFloat.round, decreaseExponent]
  dsimp only
  rw [hshift, Nat.shiftLeft_zero, Int.ofNat_zero, Int.sub_zero, h.roundWithAccuracy_eq]

/-- A mantissa and an exponent that make a whole number, without a negative exponent. -/
theorem mul_two_pow_eq {m n : Nat} {e : Int} (h : (m : ℚ) * 2 ^ e = n) :
    m * 2 ^ e.toNat = n * 2 ^ (-e).toNat := by
  have hsplit : e + ((-e).toNat : Int) = e.toNat := by omega
  have hscaled : (m : ℚ) * 2 ^ e.toNat = n * 2 ^ (-e).toNat := by
    rw [← h, mul_assoc, ← zpow_natCast, ← zpow_natCast, ← zpow_add₀ two_ne_zero, hsplit]
  exact_mod_cast hscaled

theorem holds_round (s : Sign) {m n : Nat} {e : Int} (h : (m : ℚ) * 2 ^ e = n) (hn : n ≠ 0)
    (hlog : n.log2 ≤ 1022) :
    Holds (UnpackedFloat.round Format.binary64 s m e) (s.apply (roundedNat n) : Int) := by
  obtain ⟨m', e', hnormal, hround, hvalue⟩ := exists_round s hn hlog (mul_two_pow_eq h)
  rw [show ((e.toNat : Int) - (-e).toNat) = e by omega] at hround
  have hsigned : ((s.apply (roundedNat n) : Int) : ℚ) = (s.apply m' : Int) * 2 ^ e' := by
    cases s with
    | positive => rw [apply_positive, hvalue, Sign.apply, Int.cast_natCast]
    | negative => rw [apply_negative, hvalue, Sign.apply, Int.cast_neg, Int.cast_natCast]
  rw [hround, hsigned]
  exact .finite hnormal s

/-- However a whole number is written as a mantissa and an exponent, it is rounded to 53 bits. -/
theorem holds_normalize {m v : Int} {e : Int} (zero : Sign) (h : (m : ℚ) * 2 ^ e = v)
    (hlog : v.natAbs.log2 ≤ 1022) :
    Holds (UnpackedFloat.normalize Format.binary64 m e zero) (rounded v) := by
  have hscale : (0 : ℚ) < 2 ^ e := zpow_pos two_pos e
  rcases lt_trichotomy m 0 with hneg | rfl | hpos
  · have hvneg : v < 0 := by
      exact_mod_cast h ▸ mul_neg_of_neg_of_pos (Int.cast_lt_zero.mpr hneg) hscale
    obtain ⟨n, rfl⟩ : ∃ n : Nat, m = -n := ⟨m.natAbs, by omega⟩
    obtain ⟨k, rfl⟩ : ∃ k : Nat, v = -k := ⟨v.natAbs, by omega⟩
    have hvalue : (n : ℚ) * 2 ^ e = k := by
      push_cast at h
      linarith
    rw [Int.natAbs_neg, Int.natAbs_natCast] at hlog
    rw [UnpackedFloat.normalize, compare_lt_iff_lt.mpr hneg, rounded_neg, rounded_natCast, Int.neg_neg,
      Int.toNat_natCast]
    exact holds_round .negative hvalue (by omega) hlog
  · obtain rfl : v = 0 := by
      rw [Int.cast_zero, zero_mul] at h
      exact_mod_cast h.symm
    rw [UnpackedFloat.normalize, compare_eq_iff_eq.mpr rfl, rounded_zero, Int.cast_zero]
    exact .zero zero
  · have hvpos : 0 < v := by
      exact_mod_cast h ▸ mul_pos (Int.cast_pos.mpr hpos) hscale
    obtain ⟨n, rfl⟩ : ∃ n : Nat, m = n := ⟨m.natAbs, by omega⟩
    obtain ⟨k, rfl⟩ : ∃ k : Nat, v = k := ⟨v.natAbs, by omega⟩
    rw [Int.natAbs_natCast] at hlog
    rw [UnpackedFloat.normalize, compare_gt_iff_gt.mpr hpos, rounded_natCast, Int.toNat_natCast]
    exact holds_round .positive (by exact_mod_cast h) (by omega) hlog

/-- A number that a double stands for is not rounded any more. -/
theorem Holds.rounded_eq {u : UnpackedFloat} {v : Int} (h : Holds u v) (hlog : v.natAbs.log2 ≤ 1022) :
    rounded v = v := by
  generalize hvalue : (v : ℚ) = a at h
  cases h with
  | zero s =>
    obtain rfl : v = 0 := by exact_mod_cast hvalue
    rfl
  | @finite m e h s =>
    have hnormalize : UnpackedFloat.normalize Format.binary64 (s.apply m) e .positive =
        .finite s m e h.pos := by
      have hpos := h.pos
      cases s with
      | positive =>
        rw [Sign.apply, UnpackedFloat.normalize, compare_gt_iff_gt.mpr (by omega)]
        exact h.round_eq .positive
      | negative =>
        rw [Sign.apply, UnpackedFloat.normalize, compare_lt_iff_lt.mpr (by omega), Int.neg_neg]
        exact h.round_eq .negative
    have hrounded := holds_normalize .positive hvalue.symm hlog
    rw [hnormalize] at hrounded
    have hunique := hrounded.unique (.finite h s)
    rw [← hvalue] at hunique
    exact_mod_cast hunique

theorem aligned_value (s : Sign) (m : Nat) {e target : Int} (h : target ≤ e) :
    ((s.apply (m <<< (e - target).toNat : Nat) : Int) : ℚ) * 2 ^ target = (s.apply m : Int) * 2 ^ e := by
  have hpow : (2 : ℚ) ^ (e - target).toNat * 2 ^ target = 2 ^ e := by
    rw [← zpow_natCast, ← zpow_add₀ two_ne_zero, show ((e - target).toNat : Int) + target = e by omega]
  have hshift : ((m <<< (e - target).toNat : Nat) : ℚ) * 2 ^ target = m * 2 ^ e := by
    rw [Nat.shiftLeft_eq, Nat.cast_mul, Nat.cast_pow, Nat.cast_ofNat, mul_assoc, hpow]
  cases s with
  | positive => rw [apply_positive, apply_positive, hshift]
  | negative => rw [apply_negative, apply_negative, hshift]

/-- The sum of two doubles that stand for whole numbers is rounded to 53 bits. -/
theorem Holds.add {u w : UnpackedFloat} {p q : Int} (hu : Holds u p) (hw : Holds w q)
    (hlog : (p + q).natAbs.log2 ≤ 1022) :
    Holds (UnpackedFloat.add Format.binary64 u w) (rounded (p + q)) := by
  have hleft := hu
  have hright := hw
  generalize hp : (p : ℚ) = a at hu
  generalize hq : (q : ℚ) = b at hw
  cases hu with
  | zero s =>
    obtain rfl : p = 0 := by exact_mod_cast hp
    rw [Int.zero_add] at hlog ⊢
    rw [hright.rounded_eq hlog, hq]
    cases hw with
    | zero s' => cases s <;> cases s' <;> exact .zero _
    | finite h' s' => exact .finite h' s'
  | @finite m e h s =>
    cases hw with
    | zero s' =>
      obtain rfl : q = 0 := by exact_mod_cast hq
      rw [Int.add_zero] at hlog ⊢
      rw [hleft.rounded_eq hlog, hp]
      exact .finite h s
    | @finite m' e' h' s' =>
      refine holds_normalize .positive ?_ hlog
      rw [Int.cast_add, add_mul, aligned_value s m (Int.min_le_left e e'),
        aligned_value s' m' (Int.min_le_right e e'), Int.cast_add, hp, hq]

/-- A difference is the sum with the negative. -/
theorem sub_eq_add_neg (u w : UnpackedFloat) :
    UnpackedFloat.sub Format.binary64 u w = UnpackedFloat.add Format.binary64 u w.neg := by
  cases u with
  | finite s m e _ =>
    cases w with
    | finite s' m' e' _ =>
      change _ = UnpackedFloat.normalize _ (_ + (-s').apply _) _ _
      rw [apply_neg, ← Int.sub_eq_add_neg]
      rfl
    | _ => rfl
  | _ => cases w <;> rfl

/-! ### Doubles -/

/-- A double stands for a whole number. -/
def StandsFor (x : Float) (v : Int) : Prop :=
  Holds x.toModel.unpack v

theorem standsFor_packed {u : UnpackedFloat} {v : Int} (h : Holds u v) : StandsFor (packed u) v := by
  rw [StandsFor, h.unpack_packed]
  exact h

/-- The doubles that whole numbers of at most 66 bits are rounded to are finite. -/
theorem log2_le_of_lt {n : Nat} (h : n < 2 ^ 66) : n.log2 ≤ 1022 := by
  rcases Nat.eq_zero_or_pos n with rfl | hpos
  · decide
  · have := (Nat.log2_lt (Nat.ne_of_gt hpos)).mpr h
    omega

/-- An integer is rounded to 53 bits. -/
theorem standsFor_ofInteger (i : Int64) : StandsFor (ofInteger i) (rounded i.toInt) := by
  have hlow := i.le_toInt
  have hhigh := i.toInt_lt
  have hvalue : (i.toInt : ℚ) * 2 ^ (0 : Int) = i.toInt := by rw [zpow_zero, mul_one]
  exact standsFor_packed (holds_normalize .positive hvalue (log2_le_of_lt (by omega)))

namespace StandsFor

variable {x y : Float} {p q : Int} (hx : StandsFor x p) (hy : StandsFor y q)
include hx hy

/-- The sum is rounded to 53 bits. -/
theorem add (h : (p + q).natAbs < 2 ^ 66) : StandsFor (x + y) (rounded (p + q)) :=
  standsFor_packed (Holds.add hx hy (log2_le_of_lt h))

/-- The difference is rounded to 53 bits. -/
theorem sub (h : (p - q).natAbs < 2 ^ 66) : StandsFor (x - y) (rounded (p - q)) := by
  have hneg : Holds y.toModel.unpack.neg (-q : Int) := by
    rw [Int.cast_neg]
    exact hy.neg
  change StandsFor (packed (UnpackedFloat.sub Format.binary64 _ _)) _
  rw [sub_eq_add_neg, Int.sub_eq_add_neg]
  exact standsFor_packed (Holds.add hx hneg (log2_le_of_lt h))

theorem compare_eq : x.toModel.unpack.compare y.toModel.unpack = some (compare p q) := by
  rw [Holds.compare_eq hx hy, compare_map Int.cast_strictMono]

theorem lt_iff : x < y ↔ p < q := by
  rw [lt_iff_compare, hx.compare_eq hy, Option.some_inj, compare_lt_iff_lt]

theorem le_iff : x ≤ y ↔ p ≤ q := by
  change x.le y = true ↔ _
  rw [Float.le, decide_eq_true_iff]
  change x.toModel.unpack.le y.toModel.unpack = true ↔ _
  rw [UnpackedFloat.le, hx.compare_eq hy, Option.any_some, Int.isLE_compare]

end StandsFor

end Formula.Binary64
