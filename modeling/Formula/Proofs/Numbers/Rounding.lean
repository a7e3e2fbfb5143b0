import Mathlib.Tactic.Ring
import Mathlib.Tactic.Linarith
import Formula.Binary64
import Formula.Proofs.Value.Canonical

/-!
# Rounding whole numbers

A double with a significand of 53 bits is read off its bit pattern as it was put in. A whole number
that has more bits than a significand is rounded to such a double: its leading 53 bits are kept, and
the others tell whether they are taken up by one, a half to the even neighbour.

## Main definitions

* `Binary64.halfEven`: a quotient rounded to the nearest whole number.
* `Binary64.IsNormal`: a significand of 53 bits with its exponent.

## Main results

* `Binary64.IsNormal.parts_eq`: what is read off a packed double.
* `Binary64.roundWithAccuracy_whole`: the double that a whole number is rounded to, however it is
  written as a mantissa and an exponent.
-/

namespace Formula.Binary64

open Float.Model Float.Model.UnpackedFloat

/-! ### Packed doubles -/

/-- A significand of 53 bits, and an exponent that a double may have with it. -/
structure IsNormal (m : Nat) (e : Int) : Prop where
  lower : 2 ^ 52 ≤ m
  upper : m < 2 ^ 53
  exponent : -1074 ≤ e ∧ e ≤ 971

namespace IsNormal

variable {m : Nat} {e : Int} (h : IsNormal m e)
include h

theorem pos : 0 < m := Nat.lt_of_lt_of_le (by decide) h.lower

theorem log2_eq : m.log2 = 52 := by
  have hne := Nat.ne_of_gt h.pos
  exact Nat.le_antisymm (Nat.lt_succ_iff.mp ((Nat.log2_lt hne).mpr h.upper))
    ((Nat.le_log2 hne).mpr h.lower)

end IsNormal

theorem unpackSign_packComponents (spec : Format) (s : Sign) (e : BitVec spec.exponentBits)
    (m : BitVec spec.mantissaBitsWithoutImplicit) :
    unpackSign (packComponents spec s e m) = s.toBitVec := by
  refine BitVec.eq_of_getLsbD_eq fun i hi => ?_
  obtain rfl : i = 0 := by omega
  unfold unpackSign
  simp [packComponents, BitVec.getLsbD_append, BitVec.getElem_append]

theorem ofBitVec_toBitVec (s : Sign) : Sign.ofBitVec s.toBitVec = s := by
  cases s <;> rfl

/-- The bits of a sign, an exponent field and a fraction field. -/
theorem toNat_packComponents (s : Sign) (e : BitVec 11) (m : BitVec 52) :
    (packComponents Format.binary64 s e m).toNat =
      s.toBitVec.toNat * 2 ^ 63 + e.toNat * 2 ^ 52 + m.toNat := by
  have hmantissa : (s.toBitVec ++ e).toNat <<< 52 + m.toNat = (s.toBitVec ++ e).toNat <<< 52 ||| m.toNat :=
    Nat.shiftLeft_add_eq_or_of_lt m.isLt _
  have hexponent : s.toBitVec.toNat <<< 11 + e.toNat = s.toBitVec.toNat <<< 11 ||| e.toNat :=
    Nat.shiftLeft_add_eq_or_of_lt e.isLt _
  rw [packComponents]
  change ((s.toBitVec ++ e) ++ m).toNat = _
  rw [BitVec.toNat_append, ← hmantissa, BitVec.toNat_append, ← hexponent, Nat.shiftLeft_eq,
    Nat.shiftLeft_eq]
  ring

/-- The sign with a truth value for minus. -/
def sign (negative : Bool) : Sign :=
  if negative then .negative else .positive

theorem toNat_toBitVec_sign (negative : Bool) :
    (sign negative).toBitVec.toNat = negative.toNat := by
  cases negative <;> rfl

/-- The three fields are read off as they were put in. -/
theorem fields_packComponents (negative : Bool) (e : BitVec 11) (m : BitVec 52) :
    fields (packComponents Format.binary64 (sign negative) e m).toNat =
      (negative, e.toNat, m.toNat) := by
  have he : e.toNat < 2048 := e.isLt
  have hm : m.toNat < 2 ^ 52 := m.isLt
  have hsign := negative.toNat_lt
  rw [toNat_packComponents, toNat_toBitVec_sign, fields, Nat.testBit_eq_decide_div_mod_eq,
    Nat.shiftRight_eq_div_pow, show normalBound = 2 ^ 52 from rfl]
  refine Prod.ext ?_ (Prod.ext ?_ ?_)
  · have hbit : (negative.toNat * 2 ^ 63 + e.toNat * 2 ^ 52 + m.toNat) / 2 ^ 63 % 2 = negative.toNat := by
      omega
    dsimp only
    rw [hbit]
    cases negative <;> rfl
  · dsimp only
    omega
  · dsimp only
    omega

/-- The double of an unpacked number. -/
def packed (f : UnpackedFloat) : Float :=
  Float.ofModel (Float.Model.pack f)

theorem parts_packed (f : UnpackedFloat) : parts (packed f) =
    match fields (UnpackedFloat.pack Format.binary64 f).toNat with
    | (negative, e, f) =>
      if e = 2047 then if f = 0 then .infinite negative else .notANumber
      else if e = 0 then .finite negative f (-1074)
      else .finite negative (f + normalBound) (e - 1075) := rfl

theorem parts_infinity (negative : Bool) :
    parts (packed (.infinity (sign negative))) = .infinite negative := by
  rw [parts_packed, pack_infinity, packedInfinity, fields_packComponents]
  rfl

/-- Packed bits of a normal double. -/
theorem IsNormal.pack_eq {m : Nat} {e : Int} (h : IsNormal m e) (s : Sign) :
    UnpackedFloat.pack Format.binary64 (.finite s m e h.pos) =
      packComponents Format.binary64 s (BitVec.ofNat 11 (e + 1075).toNat) (BitVec.ofNat 52 m) := by
  have hlog : m.log2 + 1 = Format.binary64.mantissaBits := by
    rw [h.log2_eq]
    rfl
  have hbias : (e + (Format.binary64.exponentBias : Int) +
      (Format.binary64.mantissaBitsWithoutImplicit : Int)).toNat = (e + 1075).toNat := by
    have : (Format.binary64.exponentBias : Int) = 1023 := rfl
    have : (Format.binary64.mantissaBitsWithoutImplicit : Int) = 52 := rfl
    omega
  have := h.exponent
  rw [pack_finite]
  dsimp only
  rw [hbias, if_neg (show ¬2 ^ 11 ≤ (e + 1075).toNat + 1 by omega), if_pos hlog]

/-- A normal double is read off as it was put in. -/
theorem IsNormal.parts_eq {m : Nat} {e : Int} (h : IsNormal m e) (negative : Bool) :
    parts (packed (.finite (sign negative) m e h.pos)) = .finite negative m e := by
  have := h.lower
  have := h.upper
  have := h.exponent
  have hexponent : (BitVec.ofNat 11 (e + 1075).toNat).toNat = (e + 1075).toNat := by
    rw [BitVec.toNat_ofNat, Nat.mod_eq_of_lt (by omega)]
  have hmantissa : (BitVec.ofNat 52 m).toNat = m - 2 ^ 52 := by
    rw [BitVec.toNat_ofNat]
    omega
  rw [parts_packed, h.pack_eq, fields_packComponents, hexponent, hmantissa]
  dsimp only
  rw [if_neg (by omega), if_neg (by omega), show normalBound = 2 ^ 52 from rfl,
    Nat.sub_add_cancel h.lower]
  congr 1
  omega

theorem finite_eq {s s' : Sign} {m m' : Nat} {e e' : Int} {h : 0 < m} {h' : 0 < m'} (hs : s = s')
    (hm : m = m') (he : e = e') : UnpackedFloat.finite s m e h = .finite s' m' e' h' := by
  subst hs hm he
  rfl

/-- A normal double is unpacked as it was packed. -/
theorem IsNormal.unpack_eq {m : Nat} {e : Int} (h : IsNormal m e) (s : Sign) :
    (packed (.finite s m e h.pos)).toModel.unpack = .finite s m e h.pos := by
  have hlower := h.lower
  have hupper := h.upper
  have hbounds := h.exponent
  have hexponent : (BitVec.ofNat 11 (e + 1075).toNat).toNat = (e + 1075).toNat := by
    rw [BitVec.toNat_ofNat, Nat.mod_eq_of_lt (by omega)]
  have hones : BitVec.ofNat 11 (e + 1075).toNat ≠ -1#11 := fun heq => by
    have := congrArg BitVec.toNat heq
    rw [hexponent, show (-1#11).toNat = 2047 from rfl] at this
    omega
  have hzeros : BitVec.ofNat 11 (e + 1075).toNat ≠ 0#11 := fun heq => by
    have := congrArg BitVec.toNat heq
    rw [hexponent, show (0#11).toNat = 0 from rfl] at this
    omega
  have hmantissa : (1#1 ++ BitVec.ofNat 52 m).toNat = m := by
    rw [BitVec.toNat_append, ← Nat.shiftLeft_add_eq_or_of_lt (BitVec.isLt _), BitVec.toNat_ofNat,
      Nat.shiftLeft_eq]
    change 1 * 2 ^ 52 + m % 2 ^ 52 = m
    omega
  change UnpackedFloat.unpack Format.binary64 (UnpackedFloat.pack Format.binary64 _) = _
  rw [h.pack_eq]
  unfold UnpackedFloat.unpack
  dsimp only
  rw [if_neg (by rwa [unpackExponent_packComponents]), if_neg (by rwa [unpackExponent_packComponents])]
  refine finite_eq ?_ ?_ ?_
  · rw [unpackSign_packComponents, ofBitVec_toBitVec]
  · rw [unpackMantissa_packComponents]
    exact hmantissa
  · have : (Format.binary64.exponentBias : Int) = 1023 := rfl
    have : (Format.binary64.mantissaBitsWithoutImplicit : Int) = 52 := rfl
    rw [unpackExponent_packComponents]
    omega

/-- A number too large for a double is packed as infinity. -/
theorem packed_of_large (s : Sign) {m : Nat} {e : Int} (he : 972 ≤ e) (hm : 0 < m) :
    packed (.finite s m e hm) = packed (.infinity s) := by
  refine eq_of_bits (congrArg UInt64.ofBitVec ?_)
  rw [pack_finite, pack_infinity]
  dsimp only
  rw [if_pos]
  have : (Format.binary64.exponentBias : Int) = 1023 := rfl
  have : (Format.binary64.mantissaBitsWithoutImplicit : Int) = 52 := rfl
  change 2 ^ 11 ≤ _
  omega

theorem neg_sign (negative : Bool) : -sign negative = sign !negative := by
  cases negative <;> rfl

theorem IsNormal.neg_packed {m : Nat} {e : Int} (h : IsNormal m e) (negative : Bool) :
    -packed (.finite (sign negative) m e h.pos) = packed (.finite (sign !negative) m e h.pos) := by
  change packed (UnpackedFloat.neg (packed _).toModel.unpack) = _
  rw [h.unpack_eq]
  exact congrArg packed (finite_eq (neg_sign negative) rfl rfl)

theorem neg_infinity (negative : Bool) :
    -packed (.infinity (sign negative)) = packed (.infinity (sign !negative)) := by
  cases negative <;> exact eq_of_bits rfl

/-! ### Shifting a mantissa -/

/-- The quotient of two numbers, rounded to the nearest whole number; a half goes to the even one. -/
def halfEven (n d : Nat) : Nat :=
  if 2 * (n % d) < d then n / d
  else if d < 2 * (n % d) then n / d + 1
  else n / d + n / d % 2

theorem halfEven_mul_right (n d : Nat) {c : Nat} (hc : 0 < c) :
    halfEven (n * c) (d * c) = halfEven n d := by
  have hcompare (a b : Nat) : 2 * (a * c) < b * c ↔ 2 * a < b := by
    rw [← Nat.mul_assoc, Nat.mul_lt_mul_right hc]
  have hcompare' (a b : Nat) : b * c < 2 * (a * c) ↔ b < 2 * a := by
    rw [← Nat.mul_assoc, Nat.mul_lt_mul_right hc]
  simp only [halfEven, Nat.mul_div_mul_right _ _ hc, Nat.mul_mod_mul_right, hcompare, hcompare']

/-- Of twice a remainder nothing is left if it is none at all or just a half. -/
theorem double_mod_eq_zero_iff {r d : Nat} (h : r < d) : 2 * r % d = 0 ↔ r = 0 ∨ 2 * r = d := by
  rcases Nat.lt_or_ge (2 * r) d with hless | hmore
  · rw [Nat.mod_eq_of_lt hless]
    omega
  · rw [Nat.mod_eq_sub_mod hmore, Nat.mod_eq_of_lt (by omega)]
    omega

/-- What is left of a mantissa when it is shifted. -/
theorem shiftRight_exact (m k : Nat) :
    ExtendedMantissa.ofMantissaAndAccuracy m .exact >>> k =
      ⟨m / 2 ^ k, decide (2 ^ k ≤ 2 * (m % 2 ^ k)), decide (2 * (m % 2 ^ k) % 2 ^ k ≠ 0)⟩ := by
  induction k with
  | zero => simp [ExtendedMantissa.ofMantissaAndAccuracy, HShiftRight.hShiftRight, Nat.repeat, Nat.mod_one]
  | succ k ih =>
    have hstep : ExtendedMantissa.ofMantissaAndAccuracy m .exact >>> (k + 1) =
        (ExtendedMantissa.ofMantissaAndAccuracy m .exact >>> k).shiftRightOne := rfl
    have hpos := Nat.two_pow_pos k
    have hlt := Nat.mod_lt m hpos
    have hmod : m % 2 ^ (k + 1) = m % 2 ^ k + 2 ^ k * (m / 2 ^ k % 2) := by
      rw [Nat.pow_succ, Nat.mod_mul]
    have hdouble : 2 ^ (k + 1) = 2 * 2 ^ k := by rw [Nat.pow_succ, Nat.mul_comm]
    rw [hstep, ih, ExtendedMantissa.shiftRightOne, ExtendedMantissa.mk.injEq]
    refine ⟨by rw [Nat.div_div_eq_div_mul, Nat.pow_succ], ?_, ?_⟩
    -- The bit shifted out last tells whether a half or more is left.
    · rw [Bool.eq_iff_iff, bne_iff_ne, decide_eq_true_iff, hmod, hdouble]
      rcases Nat.mod_two_eq_zero_or_one (m / 2 ^ k) with hbit | hbit <;> rw [hbit] <;> omega
    -- The bits before it tell whether there is anything else.
    · rw [Bool.eq_iff_iff, Bool.or_eq_true, decide_eq_true_iff, decide_eq_true_iff,
        decide_eq_true_iff, hmod, hdouble]
      have hleft : 2 * (m % 2 ^ k + 2 ^ k * (m / 2 ^ k % 2)) % (2 * 2 ^ k) = 2 * (m % 2 ^ k) := by
        rw [Nat.mul_mod_mul_left, Nat.add_mul_mod_self_left, Nat.mod_mod]
      have hright := double_mod_eq_zero_iff hlt
      rw [hleft]
      omega

/-- A mantissa is rounded by what is shifted out. -/
theorem roundedMantissa_shiftRight (m k : Nat) :
    (ExtendedMantissa.ofMantissaAndAccuracy m .exact >>> k).roundedMantissa = halfEven m (2 ^ k) := by
  have hpos := Nat.two_pow_pos k
  have hlt := Nat.mod_lt m hpos
  rw [shiftRight_exact, ExtendedMantissa.roundedMantissa, halfEven]
  have hzero := double_mod_eq_zero_iff hlt
  rcases Nat.lt_trichotomy (2 * (m % 2 ^ k)) (2 ^ k) with hless | hhalf | hmore
  · rw [if_pos hless, decide_eq_false (by omega : ¬2 ^ k ≤ 2 * (m % 2 ^ k))]
    cases decide (2 * (m % 2 ^ k) % 2 ^ k ≠ 0) <;> rfl
  · rw [if_neg (by omega), if_neg (by omega), decide_eq_true (by omega : 2 ^ k ≤ 2 * (m % 2 ^ k)),
      decide_eq_false (by omega : ¬2 * (m % 2 ^ k) % 2 ^ k ≠ 0)]
    rfl
  · rw [if_neg (by omega), if_pos hmore, decide_eq_true (by omega : 2 ^ k ≤ 2 * (m % 2 ^ k)),
      decide_eq_true (by omega : 2 * (m % 2 ^ k) % 2 ^ k ≠ 0)]
    rfl

theorem ne_zero_of_le_log2 {n : Nat} (hn : 52 ≤ n.log2) : n ≠ 0 := by
  rintro rfl
  simp at hn

theorem log2_mul_two_pow {n : Nat} (hn : n ≠ 0) (k : Nat) : (n * 2 ^ k).log2 = n.log2 + k := by
  have hpos := Nat.two_pow_pos k
  refine (Nat.log2_eq_iff (Nat.mul_ne_zero hn (Nat.ne_of_gt hpos))).mpr ⟨?_, ?_⟩
  · rw [Nat.pow_add]
    exact Nat.mul_le_mul_right _ (Nat.log2_self_le hn)
  · rw [Nat.add_right_comm, Nat.pow_add]
    exact (Nat.mul_lt_mul_right hpos).mpr Nat.lt_log2_self

/-- Rounding the quotient by a power of two keeps the number of bits, or adds one. -/
theorem halfEven_bounds {n k : Nat} (hn : n.log2 = k + 52) :
    2 ^ 52 ≤ halfEven n (2 ^ k) ∧ halfEven n (2 ^ k) ≤ 2 ^ 53 := by
  have hne := ne_zero_of_le_log2 (show 52 ≤ n.log2 by omega)
  have hpos := Nat.two_pow_pos k
  have hlower : 2 ^ 52 ≤ n / 2 ^ k := by
    rw [Nat.le_div_iff_mul_le hpos, ← Nat.pow_add, Nat.add_comm, ← hn]
    exact Nat.log2_self_le hne
  have hupper : n / 2 ^ k < 2 ^ 53 := by
    rw [Nat.div_lt_iff_lt_mul hpos, ← Nat.pow_add, show 53 + k = n.log2 + 1 by omega]
    exact Nat.lt_log2_self
  rw [halfEven]
  split
  · omega
  · split <;> omega

/-! ### Rounding to a double -/

theorem targetExponent_eq (m : Nat) (e : Int) :
    Format.binary64.targetExponent (totalExponent m e) = max ((m.log2 : Int) + e - 52) (-1074) := by
  have htarget : Format.binary64.targetExponent (totalExponent m e) =
      max ((m.log2 : Int) + 1 + e - 53) (-1074) := rfl
  omega

/-- Shifting to the target exponent keeps 53 bits. -/
theorem shiftToTargetExponent_eq {m k : Nat} {e : Int} (hm : m.log2 = k + 52) (he : -1074 ≤ e + k) :
    shiftToTargetExponent Format.binary64 m e .exact =
      (ExtendedMantissa.ofMantissaAndAccuracy m .exact >>> k, e + k) := by
  rw [shiftToTargetExponent, targetExponent_eq, shiftToExponent,
    show (max ((m.log2 : Int) + e - 52) (-1074) - e).toNat = k by omega]

/-- The number that a mantissa is rounded to: where rounding gives one bit too many, the mantissa is
halved. -/
def carried (m : Nat) (e : Int) : Nat × Int :=
  if m = 2 ^ 53 then (2 ^ 52, e + 1) else (m, e)

theorem carried_bounds {m : Nat} (hlower : 2 ^ 52 ≤ m) (hupper : m ≤ 2 ^ 53) (e : Int) :
    2 ^ 52 ≤ (carried m e).1 ∧ (carried m e).1 < 2 ^ 53 := by
  rw [carried]
  split
  · exact ⟨Nat.le_refl _, by norm_num⟩
  · exact ⟨hlower, by omega⟩

/-- A mantissa with more than 53 bits is rounded to 53 of them. -/
theorem roundWithAccuracy_eq (s : Sign) {m k : Nat} {e : Int} (hm : m.log2 = k + 52)
    (he : -1074 ≤ e + k) :
    ∃ hpos, roundWithAccuracy Format.binary64 s m e .exact =
      .finite s (carried (halfEven m (2 ^ k)) (e + k)).1 (carried (halfEven m (2 ^ k)) (e + k)).2
        hpos := by
  obtain ⟨hlower, hupper⟩ := halfEven_bounds hm
  have hpos : 0 < (carried (halfEven m (2 ^ k)) (e + k)).1 :=
    Nat.lt_of_lt_of_le (Nat.two_pow_pos 52) (carried_bounds hlower hupper (e + k)).1
  refine ⟨hpos, ?_⟩
  have hsecond : (shiftToTargetExponent Format.binary64 (halfEven m (2 ^ k)) (e + k) .exact).1.mantissa =
      (carried (halfEven m (2 ^ k)) (e + k)).1 ∧
      (shiftToTargetExponent Format.binary64 (halfEven m (2 ^ k)) (e + k) .exact).2 =
        (carried (halfEven m (2 ^ k)) (e + k)).2 := by
    by_cases hcarry : halfEven m (2 ^ k) = 2 ^ 53
    · have hlog : (2 ^ 53).log2 = 1 + 52 := Nat.log2_two_pow
      rw [hcarry, shiftToTargetExponent_eq hlog (by omega), carried, if_pos rfl, mantissa_shiftRight]
      exact ⟨rfl, rfl⟩
    · have hne : halfEven m (2 ^ k) ≠ 0 := by omega
      have hlog : (halfEven m (2 ^ k)).log2 = 0 + 52 :=
        Nat.le_antisymm (Nat.lt_succ_iff.mp ((Nat.log2_lt hne).mpr (by omega)))
          ((Nat.le_log2 hne).mpr hlower)
      rw [shiftToTargetExponent_eq hlog (by omega), carried, if_neg hcarry, mantissa_shiftRight]
      refine ⟨?_, by simp⟩
      simp [ExtendedMantissa.ofMantissaAndAccuracy]
  have hmantissa : (shiftToTargetExponent Format.binary64 (halfEven m (2 ^ k)) (e + k)
      .exact).1.mantissa ≠ 0 := by
    rw [hsecond.1]
    omega
  rw [roundWithAccuracy, shiftToTargetExponent_eq hm he]
  dsimp only
  rw [roundedMantissa_shiftRight, dif_neg hmantissa]
  exact finite_eq rfl hsecond.1 hsecond.2

/-- A significand of 53 bits is kept. -/
theorem IsNormal.roundWithAccuracy_eq {m : Nat} {e : Int} (h : IsNormal m e) (s : Sign) :
    roundWithAccuracy Format.binary64 s m e .exact = .finite s m e h.pos := by
  have hexponent := h.exponent
  obtain ⟨hpos, heq⟩ := Binary64.roundWithAccuracy_eq s (show m.log2 = 0 + 52 from h.log2_eq)
    (show -1074 ≤ e + (0 : Nat) by omega)
  have hhalf : halfEven m (2 ^ 0) = m := by
    rw [halfEven, Nat.pow_zero, Nat.mod_one, if_pos (by decide), Nat.div_one]
  have hcarried : carried m e = (m, e) := if_neg (Nat.ne_of_lt h.upper)
  have hparts : carried (halfEven m (2 ^ 0)) (e + (0 : Nat)) = (m, e) := by
    rw [hhalf, Int.natCast_zero, Int.add_zero, hcarried]
  rw [heq]
  exact finite_eq rfl (congrArg Prod.fst hparts) (congrArg Prod.snd hparts)

/-! ### Whole numbers -/

/-- The significand and the exponent of the double nearest to a number of more than 52 bits. -/
def nearestParts (n : Nat) : Nat × Int :=
  carried (halfEven n (2 ^ (n.log2 - 52))) (n.log2 - 52)

theorem nearestParts_bounds {n : Nat} (hn : 52 ≤ n.log2) :
    2 ^ 52 ≤ (nearestParts n).1 ∧ (nearestParts n).1 < 2 ^ 53 := by
  obtain ⟨hlower, hupper⟩ := halfEven_bounds (show n.log2 = (n.log2 - 52) + 52 by omega)
  exact carried_bounds hlower hupper _

theorem le_exponent_nearestParts (n : Nat) : (n.log2 : Int) - 52 ≤ (nearestParts n).2 := by
  rw [nearestParts, carried]
  split <;> dsimp only <;> omega

theorem nearestParts_pos {n : Nat} (hn : 52 ≤ n.log2) : 0 < (nearestParts n).1 :=
  Nat.lt_of_lt_of_le (Nat.two_pow_pos 52) (nearestParts_bounds hn).1

/-- However a whole number is written as a mantissa of more than 52 bits and an exponent, it is rounded
to the same double. -/
theorem roundWithAccuracy_whole (s : Sign) {n m a b : Nat} (hn : 52 ≤ n.log2) (hm : 52 ≤ m.log2)
    (h : m * 2 ^ a = n * 2 ^ b) :
    roundWithAccuracy Format.binary64 s m ((a : Int) - b) .exact =
      .finite s (nearestParts n).1 (nearestParts n).2 (nearestParts_pos hn) := by
  have hlogs : m.log2 + a = n.log2 + b := by
    rw [← log2_mul_two_pow (ne_zero_of_le_log2 hm), h, log2_mul_two_pow (ne_zero_of_le_log2 hn)]
  obtain ⟨hpos, heq⟩ := roundWithAccuracy_eq s (show m.log2 = (m.log2 - 52) + 52 by omega)
    (show -1074 ≤ (a : Int) - b + (m.log2 - 52 : Nat) by omega)
  have hhalf : halfEven m (2 ^ (m.log2 - 52)) = halfEven n (2 ^ (n.log2 - 52)) := by
    rw [← halfEven_mul_right m _ (Nat.two_pow_pos a), ← halfEven_mul_right n _ (Nat.two_pow_pos b),
      ← Nat.pow_add, ← Nat.pow_add, h, show m.log2 - 52 + a = n.log2 - 52 + b by omega]
  have hexponent : (a : Int) - b + (m.log2 - 52 : Nat) = (n.log2 : Int) - 52 := by omega
  have hparts : carried (halfEven m (2 ^ (m.log2 - 52))) ((a : Int) - b + (m.log2 - 52 : Nat)) =
      nearestParts n := by
    rw [hhalf, hexponent, nearestParts]
  rw [heq]
  exact finite_eq rfl (congrArg Prod.fst hparts) (congrArg Prod.snd hparts)

end Formula.Binary64
