import Mathlib.Algebra.Group.Nat.Defs
import Formula.Operation

/-!
# Values in canonical form

A table of literals looks a literal up by its canonical form, in which a zero has no sign. Only the
negative zero is not canonical itself; so a value other than it is found as it was put in. The
double made from an integer is never the negative zero: rounding does not take a positive mantissa
to zero, and the integer zero has a positive sign.

## Main results

* `Value.canonical_eq_self`: a value other than the negative zero is canonical.
* `Value.eq_or_zeros_of_canonical`: values that agree are the same, or the two zeros.
* `Value.canonical_of_convert`: the implicit conversion keeps values canonical.
-/

namespace Formula

open Float.Model Float.Model.UnpackedFloat

namespace Binary64

theorem pack_infinity (spec : Format) (s : Sign) :
    UnpackedFloat.pack spec (.infinity s) = packedInfinity spec s := rfl

theorem pack_finite (spec : Format) (s : Sign) (m : Nat) (e : Int) (h : 0 < m) :
    UnpackedFloat.pack spec (.finite s m e h) =
      let biased := (e + spec.exponentBias + spec.mantissaBitsWithoutImplicit).toNat
      if 2 ^ spec.exponentBits ≤ biased + 1 then packedInfinity spec s
      else if m.log2 + 1 = spec.mantissaBits then
        packComponents spec s (BitVec.ofNat _ biased) (BitVec.ofNat _ m)
      else packComponents spec s 0 (BitVec.ofNat _ m) := rfl

/-! ### The two zeros -/

theorem eq_of_bits {x y : Float} (h : x.toModel.toBits = y.toModel.toBits) : x = y := by
  obtain ⟨⟨a, _⟩⟩ := x
  obtain ⟨⟨b, _⟩⟩ := y
  cases h
  rfl

/-- A bit pattern whose exponent and fraction fields are zero has only a sign. -/
theorem eq_zero_or_eq_sign {b : BitVec Format.binary64.numBits}
    (he : unpackExponent b = 0#11) (hm : unpackMantissa b = 0#52) :
    b = 0#64 ∨ b = 0x8000000000000000#64 := by
  have he : b.toNat / 2 ^ 52 % 2 ^ 11 = 0 := by
    simpa [unpackExponent, Nat.shiftRight_eq_div_pow] using congrArg BitVec.toNat he
  have hm : b.toNat % 2 ^ 52 = 0 := by
    simpa [unpackMantissa] using congrArg BitVec.toNat hm
  have hb : b.toNat < 2 ^ 64 := b.isLt
  have hcases : b.toNat = 0 ∨ b.toNat = 0x8000000000000000 := by omega
  exact hcases.imp (BitVec.eq_of_toNat_eq ·) (BitVec.eq_of_toNat_eq ·)

theorem fields_of_unpack_zero {f : Float.Model} {s : Sign} (h : f.unpack = .zero s) :
    @unpackExponent Format.binary64 f.toBits.toBitVec = 0#11 ∧
      @unpackMantissa Format.binary64 f.toBits.toBitVec = 0#52 := by
  unfold Float.Model.unpack UnpackedFloat.unpack at h
  dsimp only at h
  by_cases hones : @unpackExponent Format.binary64 f.toBits.toBitVec = -1#11
  · rw [if_pos hones] at h
    split at h <;> cases h
  rw [if_neg hones] at h
  by_cases he : @unpackExponent Format.binary64 f.toBits.toBitVec = 0#11
  · rw [if_pos he] at h
    by_cases hm : @unpackMantissa Format.binary64 f.toBits.toBitVec = 0#52
    · exact ⟨he, hm⟩
    · rw [dif_neg hm] at h
      cases h
  · rw [if_neg he] at h
    cases h

theorem unpack_zero_of_beq {x : Float} (h : (x == 0) = true) : ∃ s, x.toModel.unpack = .zero s := by
  have hzero : (0 : Float).toModel.unpack = .zero .positive := rfl
  have h : (x.toModel.unpack.compare (0 : Float).toModel.unpack == some .eq) = true := h
  rw [hzero] at h
  cases hx : x.toModel.unpack with
  | zero s => exact ⟨s, rfl⟩
  | notANumber =>
    rw [hx] at h
    exact absurd h Bool.false_ne_true
  | infinity s =>
    rw [hx] at h
    cases s <;> exact absurd h Bool.false_ne_true
  | finite s _ _ _ =>
    rw [hx] at h
    cases s <;> exact absurd h Bool.false_ne_true

/-- A double that compares equal to zero is one of the two zeros. -/
theorem eq_zero_or_of_beq {x : Float} (h : (x == 0) = true) : x = 0 ∨ x = -0 := by
  obtain ⟨s, hs⟩ := unpack_zero_of_beq h
  obtain ⟨he, hm⟩ := fields_of_unpack_zero hs
  refine (eq_zero_or_eq_sign he hm).imp (fun hb => eq_of_bits ?_) (fun hb => eq_of_bits ?_)
  all_goals exact UInt64.toBitVec_inj.mp (hb.trans (by decide))

/-! ### Rounding keeps off zero -/

theorem mantissa_shiftRight (em : ExtendedMantissa) (n : Nat) :
    (em >>> n).mantissa = em.mantissa / 2 ^ n := by
  induction n with
  | zero => simp [HShiftRight.hShiftRight, Nat.repeat]
  | succ n ih =>
    calc (em >>> (n + 1)).mantissa = (em >>> n).mantissa / 2 := rfl
      _ = em.mantissa / 2 ^ (n + 1) := by rw [ih, Nat.div_div_eq_div_mul, Nat.pow_succ]

theorem le_roundedMantissa (em : ExtendedMantissa) : em.mantissa ≤ em.roundedMantissa := by
  obtain ⟨m, roundBit, stickyBit⟩ := em
  cases roundBit <;> cases stickyBit <;>
    simp [ExtendedMantissa.roundedMantissa, ExtendedMantissa.accuracy, Accuracy.roundToNearestEven]

/-- Shifted to its target exponent, a positive mantissa stays positive and fits a double. -/
theorem shiftToTargetExponent_bounds {m : Nat} (hm : 0 < m) {e : Int} (he : -1074 ≤ e) :
    let shifted := shiftToTargetExponent Format.binary64 m e .exact
    0 < shifted.1.mantissa ∧ shifted.1.mantissa < 2 ^ 53 ∧ -1074 ≤ shifted.2 := by
  have htarget : Format.binary64.targetExponent (totalExponent m e) =
      max (m.log2 + 1 + e - 53) (-1074) := rfl
  simp only [shiftToTargetExponent, shiftToExponent, mantissa_shiftRight, htarget,
    ExtendedMantissa.ofMantissaAndAccuracy]
  generalize hk : (max ((m.log2 : Int) + 1 + e - 53) (-1074) - e).toNat = k
  refine ⟨Nat.div_pos ?_ (Nat.two_pow_pos k), ?_, by omega⟩
  · have hle : 2 ^ k ≤ 2 ^ m.log2 := Nat.pow_le_pow_right (by decide) (by omega)
    exact Nat.le_trans hle (Nat.log2_self_le (Nat.ne_of_gt hm))
  · rw [Nat.div_lt_iff_lt_mul (Nat.two_pow_pos k), ← Nat.pow_add]
    have hle : 2 ^ (m.log2 + 1) ≤ 2 ^ (53 + k) := Nat.pow_le_pow_right (by decide) (by omega)
    exact Nat.lt_of_lt_of_le Nat.lt_log2_self hle

/-- A positive whole number is rounded to a finite double other than zero. -/
theorem round_eq_finite (s : Sign) {m : Nat} (hm : 0 < m) :
    ∃ m' e' h, round Format.binary64 s m 0 = .finite s m' e' h ∧ m' < 2 ^ 53 ∧ -1074 ≤ e' := by
  have htarget : Format.binary64.targetExponent (totalExponent m 0) =
      max ((m.log2 : Int) + 1 + 0 - 53) (-1074) := rfl
  obtain ⟨n, e, hdecrease, hn, he⟩ : ∃ n e,
      decreaseExponent m 0 (Format.binary64.targetExponent (totalExponent m 0)) = (n, e) ∧
        0 < n ∧ -1074 ≤ e := by
    refine ⟨_, _, rfl, ?_, by omega⟩
    rw [Nat.shiftLeft_eq]
    exact Nat.mul_pos hm (Nat.two_pow_pos _)
  obtain ⟨hfirst, -, hfirstExponent⟩ := shiftToTargetExponent_bounds hn he
  obtain ⟨hsecond, hlt, hexponent⟩ := shiftToTargetExponent_bounds
    (Nat.lt_of_lt_of_le hfirst (le_roundedMantissa _)) hfirstExponent
  refine ⟨_, _, hsecond, ?_, hlt, hexponent⟩
  unfold UnpackedFloat.round
  dsimp only
  rw [hdecrease]
  exact dif_neg (Nat.ne_of_gt hsecond)

/-- A finite double that is in range is not packed into a zero. -/
theorem unpack_pack_finite_ne_zero (s s' : Sign) {m : Nat} {e : Int} (h : 0 < m) (hm : m < 2 ^ 53)
    (he : -1074 ≤ e) : (Float.Model.pack (.finite s m e h)).unpack ≠ .zero s' := by
  intro hzero
  obtain ⟨hexponent, hmantissa⟩ := fields_of_unpack_zero hzero
  have hbias : (Format.binary64.exponentBias : Int) = 1023 := rfl
  change unpackExponent (UnpackedFloat.pack Format.binary64 (.finite s m e h)) = 0#11 at hexponent
  change unpackMantissa (UnpackedFloat.pack Format.binary64 (.finite s m e h)) = 0#52 at hmantissa
  rw [pack_finite] at hexponent hmantissa
  dsimp only at hexponent hmantissa
  split at hexponent
  · simp only [packedInfinity, unpackExponent_packComponents] at hexponent
    contradiction
  · next hfinite =>
    split at hexponent
    · next hnormal =>
      rw [unpackExponent_packComponents] at hexponent
      have hmod := congrArg BitVec.toNat hexponent
      simp only [BitVec.toNat_ofNat] at hmod
      omega
    · next hsubnormal =>
      have hlog : m.log2 < 52 := by
        have := (Nat.log2_lt (Nat.ne_of_gt h)).mpr hm
        have : Format.binary64.mantissaBits = 53 := rfl
        omega
      simp only [if_neg hfinite, if_neg hsubnormal, unpackMantissa_packComponents] at hmantissa
      have hmod := congrArg BitVec.toNat hmantissa
      have := (Nat.log2_lt (Nat.ne_of_gt h)).mp hlog
      simp only [BitVec.toNat_ofNat] at hmod
      omega

theorem beq_round_eq_false (s : Sign) {m : Nat} (hm : 0 < m) :
    (Float.ofModel (Float.Model.pack (round Format.binary64 s m 0)) == 0) = false := by
  obtain ⟨m', e', h, hround, hlt, he⟩ := round_eq_finite s hm
  rw [hround, Bool.eq_false_iff]
  intro hbeq
  obtain ⟨s', hs'⟩ := unpack_zero_of_beq hbeq
  exact unpack_pack_finite_ne_zero s s' h hlt he hs'

/-- The double made from an integer is zero only without a sign. -/
theorem ofInteger_eq_zero_of_beq {i : Int64} (h : (ofInteger i == 0) = true) : ofInteger i = 0 := by
  simp only [ofInteger, Float.Model.ofInt64, UnpackedFloat.ofInt64, UnpackedFloat.ofInt,
    UnpackedFloat.normalize] at h ⊢
  split at h
  · next hcompare =>
    rw [Int.compare_eq_lt] at hcompare
    rw [beq_round_eq_false _ (by omega)] at h
    contradiction
  · exact eq_of_bits rfl
  · next hcompare =>
    rw [Int.compare_eq_gt] at hcompare
    rw [beq_round_eq_false _ (by omega)] at h
    contradiction

end Binary64

namespace Value

/-- A value other than the negative zero is canonical. -/
theorem canonical_eq_self {v : Value} (h : v ≠ .numeric (-0)) : v.canonical = v := by
  cases v with
  | numeric x =>
    rw [canonical]
    split
    · next hbeq =>
      rcases Binary64.eq_zero_or_of_beq hbeq with rfl | rfl
      · rfl
      · exact absurd rfl h
    · rfl
  | _ => rfl

/-- Two values that agree are the same, unless they are the two zeros. -/
theorem eq_or_zeros_of_canonical {v w : Value} (h : w.canonical = v.canonical) :
    w = v ∨ (w = .numeric 0 ∧ v = .numeric (-0)) ∨ (w = .numeric (-0) ∧ v = .numeric 0) := by
  have hzero : (numeric (-0)).canonical = numeric 0 := by rw [canonical, if_pos (by decide)]
  by_cases hw : w = .numeric (-0)
  · by_cases hv : v = .numeric (-0)
    · exact .inl (hw.trans hv.symm)
    · rw [canonical_eq_self hv, hw, hzero] at h
      exact .inr (.inr ⟨hw, h.symm⟩)
  · by_cases hv : v = .numeric (-0)
    · rw [canonical_eq_self hw, hv, hzero] at h
      exact .inr (.inl ⟨h, hv⟩)
    · rw [canonical_eq_self hw, canonical_eq_self hv] at h
      exact .inl h

/-- The implicit conversion keeps values canonical. -/
theorem canonical_of_convert {v w : Value} {t : ValueType} (hv : v.canonical = v)
    (h : v.convert t = .ok w) : w.canonical = w := by
  unfold convert at h
  split at h
  · cases h
    exact hv
  · split at h
    · next i =>
      cases h
      rw [canonical]
      split
      · next hbeq => rw [Binary64.ofInteger_eq_zero_of_beq hbeq]
      · rfl
    · cases h

end Value

end Formula
