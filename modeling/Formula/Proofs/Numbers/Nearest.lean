import Mathlib.Algebra.Order.Field.Power
import Formula.Decimal.Read
import Formula.Proofs.Numbers.Rounding

/-!
# Nearest doubles

A whole decimal number that is too large for a 64-bit integer is read as the double nearest to it.
The multiples of a power of two are the doubles near such a number, so that it suffices to round the
quotient by that power; a double with a smaller exponent is further away.

## Main definitions

* `Binary64.Parts.value?`: the number that a finite double stands for.
* `Binary64.IsNearest`: the double nearest to a number, by rounding to nearest and ties to even.

## Main results

* `Binary64.isNearest_nearestParts`: the parts of a whole number are those of the double nearest to it.
* `Decimal.nearest_whole`: the parts of a large whole decimal.
* `Decimal.isNearest_nearest`: a large whole decimal is read as the double nearest to it.
-/

namespace Formula

namespace Binary64

open Float.Model Float.Model.UnpackedFloat

/-- A number with a truth value for minus. -/
def signed (negative : Bool) (v : ℚ) : ℚ :=
  if negative then -v else v

/-- The number that a finite double stands for. -/
def Parts.value? : Parts → Option ℚ
  | .finite negative m e => some (signed negative (m * 2 ^ e))
  | .infinite _ | .notANumber => none

/-- The number halfway between the largest finite double and the next power of two. -/
def overflow : ℚ := (2 ^ 53 - 1 / 2) * (2 ^ 971 : Nat)

/-- The double nearest to a number. Of two doubles equally near it is the one with an even
significand; a number beyond all of them goes to infinity. -/
def IsNearest (v : ℚ) (x : Float) : Prop :=
  match parts x with
  | .finite negative m e =>
    |v| < overflow ∧ ∀ y w, (parts y).value? = some w →
      |v - signed negative (m * 2 ^ e)| ≤ |v - w| ∧
        (|v - signed negative (m * 2 ^ e)| = |v - w| →
          w = signed negative (m * 2 ^ e) ∨ m % 2 = 0)
  | .infinite negative => overflow ≤ signed negative v
  | .notANumber => False

theorem signed_signed (negative : Bool) (v : ℚ) : signed negative (signed negative v) = v := by
  cases negative <;> simp [signed]

theorem abs_signed (negative : Bool) (v : ℚ) : |signed negative v| = |v| := by
  cases negative <;> simp [signed]

/-- A sign on both sides does not change a distance. -/
theorem abs_signed_sub (negative : Bool) (v w : ℚ) :
    |signed negative v - w| = |v - signed negative w| := by
  cases negative
  · rfl
  · simp only [signed, if_true]
    rw [← neg_add', abs_neg, sub_neg_eq_add]

/-- The significand of a finite double has at most 53 bits. -/
theorem significand_lt {x : Float} {negative : Bool} {m : Nat} {e : Int}
    (h : parts x = .finite negative m e) : m < 2 ^ 53 := by
  rcases hfields : fields x.toBits.toNat with ⟨negative', e', f⟩
  have hfraction : f < normalBound := by
    rw [show f = (fields x.toBits.toNat).2.2 by rw [hfields]]
    exact Nat.mod_lt _ (Nat.two_pow_pos 52)
  have hbound : normalBound = 2 ^ 52 := rfl
  rw [parts, hfields] at h
  dsimp only at h
  split at h
  · split at h <;> cases h
  · split at h
    all_goals
      obtain ⟨-, rfl, -⟩ := Parts.finite.inj h
      omega

/-- A finite double is a whole number of at most 53 bits and a power of two, with either sign. -/
theorem exists_of_value? {x : Float} {v : ℚ} (h : (parts x).value? = some v) (negative : Bool) :
    ∃ j e : ℤ, |j| < 2 ^ 53 ∧ signed negative v = j * 2 ^ e := by
  cases hparts : parts x with
  | finite negative' m e =>
    rw [hparts] at h
    obtain rfl := Option.some.inj h
    have hm : |(m : ℤ)| < 2 ^ 53 := by
      rw [Nat.abs_cast]
      exact_mod_cast significand_lt hparts
    by_cases hsame : negative = negative'
    · subst hsame
      exact ⟨m, e, hm, by rw [signed_signed, Int.cast_natCast]⟩
    · refine ⟨-m, e, by rwa [abs_neg], ?_⟩
      cases negative <;> cases negative' <;> simp_all [signed]
  | infinite negative' =>
    rw [hparts] at h
    cases h
  | notANumber =>
    rw [hparts] at h
    cases h

/-! ### Multiples of a power of two -/

/-- A quotient is rounded by at most a half, and by just a half only to an even number. -/
theorem two_mul_abs_sub_halfEven_mul_le (n : Nat) {d : Nat} (hd : 0 < d) :
    2 * |(n : ℤ) - halfEven n d * d| ≤ d ∧
      (2 * |(n : ℤ) - halfEven n d * d| = d → halfEven n d % 2 = 0) := by
  have hmod := Nat.mod_lt n hd
  have hn : (n : ℤ) = (n / d : Nat) * d + (n % d : Nat) := by
    exact_mod_cast (Nat.div_add_mod' n d).symm
  have hdown (hh : halfEven n d = n / d) : (n : ℤ) - halfEven n d * d = (n % d : Nat) := by
    rw [hh, hn, add_sub_cancel_left]
  have hup (hh : halfEven n d = n / d + 1) : (n : ℤ) - halfEven n d * d = -(d - (n % d : Nat)) := by
    rw [hh, hn]
    push_cast
    ring
  rcases Nat.lt_trichotomy (2 * (n % d)) d with hless | hhalf | hmore
  · rw [hdown (by rw [halfEven, if_pos hless]), abs_of_nonneg (by omega)]
    omega
  · have heven : halfEven n d = n / d + n / d % 2 := by
      rw [halfEven, if_neg (by omega), if_neg (by omega)]
    refine ⟨?_, fun _ => by omega⟩
    rcases Nat.mod_two_eq_zero_or_one (n / d) with hbit | hbit
    · rw [hdown (by omega), abs_of_nonneg (by omega)]
      omega
    · rw [hup (by omega), abs_neg, abs_of_nonneg (by omega)]
      omega
  · rw [hup (by rw [halfEven, if_neg (by omega), if_pos hmore]), abs_neg, abs_of_nonneg (by omega)]
    omega

/-- The rounded quotient gives the nearest multiple. -/
theorem abs_sub_halfEven_mul_le (n : Nat) {d : Nat} (hd : 0 < d) (i : ℤ) :
    |(n : ℤ) - halfEven n d * d| ≤ |(n : ℤ) - i * d| ∧
      (|(n : ℤ) - halfEven n d * d| = |(n : ℤ) - i * d| → i = halfEven n d ∨ halfEven n d % 2 = 0) := by
  obtain ⟨herror, heven⟩ := two_mul_abs_sub_halfEven_mul_le n hd
  by_cases hi : i = halfEven n d
  · subst hi
    exact ⟨le_refl _, fun _ => .inl rfl⟩
  · -- Two multiples are at least one divisor apart.
    have hapart : (d : ℤ) ≤ |(n : ℤ) - i * d| + |(n : ℤ) - halfEven n d * d| :=
      calc (d : ℤ) ≤ |(halfEven n d : ℤ) - i| * d :=
            le_mul_of_one_le_left (by omega) (Int.one_le_abs (by omega))
        _ = |((n : ℤ) - i * d) - ((n : ℤ) - halfEven n d * d)| := by
            rw [← abs_of_nonneg (Int.natCast_nonneg d), ← abs_mul, abs_of_nonneg (Int.natCast_nonneg d)]
            congr 1
            ring
        _ ≤ |(n : ℤ) - i * d| + |(n : ℤ) - halfEven n d * d| := abs_sub _ _
    exact ⟨by omega, fun heq => .inr (heven (by omega))⟩

/-- A quotient is rounded to an even number from half a divisor before it on. -/
theorem halfEven_lt_iff (n : Nat) {d m : Nat} (hd : 0 < d) (hm : m % 2 = 0) :
    halfEven n d < m ↔ 2 * n + d < 2 * m * d := by
  obtain ⟨herror, heven⟩ := two_mul_abs_sub_halfEven_mul_le n hd
  have hlower := neg_abs_le ((n : ℤ) - halfEven n d * d)
  have hupper := le_abs_self ((n : ℤ) - halfEven n d * d)
  generalize |(n : ℤ) - halfEven n d * d| = error at herror heven hlower hupper
  rw [Nat.mul_assoc]
  have hcast : (halfEven n d : ℤ) * d = (halfEven n d * d : Nat) := by push_cast; rfl
  rw [hcast] at hlower hupper
  constructor
  · intro hlt
    have hmul := Nat.mul_le_mul_right d (show halfEven n d + 1 ≤ m from hlt)
    rw [Nat.succ_mul] at hmul
    by_cases hodd : 2 * error = d
    · -- Just a half is rounded to an even number, which is not the one before `m`.
      have heven := heven hodd
      have hmul := Nat.mul_le_mul_right d (show halfEven n d + 2 ≤ m by omega)
      rw [Nat.add_mul] at hmul
      omega
    · omega
  · intro hlt
    by_contra hle
    have hmul := Nat.mul_le_mul_right d (Nat.le_of_not_lt hle)
    omega

theorem nearestParts_value (n : Nat) (hn : 52 ≤ n.log2) :
    ((nearestParts n).1 : ℚ) * 2 ^ (nearestParts n).2 =
      halfEven n (2 ^ (n.log2 - 52)) * (2 ^ (n.log2 - 52) : Nat) := by
  have hexponent : (n.log2 : ℤ) - 52 = (n.log2 - 52 : Nat) := by omega
  rw [nearestParts, carried, hexponent]
  split
  · next hcarry =>
    rw [hcarry]
    dsimp only
    rw [zpow_add_one₀ two_ne_zero, zpow_natCast]
    push_cast
    ring
  · dsimp only
    rw [zpow_natCast]
    push_cast
    ring

theorem even_nearestParts {n : Nat} (h : halfEven n (2 ^ (n.log2 - 52)) % 2 = 0) :
    (nearestParts n).1 % 2 = 0 := by
  rw [nearestParts, carried]
  split
  · norm_num
  · exact h

/-- No finite double is nearer to a whole number than the one with its parts. -/
theorem abs_sub_nearestParts_le {n : Nat} (hn : 52 ≤ n.log2) {j : ℤ} (hj : |j| < 2 ^ 53) (e : ℤ) :
    |(n : ℚ) - (nearestParts n).1 * 2 ^ (nearestParts n).2| ≤ |(n : ℚ) - j * 2 ^ e| ∧
      (|(n : ℚ) - (nearestParts n).1 * 2 ^ (nearestParts n).2| = |(n : ℚ) - j * 2 ^ e| →
        (j : ℚ) * 2 ^ e = (nearestParts n).1 * 2 ^ (nearestParts n).2 ∨ (nearestParts n).1 % 2 = 0) := by
  have hpos := Nat.two_pow_pos (n.log2 - 52)
  have hmultiples (i : ℤ) := abs_sub_halfEven_mul_le n hpos i
  have hself := Nat.log2_self_le (ne_zero_of_le_log2 hn)
  have heven := even_nearestParts (n := n)
  rw [nearestParts_value n hn]
  rw [show n.log2 = 52 + (n.log2 - 52) by omega, Nat.pow_add] at hself
  generalize halfEven n (2 ^ (n.log2 - 52)) = h at hmultiples heven ⊢
  rcases le_or_gt ((n.log2 - 52 : Nat) : ℤ) e with hle | hlt
  · -- The double is a multiple of the power of two, too.
    obtain ⟨c, rfl⟩ := Int.le.dest hle
    have hdouble : (j : ℚ) * 2 ^ (((n.log2 - 52 : Nat) : ℤ) + c) =
        ((j * 2 ^ c : ℤ) : ℚ) * (2 ^ (n.log2 - 52) : Nat) := by
      rw [zpow_add₀ two_ne_zero, zpow_natCast, zpow_natCast]
      push_cast
      ring
    obtain ⟨hnear, htie⟩ := hmultiples (j * 2 ^ c)
    rw [hdouble]
    refine ⟨by exact_mod_cast hnear, fun heq => ?_⟩
    rcases htie (by exact_mod_cast heq) with hsame | hh
    · exact .inl (by rw [hsame, Int.cast_natCast])
    · exact .inr (heven hh)
  · -- The double is below all numbers with as many bits.
    have hbelow : (j : ℚ) * 2 ^ e < (2 ^ 52 : ℤ) * (2 ^ (n.log2 - 52) : Nat) := by
      have hj : (j : ℚ) < 2 ^ 53 := by exact_mod_cast (abs_lt.mp hj).2
      calc (j : ℚ) * 2 ^ e < 2 ^ 53 * 2 ^ e := by gcongr
        _ ≤ 2 ^ 53 * 2 ^ (((n.log2 - 52 : Nat) : ℤ) - 1) := by
            gcongr
            · exact one_le_two
            · omega
        _ = (2 ^ 52 : ℤ) * (2 ^ (n.log2 - 52) : Nat) := by
            rw [zpow_sub_one₀ two_ne_zero, zpow_natCast]
            push_cast
            ring
    have hleast : ((2 ^ 52 : ℤ) : ℚ) * (2 ^ (n.log2 - 52) : Nat) ≤ n := by exact_mod_cast hself
    have hnear : |(n : ℚ) - h * (2 ^ (n.log2 - 52) : Nat)| ≤
        |(n : ℚ) - (2 ^ 52 : ℤ) * (2 ^ (n.log2 - 52) : Nat)| := by
      have := Int.cast_le (R := ℚ).mpr (hmultiples (2 ^ 52)).1
      push_cast at this ⊢
      exact this
    rw [abs_of_nonneg (sub_nonneg.mpr hleast)] at hnear
    have hfar : |(n : ℚ) - h * (2 ^ (n.log2 - 52) : Nat)| < |(n : ℚ) - j * 2 ^ e| :=
      lt_of_le_of_lt hnear (lt_of_lt_of_le (by linarith) (le_abs_self _))
    exact ⟨hfar.le, fun heq => absurd heq hfar.ne⟩

/-- The exponent of the parts exceeds a bound for the numbers from half a unit before the next one on. -/
theorem exponent_nearestParts_le_iff {n : Nat} (hn : 52 ≤ n.log2) (k : Nat) :
    (nearestParts n).2 ≤ k ↔ (n : ℚ) < (2 ^ 53 - 1 / 2) * (2 ^ k : Nat) := by
  have hself := Nat.log2_self_le (ne_zero_of_le_log2 hn)
  have hsize := Nat.lt_log2_self (n := n)
  have hpos := Nat.two_pow_pos k
  have hbound (d : Nat) : (n : ℚ) < (2 ^ 53 - 1 / 2) * d ↔ 2 * n + d < 2 ^ 54 * d := by
    rw [← Nat.cast_lt (α := ℚ)]
    push_cast
    constructor <;> intro h <;> linarith
  rw [hbound, nearestParts, carried]
  rcases Nat.lt_trichotomy n.log2 (52 + k) with hless | hlast | hmore
  · have hpow : 2 ^ (n.log2 + 1) ≤ 2 ^ 52 * 2 ^ k := by
      rw [← Nat.pow_add]
      exact Nat.pow_le_pow_right (by decide) (by omega)
    refine iff_of_true ?_ (by omega)
    split <;> dsimp only <;> omega
  · -- With the last exponent the bound is exceeded only if rounding carries.
    obtain ⟨-, hupper⟩ := halfEven_bounds (show n.log2 = k + 52 by omega)
    rw [hlast, Nat.add_sub_cancel_left, show 2 ^ 54 = 2 * 2 ^ 53 from rfl,
      ← halfEven_lt_iff n hpos (by norm_num)]
    split <;> dsimp only <;> omega
  · have hpow : 2 ^ 53 * 2 ^ k ≤ 2 ^ n.log2 := by
      rw [← Nat.pow_add]
      exact Nat.pow_le_pow_right (by decide) (by omega)
    refine iff_of_false ?_ (by omega)
    split <;> dsimp only <;> omega

/-- The double of the parts of a whole number, with a sign. -/
def nearestWhole (negative : Bool) {n : Nat} (hn : 52 ≤ n.log2) : Float :=
  packed (.finite (sign negative) (nearestParts n).1 (nearestParts n).2 (nearestParts_pos hn))

section

variable {n : Nat} (hn : 52 ≤ n.log2)

include hn in
theorem isNormal_nearestParts (h : (nearestParts n).2 ≤ 971) :
    IsNormal (nearestParts n).1 (nearestParts n).2 := by
  obtain ⟨hlower, hupper⟩ := nearestParts_bounds hn
  have := le_exponent_nearestParts n
  exact ⟨hlower, hupper, by omega, h⟩

theorem neg_nearestWhole (negative : Bool) :
    -nearestWhole negative hn = nearestWhole (!negative) hn := by
  by_cases hle : (nearestParts n).2 ≤ 971
  · exact (isNormal_nearestParts hn hle).neg_packed negative
  · rw [nearestWhole, nearestWhole, packed_of_large _ (by omega), packed_of_large _ (by omega),
      neg_infinity]

/-- The parts of a whole number are those of the double nearest to it. -/
theorem isNearest_nearestWhole (negative : Bool) :
    IsNearest (signed negative n) (nearestWhole negative hn) := by
  by_cases hle : (nearestParts n).2 ≤ 971
  · rw [IsNearest, nearestWhole, (isNormal_nearestParts hn hle).parts_eq]
    refine ⟨?_, fun y w hw => ?_⟩
    · rw [abs_signed, Nat.abs_cast]
      exact (exponent_nearestParts_le_iff hn 971).mp hle
    · obtain ⟨j, e, hj, hdouble⟩ := exists_of_value? hw negative
      obtain ⟨hnear, htie⟩ := abs_sub_nearestParts_le hn hj e
      rw [abs_signed_sub, abs_signed_sub, signed_signed, hdouble]
      refine ⟨hnear, fun heq => (htie heq).imp_left fun hsame => ?_⟩
      rw [← signed_signed negative w, hdouble, hsame]
  · rw [IsNearest, nearestWhole, packed_of_large _ (by omega), parts_infinity]
    dsimp only
    rw [signed_signed]
    exact le_of_not_gt fun hlt => hle ((exponent_nearestParts_le_iff hn 971).mpr hlt)

end

end Binary64

/-! ### Whole decimals -/

namespace Decimal

open Binary64 Float.Model Float.Model.UnpackedFloat

theorem log2_aligned {n : Nat} (hn : n ≠ 0) (hlt : n < 2 ^ 53) :
    (n * 2 ^ (52 - n.log2)).log2 = 52 := by
  have := (Nat.log2_lt hn).mpr hlt
  rw [log2_mul_two_pow hn]
  omega

theorem isNormal_aligned {n : Nat} (hn : n ≠ 0) (hlt : n < 2 ^ 53) {e : Int}
    (he : -1074 ≤ e ∧ e ≤ 971) : IsNormal (n * 2 ^ (52 - n.log2)) e := by
  have hlog := log2_aligned hn hlt
  have hne : n * 2 ^ (52 - n.log2) ≠ 0 := Nat.mul_ne_zero hn (Nat.ne_of_gt (Nat.two_pow_pos _))
  exact ⟨(Nat.le_log2 hne).mp (by omega), (Nat.log2_lt hne).mp (by omega), he⟩

/-- The significand of a number of at most 53 bits is the number with zeros after it. -/
theorem toFloat_eq {n : Nat} (hn : n ≠ 0) (hlt : n < 2 ^ 53) :
    ∃ hpos, n.toUInt64.toFloat =
      packed (.finite .positive (n * 2 ^ (52 - n.log2)) (n.log2 - 52) hpos) := by
  have hlog := (Nat.log2_lt hn).mpr hlt
  have haligned := isNormal_aligned hn hlt (e := 0 - (52 - n.log2 : Nat)) (by omega)
  have hnat : n.toUInt64.toNat = n := by
    rw [Nat.toUInt64, UInt64.toNat_ofNat', Nat.mod_eq_of_lt (by omega)]
  have hcompare : compare (n : Int) 0 = .gt := compare_gt_iff_gt.mpr (by omega)
  have hshift : (0 - Format.binary64.targetExponent (totalExponent n 0)).toNat = 52 - n.log2 := by
    rw [targetExponent_eq]
    omega
  refine ⟨haligned.pos, ?_⟩
  change packed (UnpackedFloat.ofInt Format.binary64 (n.toUInt64.toNat : Nat)) = _
  rw [hnat, UnpackedFloat.ofInt, UnpackedFloat.normalize, hcompare]
  dsimp only
  rw [UnpackedFloat.round, Int.toNat_natCast, decreaseExponent]
  dsimp only
  rw [hshift, Nat.shiftLeft_eq, haligned.roundWithAccuracy_eq]
  exact congrArg packed (finite_eq rfl rfl (by omega))

/-- The powers of ten that are doubles. -/
theorem powerOfTen_eq : ∀ k : Fin 23, ∃ hpos, Float.exactlyRepresentablePowersOfTen[k] =
    packed (.finite .positive (5 ^ k.val * 2 ^ (52 - (5 ^ k.val).log2)) (k + (5 ^ k.val).log2 - 52)
      hpos) := by
  have hbits : ∀ k : Fin 23, ∃ hpos, Float.exactlyRepresentablePowersOfTen[k].toBits.toBitVec =
      UnpackedFloat.pack Format.binary64 (.finite .positive (5 ^ k.val * 2 ^ (52 - (5 ^ k.val).log2))
        (k + (5 ^ k.val).log2 - 52) hpos) := by
    decide
  intro k
  obtain ⟨hpos, heq⟩ := hbits k
  exact ⟨hpos, eq_of_bits (congrArg UInt64.ofBitVec heq)⟩

/-- The fast path: a number and a power of ten that are doubles are multiplied. -/
theorem toFloat_mul_powerOfTen {n : Nat} (hn : n ≠ 0) (hlt : n < 2 ^ 53) (k : Fin 23)
    (hlog : 52 ≤ (n * 10 ^ k.val).log2) :
    n.toUInt64.toFloat * Float.exactlyRepresentablePowersOfTen[k] = nearestWhole false hlog := by
  have hfive : 5 ^ k.val < 2 ^ 53 :=
    Nat.lt_of_le_of_lt (Nat.pow_le_pow_right (by decide) (by omega : k.val ≤ 22)) (by norm_num)
  have hfive' : 5 ^ k.val ≠ 0 := Nat.ne_of_gt (Nat.pow_pos (by decide))
  have hlogn := (Nat.log2_lt hn).mpr hlt
  have hlogfive := (Nat.log2_lt hfive').mpr hfive
  have hk := k.isLt
  obtain ⟨hpos, hleft⟩ := toFloat_eq hn hlt
  obtain ⟨hpos', hright⟩ := powerOfTen_eq k
  have hnormal := isNormal_aligned hn hlt (e := n.log2 - 52) (by omega)
  have hnormal' := isNormal_aligned hfive' hfive (e := k + (5 ^ k.val).log2 - 52) (by omega)
  have hproduct : n * 2 ^ (52 - n.log2) * (5 ^ k.val * 2 ^ (52 - (5 ^ k.val).log2)) * 2 ^ k.val =
      n * 10 ^ k.val * 2 ^ (52 - n.log2 + (52 - (5 ^ k.val).log2)) := by
    rw [show 10 = 2 * 5 from rfl, Nat.mul_pow, Nat.pow_add]
    ring
  have hbits : 52 ≤ (n * 2 ^ (52 - n.log2) * (5 ^ k.val * 2 ^ (52 - (5 ^ k.val).log2))).log2 := by
    refine (Nat.le_log2 (Nat.mul_ne_zero (Nat.ne_of_gt hpos) (Nat.ne_of_gt hpos'))).mpr ?_
    exact Nat.le_trans hnormal.lower (Nat.le_mul_of_pos_right _ hpos')
  have hround := roundWithAccuracy_whole .positive hlog hbits hproduct
  change packed (UnpackedFloat.mul Format.binary64 (Float.toModel _).unpack (Float.toModel _).unpack) = _
  rw [hleft, hright, hnormal.unpack_eq, hnormal'.unpack_eq, nearestWhole, sign, if_neg (by decide),
    ← hround]
  change packed (roundWithAccuracy _ _ _ _ _) = _
  congr 2
  omega

/-- The general path: a number and a power of ten are multiplied as they are. -/
theorem ofScientific_eq {n k : Nat} (hk : k ≤ 2048) (hlog : 52 ≤ (n * 10 ^ k).log2) :
    UnpackedFloat.ofScientific Format.binary64 n k =
      .finite .positive (nearestParts (n * 10 ^ k)).1 (nearestParts (n * 10 ^ k)).2
        (nearestParts_pos hlog) := by
  have hn : n ≠ 0 := by
    rintro rfl
    simp at hlog
  have hproduct : n * 2 ^ 53 * 10 ^ k * 2 ^ 0 = n * 10 ^ k * 2 ^ 53 := by ring
  have hbits : 52 ≤ (n * 2 ^ 53 * 10 ^ k).log2 := by
    rw [Nat.mul_right_comm, log2_mul_two_pow (ne_zero_of_le_log2 hlog)]
    omega
  have hround := roundWithAccuracy_whole .positive hlog hbits hproduct
  have hexponents : (2 : Int) ^ Format.binary64.exponentBits = 2048 := rfl
  rw [UnpackedFloat.ofScientific, dif_neg hn, if_neg (by omega), if_neg (by omega),
    if_pos (by omega), ← hround]
  change roundWithAccuracy _ _ (n <<< 53 * 10 ^ (k : Int).toNat) _ _ = _
  rw [Nat.shiftLeft_eq, Int.toNat_natCast]
  rfl

/-- A decimal is at least the power of ten that its number of digits tells. -/
theorem pow_le_of_lt_length {n k size : Nat} (hn : n ≠ 0)
    (h : size < (Nat.toDigits 10 n).length + k) : 10 ^ size ≤ n * 10 ^ k := by
  by_cases hlength : (Nat.toDigits 10 n).length = 1
  · calc 10 ^ size ≤ 10 ^ k := Nat.pow_le_pow_right (by decide) (by omega)
      _ ≤ n * 10 ^ k := Nat.le_mul_of_pos_left _ (Nat.pos_of_ne_zero hn)
  · have hpos := Nat.length_toDigits_pos (b := 10) (n := n)
    have hdigits := mt (Nat.length_toDigits_le_iff (b := 10) (n := n) (by decide)
      (show 0 < (Nat.toDigits 10 n).length - 1 by omega)).mpr (by omega)
    calc 10 ^ size ≤ 10 ^ ((Nat.toDigits 10 n).length - 1 + k) :=
          Nat.pow_le_pow_right (by decide) (by omega)
      _ = 10 ^ ((Nat.toDigits 10 n).length - 1) * 10 ^ k := Nat.pow_add _ _ _
      _ ≤ n * 10 ^ k := Nat.mul_le_mul_right _ (Nat.le_of_not_lt hdigits)

/-- A large whole decimal is read as the double of its parts. -/
theorem nearest_whole {n k : Nat} (hlog : 52 ≤ (n * 10 ^ k).log2) :
    nearest n k = nearestWhole false hlog := by
  have hn : n ≠ 0 := by
    rintro rfl
    simp at hlog
  have hcast : Int.ofNat k = k := rfl
  rw [← hcast, nearest, if_neg (by omega)]
  split
  · next hlarge =>
    have hlarge : 2 ^ 1024 ≤ n * 10 ^ k :=
      Nat.le_trans (by decide +kernel) (pow_le_of_lt_length hn (show 310 < _ by omega))
    have := (Nat.le_log2 (ne_zero_of_le_log2 hlog)).mpr hlarge
    have := le_exponent_nearestParts (n * 10 ^ k)
    exact (packed_of_large .positive (by omega) (nearestParts_pos hlog)).symm
  · next hsize =>
    rw [Float.ofScientific]
    split
    · next hfast => exact toFloat_mul_powerOfTen hn hfast.1 ⟨k, by omega⟩ hlog
    · exact congrArg packed (ofScientific_eq (by omega) hlog)

/-- A large whole decimal is read as the double nearest to it. -/
theorem isNearest_nearest (negative : Bool) {n k : Nat} (hlog : 52 ≤ (n * 10 ^ k).log2) :
    IsNearest (signed negative (n * 10 ^ k : Nat)) (if negative then -(nearest n k) else nearest n k) := by
  rw [nearest_whole hlog]
  cases negative
  · exact isNearest_nearestWhole hlog false
  · rw [if_pos rfl, neg_nearestWhole]
    exact isNearest_nearestWhole hlog true

end Decimal

end Formula
