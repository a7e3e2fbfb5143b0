import Formula.Proofs.Lowering.Widening
import Formula.Proofs.Value.Canonical

/-!
# What the sign of a zero can change

A table of literals may give back a zero of the other sign. No comparison tells the two zeros
apart, and no operator fails on the one and not on the other. Whether a head fails on given values
does not depend on the tolerance, the draws or the formatters either. The functions are blind to the
sign of a zero too: what they are at a zero does not rest on the mathematics of the platform, and is
finite for both zeros or for none.

## Main definitions

* `Value.UpToSign`: two values are the same, or both zeros.
* `Function.IsSignBlind`: whether a call fails does not depend on the signs of zeros.

## Main results

* `Comparison.apply_upToSign`: comparisons do not see the sign of a zero.
* `Function.isSignBlind`: deterministic functions are blind to the signs of zeros.
* `Head.isOk_run`: whether a head fails depends on nothing but the values up to the signs of zeros.
-/

namespace Formula

open Float.Model Float.Model.UnpackedFloat

/-! ### The order of doubles -/

namespace Binary64

theorem compare_zero_left (s s' : Sign) (u : UnpackedFloat) :
    (UnpackedFloat.zero s).compare u = (UnpackedFloat.zero s').compare u := by
  cases u with
  | notANumber => rfl
  | zero _ => rfl
  | infinity sign => cases sign <;> rfl
  | finite sign _ _ _ => cases sign <;> rfl

theorem compare_zero_right (s s' : Sign) (u : UnpackedFloat) :
    u.compare (UnpackedFloat.zero s) = u.compare (UnpackedFloat.zero s') := by
  cases u with
  | notANumber => rfl
  | zero _ => rfl
  | infinity sign => cases sign <;> rfl
  | finite sign _ _ _ => cases sign <;> rfl

theorem lt_iff_compare (x y : Float) :
    x < y ↔ x.toModel.unpack.compare y.toModel.unpack = some .lt := by
  change x.lt y = true ↔ _
  rw [Float.lt, decide_eq_true_iff]
  exact beq_iff_eq

theorem beq_eq_compare (x y : Float) :
    (x == y) = (x.toModel.unpack.compare y.toModel.unpack == some .eq) := rfl

/-- The order of two doubles is read off the comparison of what they are unpacked to. -/
theorem floatOrder?_congr {x y x' y' : Float}
    (h : x.toModel.unpack.compare y.toModel.unpack = x'.toModel.unpack.compare y'.toModel.unpack)
    (hswap : y.toModel.unpack.compare x.toModel.unpack =
      y'.toModel.unpack.compare x'.toModel.unpack) :
    Comparison.floatOrder? x y = Comparison.floatOrder? x' y' := by
  have hlt : x < y ↔ x' < y' := by rw [lt_iff_compare, lt_iff_compare, h]
  have hgt : y < x ↔ y' < x' := by rw [lt_iff_compare, lt_iff_compare, hswap]
  have heq : (x == y) = true ↔ (x' == y') = true := by rw [beq_eq_compare, beq_eq_compare, h]
  exact if_congr hlt rfl (if_congr hgt rfl (if_congr heq rfl rfl))

end Binary64

/-! ### Values up to the sign of a zero -/

/-- Two values are the same, or both are zeros of doubles. -/
inductive Value.UpToSign : Value → Value → Prop
  | refl (v : Value) : UpToSign v v
  | zero {x y : Float} (hx : (x == 0) = true) (hy : (y == 0) = true) :
      UpToSign (.numeric x) (.numeric y)

namespace Value.UpToSign

theorem of_canonical {v w : Value} (h : v.canonical = w.canonical) : UpToSign v w := by
  rcases eq_or_zeros_of_canonical h with rfl | ⟨rfl, rfl⟩ | ⟨rfl, rfl⟩
  · exact .refl v
  · exact .zero (by decide) (by decide)
  · exact .zero (by decide) (by decide)

theorem type_eq {v w : Value} (h : UpToSign v w) : v.type = w.type := by
  cases h <;> rfl

end Value.UpToSign

/-! ### Operators -/

namespace Comparison

/-- No comparison sees the sign of a zero. -/
theorem apply_upToSign {op : Comparison} {a a' b b' : Value} (ha : a.UpToSign a')
    (hb : b.UpToSign b') : (op.apply a b).toOption = (op.apply a' b').toOption := by
  have hleft {x x' : Float} (hx : (x == 0) = true) (hx' : (x' == 0) = true) (y : Float) :
      floatOrder? x y = floatOrder? x' y := by
    obtain ⟨s, hs⟩ := Binary64.unpack_zero_of_beq hx
    obtain ⟨s', hs'⟩ := Binary64.unpack_zero_of_beq hx'
    refine Binary64.floatOrder?_congr ?_ ?_ <;> rw [hs, hs']
    · exact Binary64.compare_zero_left ..
    · exact Binary64.compare_zero_right ..
  have hright {y y' : Float} (hy : (y == 0) = true) (hy' : (y' == 0) = true) (x : Float) :
      floatOrder? x y = floatOrder? x y' := by
    obtain ⟨s, hs⟩ := Binary64.unpack_zero_of_beq hy
    obtain ⟨s', hs'⟩ := Binary64.unpack_zero_of_beq hy'
    refine Binary64.floatOrder?_congr ?_ ?_ <;> rw [hs, hs']
    · exact Binary64.compare_zero_right ..
    · exact Binary64.compare_zero_left ..
  have hfirst : (op.apply a b).toOption = (op.apply a' b).toOption := by
    cases ha with
    | refl => rfl
    | zero hx hx' => cases b <;> simp only [apply, Value.number?, hleft hx hx'] <;> rfl
  have hsecond : (op.apply a' b).toOption = (op.apply a' b').toOption := by
    cases hb with
    | refl => rfl
    | zero hy hy' => cases a' <;> simp only [apply, Value.number?, hright hy hy'] <;> rfl
  exact hfirst.trans hsecond

end Comparison

/-! ### Failing -/

@[simp]
theorem isOk_lift {α : Type} (outcome : Except OperationFault α) :
    (Program.lift outcome).isOk = outcome.isOk := by
  cases outcome <;> rfl

namespace Operation

theorem isOk_inDoubles (op : Operation) (a b : Value)
    (f : Float → Float → Except OperationFault Float) :
    (op.inDoubles a b f).isOk = match a.number?, b.number? with
      | .ok x, .ok y => (f x y).isOk
      | _, _ => false := by
  rw [inDoubles]
  rcases a.number? with _ | x
  · rfl
  rcases b.number? with _ | y
  · rfl
  exact isOk_map (f x y) _

/-- Whether an operation fails depends neither on the formatters nor on the signs of zeros. -/
theorem isOk_apply (format format' : Value → String) {op : Operation} {a a' b b' : Value}
    (ha : a.UpToSign a') (hb : b.UpToSign b') :
    (op.apply format a b).isOk = (op.apply format' a' b').isOk := by
  have hformat : (op.apply format a b).isOk = (op.apply format' a b).isOk := by
    cases op <;> cases a <;> cases b <;> simp only [apply, isOk_ok]
  have hleft : (op.apply format' a b).isOk = (op.apply format' a' b).isOk := by
    cases ha with
    | refl => rfl
    | zero hx hx' =>
      cases op <;> cases b <;>
        simp only [apply, logic, shift, isOk_inDoubles, Value.number?, Value.integer?, isOk_ok,
          isOk_error]
      all_goals split <;> simp only [isOk_ok, isOk_error]
  have hright : (op.apply format' a' b).isOk = (op.apply format' a' b').isOk := by
    cases hb with
    | refl => rfl
    | zero hy hy' =>
      cases op <;> cases a' <;>
        simp only [apply, logic, shift, isOk_inDoubles, Value.number?, Value.integer?, isOk_ok,
          isOk_error, hy, hy', if_true]
  exact hformat.trans (hleft.trans hright)

end Operation

theorem UnaryOp.isOk_apply {op : UnaryOp} {a a' : Value} (ha : a.UpToSign a') :
    (op.apply a).isOk = (op.apply a').isOk := by
  cases ha with
  | refl => rfl
  | zero hx hx' => cases op <;> simp only [apply, isOk_ok, isOk_error]

/-- Whether a comparison fails does not depend on an allowance. -/
theorem Environment.isOk_comparison (env env' : Environment) (tolerant tolerant' : Bool)
    {op : Comparison} {a a' b b' : Value} (ha : a.UpToSign a') (hb : b.UpToSign b') :
    (env.comparison op tolerant a b).isOk = (env'.comparison op tolerant' a' b').isOk := by
  have hexact (kind : Tolerance.Kind) (a b : Value) :
      (op.applyWithin kind a b).isOk = (op.apply a b).isOk := by
    rw [Comparison.applyWithin]
    split
    · next x y hx hy =>
      have ha : (∃ i, a = .integer i) ∨ ∃ x, a = .numeric x := by
        cases a <;> simp [Value.number?] at hx ⊢
      have hb : (∃ i, b = .integer i) ∨ ∃ x, b = .numeric x := by
        cases b <;> simp [Value.number?] at hy ⊢
      rcases ha with ⟨i, rfl⟩ | ⟨x, rfl⟩ <;> rcases hb with ⟨j, rfl⟩ | ⟨y, rfl⟩ <;>
        simp only [Comparison.apply, Value.number?] <;> first | rfl | split <;> rfl
    · rfl
  have hplain (env : Environment) (tolerant : Bool) (a b : Value) :
      (env.comparison op tolerant a b).isOk = (op.apply a b).isOk := by
    unfold Environment.comparison
    split
    · exact hexact _ a b
    · rfl
  rw [hplain, hplain, isOk_eq_isSome, isOk_eq_isSome, Comparison.apply_upToSign ha hb]

/-! ### Functions -/

namespace Function

/-- Whether a call fails does not depend on the signs of zeros among its arguments. -/
def IsSignBlind (f : Function) : Prop :=
  ∀ draw values values', List.Forall₂ Value.UpToSign values values' →
    (f.eval draw values).isOk = (f.eval draw values').isOk

/-- What holds of both zeros does not depend on their signs. -/
theorem eq_of_zeros {α : Type} {f : Float → α} (h : f 0 = f (-0)) {x y : Float}
    (hx : (x == 0) = true) (hy : (y == 0) = true) : f x = f y := by
  rcases Binary64.eq_zero_or_of_beq hx with rfl | rfl <;>
    rcases Binary64.eq_zero_or_of_beq hy with rfl | rfl <;>
    first | rfl | exact h | exact h.symm

theorem isOk_choose (onInteger : Int64 → Int64 → Int64) (onDouble : Float → Float → Float)
    (a b : Value) :
    (choose onInteger onDouble a b).isOk = ((asNumeric a).isOk && (asNumeric b).isOk) := by
  cases a <;> cases b <;> rfl

theorem isOk_finite (x : Float) : (finite x).isOk = x.isFinite := by
  rw [finite]
  cases x.isFinite <;> rfl

/-- A function of one double does not fail at one zero only. -/
theorem isFinite_apply_zeros (g : RealFunction) : (g.apply 0).isFinite = (g.apply (-0)).isFinite := by
  cases g <;> decide

/-- The two zeros are rounded to themselves. -/
theorem isFinite_round_zeros (r : Rounding) : (r.apply 0).isFinite = (r.apply (-0)).isFinite := by
  cases r <;> decide

/-- A power of a zero is finite or not whatever the sign of the zero is. -/
theorem isFinite_power_left (y : Float) :
    (Binary64.power 0 y).isFinite = (Binary64.power (-0) y).isFinite := by
  have hzero : ((0 : Float) == 0) = true := by decide
  have hnegative : ((-0 : Float) == 0) = true := by decide
  simp only [Binary64.power, Binary64.powerOfZero, hzero, hnegative, if_true]
  split
  · rfl
  split
  · split <;> decide
  split
  · split <;> decide
  · rfl

/-- The power of a double to a zero is one. -/
theorem isFinite_power_right (x : Float) :
    (Binary64.power x 0).isFinite = (Binary64.power x (-0)).isFinite := by
  have hzero : ((0 : Float) == 0) = true := by decide
  have hnegative : ((-0 : Float) == 0) = true := by decide
  simp only [Binary64.power, hzero, hnegative, if_true]

/-- The angle of a point on the first axis is finite, if the point is a number. -/
theorem isFinite_angle_left (x : Float) :
    (Binary64.angle 0 x).isFinite = (Binary64.angle (-0) x).isFinite := by
  have hzero : ((0 : Float) == 0) = true := by decide
  have hnegative : ((-0 : Float) == 0) = true := by decide
  simp only [Binary64.angle, hzero, hnegative, if_true]
  split
  · rfl
  split <;> decide

/-- The angle of a point on the second axis is finite, if the point is a number. -/
theorem isFinite_angle_right (y : Float) :
    (Binary64.angle y 0).isFinite = (Binary64.angle y (-0)).isFinite := by
  have hzero : ((0 : Float) == 0) = true := by decide
  have hnegative : ((-0 : Float) == 0) = true := by decide
  by_cases hy : (y == 0) = true
  · rcases Binary64.eq_zero_or_of_beq hy with rfl | rfl <;> decide
  · simp only [Binary64.angle, hy, hzero, hnegative, if_true, Bool.false_eq_true, if_false]

/-- The powers of ten that rounding to digits scales by keep zeros zeros. -/
theorem scaled_zeros : ∀ n ≤ 15, ∀ scale ∈ [Float.ofScientific 1 false n,
    1 / Float.ofScientific 1 false n], ∀ zero ∈ [(0 : Float), -0],
      (zero * scale == 0) = true ∧ (zero / scale).isFinite = true := by
  decide

/-- A zero is rounded to a finite number of digits, whatever its sign is. -/
theorem isFinite_round_scaled {scale zero : Float} {n : Nat} (hn : n ≤ 15)
    (hscale : scale ∈ [Float.ofScientific 1 false n, 1 / Float.ofScientific 1 false n])
    (hzero : zero ∈ [(0 : Float), -0]) :
    (Rounding.round.apply (zero * scale) / scale).isFinite = true := by
  have hround : Rounding.round.apply 0 = 0 ∧ Rounding.round.apply (-0) = -0 := by decide
  rcases Binary64.eq_zero_or_of_beq (scaled_zeros n hn scale hscale zero hzero).1 with h | h
  · rw [h, hround.1]
    exact (scaled_zeros n hn scale hscale 0 (by simp)).2
  · rw [h, hround.2]
    exact (scaled_zeros n hn scale hscale (-0) (by simp)).2

theorem isOk_roundTo_zeros (digits : Int64) : (roundTo 0 digits).isOk = (roundTo (-0) digits).isOk := by
  rw [roundTo, roundTo]
  dsimp only
  split
  · next hrange =>
    have hn : digits.toInt.natAbs ≤ 15 := by omega
    rw [isOk_finite, isOk_finite, isFinite_round_scaled hn (by split <;> simp) (by simp),
      isFinite_round_scaled hn (by split <;> simp) (by simp)]
  · rfl

theorem isOk_roundDigits {x x' digits digits' : Value} (hx : x.UpToSign x')
    (hdigits : digits.UpToSign digits') :
    (asNumeric x >>= fun x => asInteger digits >>= roundTo x).isOk =
      (asNumeric x' >>= fun x => asInteger digits' >>= roundTo x).isOk := by
  have hfirst : (asNumeric x >>= fun x => asInteger digits >>= roundTo x).isOk =
      (asNumeric x' >>= fun x => asInteger digits >>= roundTo x).isOk := by
    cases hx with
    | refl => rfl
    | zero hx hx' =>
      refine isOk_bind_congr (asInteger digits) fun n => ?_
      exact eq_of_zeros (f := fun x => (roundTo x n).isOk) (isOk_roundTo_zeros n) hx hx'
  refine hfirst.trans (isOk_bind_congr (asNumeric x') fun x => ?_)
  cases hdigits <;> rfl

/-- A function of two doubles that fails at neither or both zeros in each place. -/
theorem isOk_finite_upToSign {g : Float → Float → Float}
    (hleft : ∀ y, (g 0 y).isFinite = (g (-0) y).isFinite)
    (hright : ∀ x, (g x 0).isFinite = (g x (-0)).isFinite) {a a' b b' : Value}
    (ha : a.UpToSign a') (hb : b.UpToSign b') :
    (do finite (g (← asNumeric a) (← asNumeric b)) : Outcome Value).isOk =
      (do finite (g (← asNumeric a') (← asNumeric b')) : Outcome Value).isOk := by
  have hfirst : (do finite (g (← asNumeric a) (← asNumeric b)) : Outcome Value).isOk =
      (do finite (g (← asNumeric a') (← asNumeric b)) : Outcome Value).isOk := by
    cases ha with
    | refl => rfl
    | zero hx hx' =>
      refine isOk_bind_congr (asNumeric b) fun y => ?_
      rw [isOk_finite, isOk_finite]
      exact eq_of_zeros (f := fun x => (g x y).isFinite) (hleft y) hx hx'
  refine hfirst.trans (isOk_bind_congr (asNumeric a') fun x => ?_)
  cases hb with
  | refl => rfl
  | zero hy hy' =>
    change (finite (g x _)).isOk = (finite (g x _)).isOk
    rw [isOk_finite, isOk_finite]
    exact eq_of_zeros (f := fun y => (g x y).isFinite) (hright x) hy hy'

/-- A deterministic function is blind to the signs of zeros. -/
theorem isSignBlind {f : Function} (hdeterministic : f.isDeterministic = true) : f.IsSignBlind := by
  intro draw values values' h
  match values, values', h with
  | [], [], .nil => rfl
  | [_], [_], .cons (.refl a) .nil => rfl
  | [_], [_], .cons (.zero hx hy) .nil =>
    refine eq_of_zeros (f := fun x => (f.eval draw [.numeric x]).isOk) ?_ hx hy
    cases f with
    | real g =>
      change (finite (g.apply 0)).isOk = (finite (g.apply (-0))).isOk
      rw [isOk_finite, isOk_finite, isFinite_apply_zeros]
    | rounding r =>
      change (finite (r.apply 0)).isOk = (finite (r.apply (-0))).isOk
      rw [isOk_finite, isOk_finite, isFinite_round_zeros]
    | abs | sign => simp only [eval]; decide
    | randomBelow | randomIntegerBelow => cases hdeterministic
    | _ => rfl
  | [a, _], [_, _], .cons ha (.cons hb .nil) =>
    cases f with
    | log =>
      have hlog : RealFunction.ln.apply 0 = RealFunction.ln.apply (-0) := by decide
      exact isOk_finite_upToSign (g := fun x base => RealFunction.ln.apply x / RealFunction.ln.apply base)
        (fun y => by rw [hlog]) (fun x => by rw [hlog]) ha hb
    | pow => exact isOk_finite_upToSign isFinite_power_left isFinite_power_right ha hb
    | atan2 => exact isOk_finite_upToSign isFinite_angle_left isFinite_angle_right ha hb
    | roundDigits => exact isOk_roundDigits ha hb
    | randomBetween | randomIntegerBetween => cases hdeterministic
    | min | max =>
      have hnumeric {a a' : Value} (ha : a.UpToSign a') :
          (asNumeric a).isOk = (asNumeric a').isOk := by
        cases ha <;> rfl
      simp only [eval, isOk_choose, hnumeric ha, hnumeric hb]
    | trimSet | trimBody | substr =>
      cases ha with
      | zero => cases hb <;> rfl
      | refl =>
        cases hb with
        | refl => rfl
        | zero => cases a <;> rfl
    | _ => rfl
  | [_, _, _], [_, _, _], .cons ha (.cons hb (.cons hc .nil)) =>
    cases f with
    | substrLength | replace =>
      cases ha with
      | zero => rfl
      | refl =>
        refine isOk_bind_congr _ fun _ => ?_
        cases hb with
        | zero => rfl
        | refl =>
          refine isOk_bind_congr _ fun _ => ?_
          cases hc <;> rfl
    | _ => rfl
  | _ :: _ :: _ :: _ :: _, _ :: _ :: _ :: _ :: _, .cons _ (.cons _ (.cons _ (.cons _ _))) =>
    cases f <;> rfl

end Function

/-! ### Heads -/

/-- Whether a head fails depends on nothing but the values, and not on the signs of zeros. -/
theorem Head.isOk_run (env env' : Environment) (tolerant tolerant' : Bool) (draw : UInt64)
    {head : Head} (hdeterministic : ∀ f, head = .call f → f.isDeterministic = true)
    {values values' : List Value} (h : List.Forall₂ Value.UpToSign values values') :
    (head.run env tolerant draw values).isOk = (head.run env' tolerant' draw values').isOk := by
  match head with
  | .unary op =>
    rcases h with _ | ⟨ha, _ | _⟩ <;> simp only [run, isOk_lift, isOk_error]
    exact UnaryOp.isOk_apply ha
  | .binary op =>
    rcases h with _ | ⟨ha, _ | ⟨hb, _ | _⟩⟩ <;> cases op <;>
      simp only [run, isOk_lift, isOk_map, isOk_error]
    · exact Operation.isOk_apply _ _ ha hb
    · exact env.isOk_comparison env' tolerant tolerant' ha hb
  | .call f =>
    have hcall (env : Environment) (tolerant : Bool) (values : List Value) :
        ((Head.call f).run env tolerant draw values).isOk = (f.eval draw values).isOk := by
      rw [run]
      cases f.eval draw values <;> rfl
    rw [hcall, hcall]
    exact f.isSignBlind (hdeterministic f rfl) draw values values' h

end Formula
