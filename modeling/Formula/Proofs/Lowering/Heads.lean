import Formula.Proofs.Lowering.Meaning

/-!
# Heads keep what their overloads promise

Applied to values of the argument types of one of its overloads, a head gives a value of the
result type of that overload, or fails for a reason that lies in the values and not in their types:
integer arithmetic that overflows, a division by zero, or a value outside the domain of a function.

## Main definitions

* `OperationFault.isArithmetic`, `FunctionFault.isDomain`, `MachineFault.isDynamic`: faults that
  well-typed values can lead to.
* `Fits`: an outcome is a value of a given type or an admitted fault.

## Main results

* `Operation.fits_apply`, `UnaryOp.fits_apply`, `Comparison.fits_apply`, `Function.fits_eval`.
* `Head.fits_run`: all of them together.
-/

namespace Formula

/-- Whether integers that are too large or a divisor that is zero are to blame. -/
def OperationFault.isArithmetic : OperationFault → Bool
  | overflow _ _ _ | negationOverflow _ | divisionByZero => true
  | _ => false

/-- Whether the values of the arguments are to blame, and neither their number nor their types. -/
def FunctionFault.isDomain : FunctionFault → Bool
  | argumentCount _ | argumentKind _ _ => false
  | _ => true

/-- Whether a program whose types are right can end this way. -/
def MachineFault.isDynamic : MachineFault → Bool
  | registerLimitExceeded => true
  | operationFailed fault => fault.isArithmetic
  | functionFailed _ fault => fault.isDomain
  | _ => false

/-- The outcome is a value of the type `t`, or a fault that is admitted. -/
def Fits {ε : Type} (admitted : ε → Bool) (t : ValueType) : Except ε Value → Prop
  | .ok v => v.type = t
  | .error fault => admitted fault = true

theorem fits_lift {t : ValueType} {outcome : Except OperationFault Value}
    (h : Fits OperationFault.isArithmetic t outcome) :
    Fits MachineFault.isDynamic t (Program.lift outcome) := by
  cases outcome <;> exact h

/-! ### Values of a type -/

namespace Value

theorem type_ne_unknown (v : Value) : v.type ≠ .unknown := by
  cases v <;> simp [type]

theorem type_eq_integer_iff {v : Value} : v.type = .integer ↔ ∃ i, v = .integer i := by
  cases v <;> simp [type]

theorem type_eq_numeric_iff {v : Value} : v.type = .numeric ↔ ∃ x, v = .numeric x := by
  cases v <;> simp [type]

theorem type_eq_string_iff {v : Value} : v.type = .string ↔ ∃ s, v = .string s := by
  cases v <;> simp [type]

theorem type_eq_bytes_iff {v : Value} : v.type = .bytes ↔ ∃ bs, v = .bytes bs := by
  cases v <;> simp [type]

end Value

/-! ### Operators -/

namespace Operation

theorem fits_exactly (op : Operation) (x y : Int64) (result : Option Int64) :
    Fits OperationFault.isArithmetic .integer (exactly op x y result) := by
  cases result <;> rfl

theorem fits_inDoubles {op : Operation} {a b : Value}
    {f : Float → Float → Except OperationFault Float} (ha : a.type = .numeric)
    (hb : b.type = .numeric)
    (hf : ∀ x y fault, f x y = .error fault → fault.isArithmetic = true) :
    Fits OperationFault.isArithmetic .numeric (inDoubles op a b f) := by
  obtain ⟨x, rfl⟩ := Value.type_eq_numeric_iff.mp ha
  obtain ⟨y, rfl⟩ := Value.type_eq_numeric_iff.mp hb
  simp only [inDoubles, Value.number?]
  cases h : f x y with
  | error fault => exact hf x y fault h
  | ok r => rfl

/-- A quotient in doubles can only fail by a zero divisor. -/
theorem isArithmetic_of_guarded {f : Float → Float → Float} (x y : Float) (fault : OperationFault)
    (h : (if y == 0 then .error .divisionByZero else .ok (f x y)) =
      (.error fault : Except OperationFault Float)) : fault.isArithmetic = true := by
  split at h
  · obtain rfl := Except.error.inj h
    rfl
  · simp at h

theorem fits_apply (format : Value → String) {op : Operation} {a b : Value} {t : ValueType}
    (h : op.result? a.type b.type = some t) :
    Fits OperationFault.isArithmetic t (op.apply format a b) := by
  cases op <;> cases a <;> cases b <;> simp [result?, Value.type] at h <;> subst h
  case divide.numeric.numeric x y =>
    simp only [apply]
    exact fits_inDoubles rfl rfl isArithmetic_of_guarded
  case modulo.numeric.numeric x y =>
    simp only [apply]
    exact fits_inDoubles rfl rfl isArithmetic_of_guarded
  case modulo.integer.integer x y =>
    simp only [apply]
    split
    · rfl
    · exact fits_exactly _ _ _ _
  -- What is left overflows or not, stays in doubles, or cannot fail.
  all_goals
    first
      | exact fits_exactly _ _ _ _
      | exact fits_inDoubles rfl rfl (by simp)
      | rfl

end Operation

theorem UnaryOp.fits_apply {op : UnaryOp} {a : Value} {t : ValueType}
    (h : op.result? a.type = some t) :
    Fits OperationFault.isArithmetic t (op.apply a) := by
  cases op <;> cases a <;> simp [UnaryOp.result?, Value.type] at h <;> subst h
  case negate.integer x =>
    simp only [UnaryOp.apply]
    cases Word.neg? x <;> rfl
  all_goals rfl

namespace Comparison

/-- A comparison of values it has a result type for does not fail. -/
theorem exists_apply {op : Comparison} {a b : Value} {t : ValueType}
    (h : op.result? a.type b.type = some t) : ∃ r, op.apply a b = .ok r := by
  simp only [result?, Option.ite_none_right_eq_some] at h
  obtain ⟨⟨htype, -, hbool⟩, -⟩ := h
  cases a <;> cases b <;> simp only [Value.type, reduceCtorEq] at htype
  case boolean.boolean x y =>
    rcases hbool rfl with rfl | rfl
    · exact ⟨_, rfl⟩
    · exact ⟨_, rfl⟩
  case numeric.numeric x y =>
    simp only [apply, Value.number?]
    cases floatOrder? x y <;> exact ⟨_, rfl⟩
  all_goals exact ⟨_, rfl⟩

theorem exists_applyWithin {op : Comparison} (kind : Tolerance.Kind) {a b : Value} {t : ValueType}
    (h : op.result? a.type b.type = some t) : ∃ r, op.applyWithin kind a b = .ok r := by
  rw [applyWithin]
  split
  · exact ⟨_, rfl⟩
  · exact exists_apply h

theorem fits_comparison (env : Environment) (tolerant : Bool) {op : Comparison} {a b : Value}
    {t : ValueType} (h : op.result? a.type b.type = some t) :
    Fits OperationFault.isArithmetic t ((env.comparison op tolerant a b).map Value.boolean) := by
  have ht : t = .boolean := by
    simp only [result?, Option.ite_none_right_eq_some, Option.some.injEq] at h
    exact h.2.symm
  have hok : ∃ r, env.comparison op tolerant a b = .ok r := by
    unfold Environment.comparison
    split
    · exact exists_applyWithin _ h
    · exact exists_apply h
  obtain ⟨r, hr⟩ := hok
  rw [hr, ht]
  rfl

end Comparison

/-! ### Functions -/

namespace Function

theorem fits_finite (x : Float) : Fits FunctionFault.isDomain .numeric (finite x) := by
  rw [finite]
  split <;> rfl

theorem fits_roundTo (x : Float) (digits : Int64) :
    Fits FunctionFault.isDomain .numeric (roundTo x digits) := by
  simp only [roundTo]
  split
  · exact fits_finite _
  · rfl

theorem fits_drawDouble (draw : UInt64) (low high : Float) :
    Fits FunctionFault.isDomain .numeric (drawDouble draw low high) := by
  rw [drawDouble]
  split <;> rfl

theorem fits_drawInteger (draw : UInt64) (low high : Int64) :
    Fits FunctionFault.isDomain .integer (drawInteger draw low high) := by
  rw [drawInteger]
  split <;> rfl

theorem fits_keepingKind_integer (onInteger : Int64 → Option Int64) (onDouble : Float → Float)
    (i : Int64) :
    Fits FunctionFault.isDomain .integer (keepingKind onInteger onDouble (.integer i)) := by
  simp only [keepingKind]
  cases onInteger i <;> rfl

theorem fits_signOf_numeric (x : Float) :
    Fits FunctionFault.isDomain .integer (signOf (.numeric x)) := by
  simp only [signOf, asNumeric, Value.number?, ok_bind]
  split <;> rfl

/-- A start index is a natural number, or a negative integer is to blame. -/
theorem startIndex_integer (i : Int64) :
    startIndex (.integer i) = .error .negativeStart ∨ ∃ n, startIndex (.integer i) = .ok n := by
  simp only [startIndex, asInteger, ok_bind]
  split
  · exact .inl rfl
  · exact .inr ⟨_, rfl⟩

/-- A function keeps what its overloads promise. -/
theorem fits_eval {f : Function} {s : Signature} (hs : s ∈ f.signatures) (draw : UInt64)
    {values : List Value} (hvalues : values.map Value.type = s.args) :
    Fits FunctionFault.isDomain s.result (f.eval draw values) := by
  cases f <;> simp only [signatures, List.mem_cons, List.not_mem_nil, or_false] at hs <;>
    (try rcases hs with rfl | rfl) <;>
    simp only [List.map_eq_cons_iff, List.map_eq_nil_iff, Value.type_eq_integer_iff,
      Value.type_eq_numeric_iff, Value.type_eq_string_iff, Value.type_eq_bytes_iff] at hvalues
  case real | rounding.inr | abs.inr =>
    obtain ⟨_, _, rfl, ⟨x, rfl⟩, rfl⟩ := hvalues
    exact fits_finite _
  case rounding.inl | abs.inl =>
    obtain ⟨_, _, rfl, ⟨i, rfl⟩, rfl⟩ := hvalues
    simp only [eval]
    exact fits_keepingKind_integer _ _ i
  case sign.inr =>
    obtain ⟨_, _, rfl, ⟨x, rfl⟩, rfl⟩ := hvalues
    exact fits_signOf_numeric x
  case log | pow | atan2 =>
    obtain ⟨_, _, rfl, ⟨x, rfl⟩, _, _, rfl, ⟨y, rfl⟩, rfl⟩ := hvalues
    exact fits_finite _
  case roundDigits =>
    obtain ⟨_, _, rfl, ⟨x, rfl⟩, _, _, rfl, ⟨digits, rfl⟩, rfl⟩ := hvalues
    exact fits_roundTo x digits
  case randomBelow =>
    obtain ⟨_, _, rfl, ⟨x, rfl⟩, rfl⟩ := hvalues
    exact fits_drawDouble draw 0 x
  case randomBetween =>
    obtain ⟨_, _, rfl, ⟨x, rfl⟩, _, _, rfl, ⟨y, rfl⟩, rfl⟩ := hvalues
    exact fits_drawDouble draw x y
  case randomInteger =>
    subst hvalues
    exact fits_drawInteger draw 0 2147483647
  case randomIntegerBelow =>
    obtain ⟨_, _, rfl, ⟨i, rfl⟩, rfl⟩ := hvalues
    exact fits_drawInteger draw 0 i
  case randomIntegerBetween =>
    obtain ⟨_, _, rfl, ⟨i, rfl⟩, _, _, rfl, ⟨j, rfl⟩, rfl⟩ := hvalues
    exact fits_drawInteger draw i j
  case substr =>
    obtain ⟨_, _, rfl, ⟨text, rfl⟩, _, _, rfl, ⟨i, rfl⟩, rfl⟩ := hvalues
    simp only [eval, asText, ok_bind]
    rcases startIndex_integer i with h | ⟨n, h⟩ <;> rw [h] <;> rfl
  case substrLength =>
    obtain ⟨_, _, rfl, ⟨text, rfl⟩, _, _, rfl, ⟨i, rfl⟩, _, _, rfl, ⟨count, rfl⟩, rfl⟩ := hvalues
    simp only [eval, asText, asInteger, ok_bind]
    rcases startIndex_integer i with h | ⟨n, h⟩
    · rw [h]
      rfl
    · rw [h, ok_bind]
      split <;> rfl
  -- The others cannot fail on arguments of these types.
  case random =>
    subst hvalues
    rfl
  case sign.inl | length.inl | length.inr | trim =>
    obtain ⟨_, _, rfl, ⟨a, rfl⟩, rfl⟩ := hvalues
    rfl
  case min.inl | min.inr | max.inl | max.inr | trimSet | trimBody =>
    obtain ⟨_, _, rfl, ⟨a, rfl⟩, _, _, rfl, ⟨b, rfl⟩, rfl⟩ := hvalues
    rfl
  case replace =>
    obtain ⟨_, _, rfl, ⟨a, rfl⟩, _, _, rfl, ⟨b, rfl⟩, _, _, rfl, ⟨c, rfl⟩, rfl⟩ := hvalues
    rfl

end Function

/-! ### Heads -/

/-- The types that an overload of an operator asks of its operands are types it works on. -/
theorem BinaryOp.result?_of_mem {op : BinaryOp} {s : Signature} (hs : s ∈ op.signatures) :
    ∃ l r, s.args = [l, r] ∧ op.result? l r = some s.result := by
  obtain ⟨l, -, h⟩ := List.mem_flatMap.mp hs
  obtain ⟨r, -, h⟩ := List.mem_filterMap.mp h
  obtain ⟨t, ht, rfl⟩ := Option.map_eq_some_iff.mp h
  exact ⟨l, r, rfl, ht⟩

theorem UnaryOp.result?_of_mem {op : UnaryOp} {s : Signature} (hs : s ∈ op.signatures) :
    ∃ t, s.args = [t] ∧ op.result? t = some s.result := by
  obtain ⟨t, -, h⟩ := List.mem_filterMap.mp hs
  obtain ⟨r, hr, rfl⟩ := Option.map_eq_some_iff.mp h
  exact ⟨t, rfl, hr⟩

/-- A head keeps what its overloads promise. -/
theorem Head.fits_run (env : Environment) (tolerant : Bool) (draw : UInt64) {head : Head}
    {operands : Nat} {s : Signature} (hs : s ∈ head.signatures operands) {values : List Value}
    (hvalues : values.map Value.type = s.args) :
    Fits MachineFault.isDynamic s.result (head.run env tolerant draw values) := by
  match head with
  | .unary op =>
    obtain ⟨t, hargs, hresult⟩ := UnaryOp.result?_of_mem hs
    rw [hargs] at hvalues
    obtain ⟨a, _, rfl, rfl, hnil⟩ := List.map_eq_cons_iff.mp hvalues
    obtain rfl := List.map_eq_nil_iff.mp hnil
    exact fits_lift (UnaryOp.fits_apply hresult)
  | .binary op =>
    obtain ⟨l, r, hargs, hresult⟩ := BinaryOp.result?_of_mem hs
    rw [hargs] at hvalues
    obtain ⟨a, _, rfl, rfl, htail⟩ := List.map_eq_cons_iff.mp hvalues
    obtain ⟨b, _, rfl, rfl, hnil⟩ := List.map_eq_cons_iff.mp htail
    obtain rfl := List.map_eq_nil_iff.mp hnil
    cases op with
    | operate op => exact fits_lift (Operation.fits_apply _ hresult)
    | compare op => exact fits_lift (Comparison.fits_comparison env tolerant hresult)
  | .call f =>
    have h := Function.fits_eval (List.mem_filter.mp hs).1 draw hvalues
    rw [run]
    revert h
    cases f.eval draw values <;> exact id

end Formula
