import Formula.Proofs.Lowering.Natural

/-!
# Widened operands

An operand that is not of the argument type of the overload is an integer that is made into a
numeric. A head does the same on the numeric as on the integer, since numbers meet as doubles unless
all of them are integers, and all integers are taken as they are wherever that makes a difference.

## Main definitions

* `Value.Widening`: a value is kept, or is an integer made into a numeric.

## Main results

* `Head.run_widening`: operands widened for the natural overload give what the operands
  themselves give.
-/

namespace Formula

/-- A value is kept, or is an integer made into a numeric. -/
inductive Value.Widening : Value → Value → Prop
  | keep (v : Value) : Widening v v
  | widen (i : Int64) : Widening (.integer i) (.numeric (Binary64.ofInteger i))

namespace Value.Widening

theorem of_convert {v w : Value} {t : ValueType} (h : v.convert t = .ok w) : Widening v w := by
  unfold convert at h
  split at h
  · cases h
    exact .keep v
  · split at h
    · cases h
      exact .widen _
    · cases h

theorem number?_eq {v w : Value} (h : Widening v w) : w.number? = v.number? := by
  cases h <;> rfl

theorem eq_of_type_eq {v w : Value} (h : Widening v w) (htype : w.type = v.type) : w = v := by
  cases h with
  | keep => rfl
  | widen i => cases htype

theorem exists_of_numeric {v w : Value} (h : Widening v w) (htype : w.type = .numeric) :
    (∃ i, v = .integer i ∧ w = .numeric (Binary64.ofInteger i)) ∨ ∃ x, v = .numeric x ∧ w = v := by
  cases h with
  | keep => exact .inr ((type_eq_numeric_iff.mp htype).imp fun x hx => ⟨hx, rfl⟩)
  | widen i => exact .inl ⟨i, rfl, rfl⟩

theorem eq_of_map_type_eq {values widened : List Value} (h : List.Forall₂ Widening values widened)
    (htypes : widened.map type = values.map type) : widened = values := by
  induction h with
  | nil => rfl
  | cons hv _ ih =>
    simp only [List.map_cons, List.cons.injEq] at htypes
    rw [hv.eq_of_type_eq htypes.1, ih htypes.2]

theorem eq_of_numeric_notMem {values widened : List Value}
    (h : List.Forall₂ Widening values widened) (hnumeric : .numeric ∉ widened.map type) :
    widened = values := by
  refine eq_of_map_type_eq h ?_
  induction h with
  | nil => rfl
  | cons hv _ ih =>
    simp only [List.map_cons, List.mem_cons, not_or] at hnumeric ⊢
    rw [ih hnumeric.2]
    cases hv with
    | keep => rfl
    | widen i => exact absurd rfl hnumeric.1

end Value.Widening

/-! ### Operators -/

open Value.Widening

/-- Operands that no overload takes as they are meet as doubles. -/
theorem Operation.apply_widening (format : Value → String) {op : Operation} {a b a' b' : Value}
    (ha : a.Widening a') (hb : b.Widening b') (hinexact : op.result? a.type b.type = none)
    (hresult : (op.result? a'.type b'.type).isSome) :
    op.apply format a' b' = op.apply format a b := by
  cases ha with
  | keep =>
    cases hb with
    | keep => rfl
    | widen j =>
      cases op <;> cases a <;> first | rfl | simp [result?, Value.type] at hresult hinexact
  | widen i =>
    cases hb with
    | keep =>
      cases op <;> cases b <;> first | rfl | simp [result?, Value.type] at hresult hinexact
    | widen j => cases op <;> first | rfl | simp [result?, Value.type] at hresult hinexact

/-- Operands of different types are compared as doubles. -/
theorem Comparison.apply_widening {op : Comparison} {a b a' b' : Value}
    (ha : a.Widening a') (hb : b.Widening b') (hinexact : op.result? a.type b.type = none)
    (hresult : (op.result? a'.type b'.type).isSome) : op.apply a' b' = op.apply a b := by
  cases ha with
  | keep =>
    cases hb with
    | keep => rfl
    | widen j => cases a <;> first | rfl | simp [result?, Value.type] at hresult hinexact
  | widen i =>
    cases hb with
    | keep => cases b <;> first | rfl | simp [result?, Value.type] at hresult hinexact
    | widen j => simp [result?, Value.type] at hinexact

namespace Environment

/-- The allowance does not matter where the left operand is no number. -/
theorem comparison_isNumber (env : Environment) (op : Comparison) (a b : Value) :
    env.comparison op a.type.isNumber a b = env.comparison op true a b := by
  unfold comparison
  cases env.tolerance with
  | none => rfl
  | some kind => cases a <;> rfl

theorem comparison_widening (env : Environment) {op : Comparison} {a b a' b' : Value}
    (ha : a.Widening a') (hb : b.Widening b') (h : op.apply a' b' = op.apply a b) :
    env.comparison op a'.type.isNumber a' b' = env.comparison op true a b := by
  rw [comparison_isNumber]
  unfold comparison
  cases env.tolerance with
  | none => exact h
  | some kind => simp only [Comparison.applyWithin, ha.number?_eq, hb.number?_eq, h]

end Environment

/-! ### Functions -/

namespace Function

theorem asNumeric_widening {v w : Value} (h : v.Widening w) : asNumeric w = asNumeric v := by
  cases h <;> rfl

/-- The number drawn for a call matters only to random functions. -/
theorem eval_draw {f : Function} (h : f.isDeterministic = true) (draw draw' : UInt64)
    (values : List Value) : f.eval draw values = f.eval draw' values := by
  unfold eval
  split
  case h_11 | h_12 | h_13 | h_14 | h_15 | h_16 => exact absurd h Bool.false_ne_true
  all_goals rfl

/-- Arguments that no overload takes as they are meet as doubles. -/
theorem eval_widening {f : Function} {s : Signature} (hs : s ∈ f.signatures) (draw : UInt64)
    {values widened : List Value} (h : List.Forall₂ Value.Widening values widened)
    (htypes : widened.map Value.type = s.args)
    (hinexact : ∀ s' ∈ f.signatures, s'.args ≠ values.map Value.type) :
    f.eval draw widened = f.eval draw values := by
  by_cases hnumeric : ValueType.numeric ∈ s.args
  case neg => rw [eq_of_numeric_notMem h (htypes ▸ hnumeric)]
  cases f <;> simp only [signatures, List.mem_cons, List.not_mem_nil, or_false] at hs <;>
    (try rcases hs with rfl | rfl) <;>
    first
      | exact absurd hnumeric (by decide)
      | simp only [List.map_eq_cons_iff, List.map_eq_nil_iff] at htypes
  case real | randomBelow =>
    obtain ⟨w, _, rfl, -, rfl⟩ := htypes
    obtain _ | ⟨hv, _ | _⟩ := h
    simp only [eval, asNumeric_widening hv]
  case log | pow | atan2 | randomBetween =>
    obtain ⟨w, _, rfl, -, w', _, rfl, -, rfl⟩ := htypes
    obtain _ | ⟨hv, _ | ⟨hv', _ | _⟩⟩ := h
    simp only [eval, asNumeric_widening hv, asNumeric_widening hv']
  case roundDigits =>
    obtain ⟨w, _, rfl, -, w', _, rfl, hw', rfl⟩ := htypes
    obtain _ | ⟨hv, _ | ⟨hv', _ | _⟩⟩ := h
    cases hv' with
    | keep => simp only [eval, asNumeric_widening hv]
    | widen j => cases hw'
  -- An integer is taken as it is by these, so it is not widened.
  case rounding.inr | abs.inr | sign.inr =>
    obtain ⟨w, _, rfl, -, rfl⟩ := htypes
    obtain _ | ⟨hv, _ | _⟩ := h
    cases hv with
    | keep => rfl
    | widen i => exact absurd rfl (hinexact ⟨[.integer], .integer⟩ (by simp [signatures]))
  case min.inr | max.inr =>
    obtain ⟨w, _, rfl, hw, w', _, rfl, hw', rfl⟩ := htypes
    obtain _ | ⟨hv, _ | ⟨hv', _ | _⟩⟩ := h
    rcases hv.exists_of_numeric hw with ⟨i, rfl, rfl⟩ | ⟨x, rfl, rfl⟩ <;>
      rcases hv'.exists_of_numeric hw' with ⟨j, rfl, rfl⟩ | ⟨y, rfl, rfl⟩ <;>
      first
        | rfl
        | exact absurd rfl (hinexact ⟨[.integer, .integer], .integer⟩ (by simp [signatures]))

end Function

/-! ### Heads -/

theorem UnaryOp.result?_eq_none {op : UnaryOp} {a : Value}
    (h : ∀ s ∈ op.signatures, s.args ≠ [a.type]) : op.result? a.type = none := by
  refine Option.eq_none_iff_forall_ne_some.mpr fun result hresult => ?_
  refine h ⟨[a.type], result⟩ (List.mem_filterMap.mpr ⟨a.type, ?_, by rw [hresult]; rfl⟩) rfl
  exact ValueType.mem_concrete_iff.mpr a.type_ne_unknown

theorem BinaryOp.result?_eq_none {op : BinaryOp} {a b : Value}
    (h : ∀ s ∈ op.signatures, s.args ≠ [a.type, b.type]) : op.result? a.type b.type = none := by
  refine Option.eq_none_iff_forall_ne_some.mpr fun result hresult => ?_
  refine h ⟨[a.type, b.type], result⟩ (List.mem_flatMap.mpr ⟨a.type, ?_,
    List.mem_filterMap.mpr ⟨b.type, ?_, by rw [hresult]; rfl⟩⟩) rfl
  · exact ValueType.mem_concrete_iff.mpr a.type_ne_unknown
  · exact ValueType.mem_concrete_iff.mpr b.type_ne_unknown

/-- A unary operator takes every operand it works on as it is. -/
theorem Value.Widening.unary_eq_none {op : UnaryOp} {v w : Value} (h : v.Widening w)
    (hinexact : op.result? v.type = none) : op.result? w.type = none := by
  cases h with
  | keep => exact hinexact
  | widen i => cases op <;> simp [UnaryOp.result?, Value.type] at hinexact ⊢

/-- Operands widened for the natural overload give what the operands themselves give. -/
theorem Head.run_widening (env : Environment) {head : Head} (draw : UInt64)
    (hdeterministic : ∀ f, head = .call f → f.isDeterministic = true)
    {values widened : List Value} {s : Signature} {choice cost : Nat}
    (hs : Natural (head.signatures values.length) (values.map Value.type) s choice cost)
    (h : List.Forall₂ Value.Widening values widened) (htypes : widened.map Value.type = s.args) :
    head.run env s.comparesNumbers draw widened = head.run env true 0 values := by
  have hmem := List.mem_of_getElem? hs.getElem?
  -- Either the overload takes the operands as they are, or none does.
  have hcases : widened = values ∨
      ∀ s' ∈ head.signatures values.length, s'.args ≠ values.map Value.type := by
    by_cases hargs : s.args = values.map Value.type
    · exact .inl (eq_of_map_type_eq h (htypes.trans hargs))
    · exact .inr (hs.exact hargs)
  match head with
  | .unary op =>
    obtain ⟨t, hargs, hresult⟩ := UnaryOp.result?_of_mem hmem
    rw [hargs] at htypes
    obtain ⟨w, _, rfl, rfl, hnil⟩ := List.map_eq_cons_iff.mp htypes
    obtain rfl := List.map_eq_nil_iff.mp hnil
    obtain _ | ⟨hv, _ | _⟩ := h
    rcases hcases with heq | hinexact
    · rw [heq]
      rfl
    · rw [hv.unary_eq_none (UnaryOp.result?_eq_none hinexact)] at hresult
      cases hresult
  | .binary op =>
    obtain ⟨l, r, hargs, hresult⟩ := BinaryOp.result?_of_mem hmem
    rw [hargs] at htypes
    obtain ⟨a', _, rfl, rfl, htail⟩ := List.map_eq_cons_iff.mp htypes
    obtain ⟨b', _, rfl, rfl, hnil⟩ := List.map_eq_cons_iff.mp htail
    obtain rfl := List.map_eq_nil_iff.mp hnil
    obtain _ | @⟨a, _, _, _, ha, _ | @⟨b, _, _, _, hb, _ | _⟩⟩ := h
    have hsome := Option.isSome_of_eq_some hresult
    cases op with
    | operate op =>
      have happly : op.apply env.registry.format a' b' = op.apply env.registry.format a b := by
        rcases hcases with heq | hinexact
        · simp_all
        · exact Operation.apply_widening _ ha hb (BinaryOp.result?_eq_none hinexact) hsome
      simp only [run, happly]
    | compare op =>
      have happly : op.apply a' b' = op.apply a b := by
        rcases hcases with heq | hinexact
        · simp_all
        · exact Comparison.apply_widening ha hb (BinaryOp.result?_eq_none hinexact) hsome
      have hnumbers : s.comparesNumbers = a'.type.isNumber := by
        rw [Signature.comparesNumbers, hargs, List.headD_cons]
      simp only [run, hnumbers, env.comparison_widening ha hb happly]
  | .call f =>
    have heval : f.eval draw widened = f.eval draw values := by
      rcases hcases with heq | hinexact
      · rw [heq]
      · refine Function.eval_widening (List.mem_filter.mp hmem).1 draw h htypes fun s' hs' hargs => ?_
        exact hinexact s' (List.mem_filter.mpr ⟨hs', by simp [hargs]⟩) hargs
    simp only [run, heval, Function.eval_draw (hdeterministic f rfl) draw 0]

end Formula
