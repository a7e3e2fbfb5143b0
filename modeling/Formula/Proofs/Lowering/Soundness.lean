import Mathlib.Data.List.Basic
import Formula.Proofs.Lowering.Code
import Formula.Proofs.Lowering.Heads

/-!
# Settled trees do not go wrong

A tree that has settled on its overloads is lowered without any type fault, and its meaning on
arguments of the right types is a value of the type asked for, or a fault that lies in the values.

## Main definitions

* `Supplies`: the arguments have the types that the parameters are pinned to.

## Main results

* `Settled.lower_error`: lowering a settled tree fails only where an index is too high.
* `Settled.fits_meaning`: the meaning of a settled tree has the type asked for.
-/

namespace Formula

/-! ### Conversions -/

namespace Value

/-- A conversion that has a cost is defined, and gives its target type. -/
theorem exists_convert {v : Value} {t : ValueType} (h : (conversionCost? v.type t).isSome) :
    ∃ w, v.convert t = .ok w ∧ w.type = t := by
  cases v <;> cases t <;> simp [type, conversionCost?] at h <;> exact ⟨_, rfl, rfl⟩

theorem convert_self (v : Value) : v.convert v.type = .ok v := by
  simp [convert]

/-- Widening a value of the type it is said to have is converting it. -/
theorem widened_type (v : Value) (t : ValueType) :
    v.widened v.type t = Program.lift (v.convert t) := by
  rw [widened]
  split
  · next h =>
    rw [← h, convert_self]
    rfl
  · rfl

theorem exists_widened {v : Value} {t : ValueType} (h : (conversionCost? v.type t).isSome) :
    ∃ w, v.widened v.type t = .ok w ∧ w.type = t := by
  obtain ⟨w, hw, ht⟩ := exists_convert h
  exact ⟨w, by rw [widened_type, hw]; rfl, ht⟩

end Value

theorem TypeMask.single?_of {t : ValueType} (ht : t ≠ .unknown) : (of t).single? = some t := by
  cases t <;> first | rfl | exact absurd rfl ht

/-! ### Lowering -/

namespace Builder

theorem index_error {n : Nat} {fault : MachineFault} (h : index n = .error fault) :
    fault = .registerLimitExceeded := by
  rw [index] at h
  split at h
  · simp at h
  · exact (Except.error.inj h).symm

theorem allocate_error {b : Builder} {fault : MachineFault} (h : b.allocate = .error fault) :
    fault = .registerLimitExceeded := by
  rw [allocate] at h
  rcases bind_eq_error_iff.mp h with h | ⟨r, -, h⟩
  · exact index_error h
  · cases h

theorem addLiteral_error {b : Builder} {v : Value} {fault : MachineFault}
    (h : b.addLiteral v = .error fault) : fault = .registerLimitExceeded := by
  rw [addLiteral] at h
  rcases bind_eq_error_iff.mp h with h | ⟨r, -, h⟩
  · rw [literalPlace] at h
    split at h
    · simp at h
    · exact index_error h
  · cases h

theorem addCall_error {b : Builder} {call : Call} {fault : MachineFault}
    (h : b.addCall call = .error fault) : fault = .registerLimitExceeded := by
  rw [addCall] at h
  rcases bind_eq_error_iff.mp h with h | ⟨r, -, h⟩
  · exact index_error h
  · cases h

theorem widen_error {b : Builder} {register : Nat} {own target : ValueType} {fault : MachineFault}
    (h : b.widen register own target = .error fault) : fault = .registerLimitExceeded := by
  rw [widen] at h
  split at h
  · simp at h
  · rcases bind_eq_error_iff.mp h with h | ⟨r, -, h⟩
    · exact allocate_error h
    · cases h

theorem emitApplication_error {b : Builder} {head : Head} {s : Signature} {dest : Nat}
    {operands : List Nat} (hcount : head.takes operands.length) {fault : MachineFault}
    (h : b.emitApplication head s dest operands = .error fault) :
    fault = .registerLimitExceeded := by
  match head with
  | .unary op =>
    obtain ⟨a, rfl⟩ := List.length_eq_one_iff.mp hcount
    simp [emitApplication] at h
  | .binary op =>
    obtain ⟨a, c, rfl⟩ := List.length_eq_two.mp hcount
    cases op <;> simp [emitApplication] at h
  | .call f =>
    simp only [emitApplication] at h
    rcases bind_eq_error_iff.mp h with h | ⟨r, -, h⟩
    · exact addCall_error h
    · cases h

end Builder

namespace Node

theorem length_of_lowerAll {params : List Parameter} {targets : List ValueType}
    {nodes : List Node} {b b' : Builder} {registers : List Nat}
    (hlen : targets.length = nodes.length)
    (h : lowerAll params targets nodes b = .ok (registers, b')) :
    registers.length = nodes.length := by
  induction nodes generalizing targets b registers b' with
  | nil =>
    simp only [lowerAll, Except.ok.injEq, Prod.mk.injEq] at h
    rw [← h.1]
    rfl
  | cons n rest ih =>
    cases targets with
    | nil => simp at hlen
    | cons target targets =>
      rw [lowerAll] at h
      obtain ⟨⟨r, b₁⟩, -, h⟩ := bind_eq_ok_iff.mp h
      obtain ⟨⟨rs, b₂⟩, hrest, h⟩ := bind_eq_ok_iff.mp h
      obtain ⟨rfl, -⟩ := Prod.mk.inj (Except.ok.inj h)
      simpa using ih (by simpa using hlen) hrest

theorem lowerAll_error {params : List Parameter} {targets : List ValueType} {nodes : List Node}
    (h : ∀ (i : Nat) t n, targets[i]? = some t → nodes[i]? = some n → ∀ b fault,
      n.lower params t b = .error fault → fault = .registerLimitExceeded)
    {b : Builder} {fault : MachineFault} (hf : lowerAll params targets nodes b = .error fault) :
    fault = .registerLimitExceeded := by
  induction nodes generalizing targets b with
  | nil => simp [lowerAll] at hf
  | cons n rest ih =>
    cases targets with
    | nil => simp [lowerAll] at hf
    | cons target targets =>
      rw [lowerAll] at hf
      rcases bind_eq_error_iff.mp hf with hf | ⟨⟨r, b₁⟩, -, hf⟩
      · exact h 0 target n rfl rfl b fault hf
      rcases bind_eq_error_iff.mp hf with hf | ⟨⟨rs, b₂⟩, -, hf⟩
      · exact ih (fun i t m ht hm => h (i + 1) t m (by simpa using ht) (by simpa using hm)) hf
      · cases hf

end Node

/-- Lowering a settled tree fails only where an index is too high. -/
theorem Settled.lower_error {params : List Parameter} {t : ValueType} {node : Node}
    (h : Settled params t node) {b : Builder} {fault : MachineFault}
    (hf : node.lower params t b = .error fault) : fault = .registerLimitExceeded := by
  induction h generalizing b fault with
  | @constant target v text hconv =>
    obtain ⟨w, hw, -⟩ := Value.exists_convert hconv
    simp only [Node.lower, hw] at hf
    rcases bind_eq_error_iff.mp hf with hf | ⟨⟨place, b₁⟩, -, hf⟩
    · exact Builder.addLiteral_error hf
    rcases bind_eq_error_iff.mp hf with hf | ⟨⟨r, b₂⟩, -, hf⟩
    · exact Builder.allocate_error hf
    · cases hf
  | @parameter target own id p hp hown hconv =>
    rw [Node.lower] at hf
    rcases bind_eq_error_iff.mp hf with hindex | ⟨place, hindex, hrest⟩
    · exact Builder.index_error hindex
    rw [(Builder.index_eq_ok_iff.mp hindex).2, hp] at hrest
    rcases bind_eq_error_iff.mp hrest with hdest | ⟨⟨r, b₁⟩, -, hwiden⟩
    · exact Builder.allocate_error hdest
    · simp only [hown, TypeMask.single?_of (ne_unknown_of_conversionCost? hconv).1] at hwiden
      exact Builder.widen_error hwiden
  | @apply target head operands typing s hcount hs hselected hconv _ ih =>
    have hlen := Head.length_args hcount hs
    simp only [Node.lower, hselected] at hf
    rcases bind_eq_error_iff.mp hf with hf | ⟨⟨registers, b₁⟩, hall, hf⟩
    · exact Node.lowerAll_error (fun i t n ht hn b fault => ih i t n ht hn) hf
    rcases bind_eq_error_iff.mp hf with hf | ⟨⟨r, b₂⟩, -, hf⟩
    · exact Builder.allocate_error hf
    rcases bind_eq_error_iff.mp hf with hf | ⟨b₃, -, hf⟩
    · refine Builder.emitApplication_error ?_ hf
      rwa [Node.length_of_lowerAll hlen hall]
    · exact Builder.widen_error hf

/-! ### Meaning -/

/-- The arguments have the types that the parameters are pinned to. -/
def Supplies (params : List Parameter) (args : List Value) : Prop :=
  ∀ (id : Nat) p t, params[id]? = some p → p.supported = TypeMask.of t → t ≠ .unknown →
    ∃ v, args[id]? = some v ∧ v.type = t

/-- The arguments that have the given types are supplied to parameters of these types. -/
theorem supplies_pin {params : List Parameter} {args : List Value} :
    Supplies (pin params (args.map Value.type)) args := by
  intro id p t hp hmask ht
  rw [pin, List.getElem?_zipWith] at hp
  cases hparam : params[id]? with
  | none => simp [hparam] at hp
  | some param =>
    cases harg : args[id]? with
    | none => simp [hparam, harg] at hp
    | some v =>
      simp only [hparam, List.getElem?_map, harg, Option.map_some, Option.some.injEq] at hp
      obtain rfl := hp
      have hsame : TypeMask.of v.type = TypeMask.of t := hmask
      have hsingle := TypeMask.single?_of v.type_ne_unknown
      rw [hsame, TypeMask.single?_of ht] at hsingle
      exact ⟨v, rfl, (Option.some.inj hsingle).symm⟩

namespace Node

/-- Operands whose meanings fit their targets have values of the target types, or one of them
fails. -/
theorem fits_meaningAll {env : Environment} {params : List Parameter} {targets : List ValueType}
    {nodes : List Node} (hlen : targets.length = nodes.length)
    (h : ∀ (i : Nat) t n, targets[i]? = some t → nodes[i]? = some n → ∀ calls,
      Fits MachineFault.isDynamic t ((n.meaning env params t calls).map Prod.fst))
    (calls : Nat) :
    (∃ values calls', meaningAll env params targets nodes calls = .ok (values, calls') ∧
      values.map Value.type = targets) ∨
    ∃ fault, meaningAll env params targets nodes calls = .error fault ∧
      fault.isDynamic = true := by
  induction nodes generalizing targets calls with
  | nil =>
    obtain rfl := List.eq_nil_of_length_eq_zero hlen
    exact .inl ⟨[], calls, rfl, rfl⟩
  | cons n rest ih =>
    cases targets with
    | nil => simp at hlen
    | cons target targets =>
      have hn := h 0 target n rfl rfl calls
      rw [meaningAll]
      cases hm : n.meaning env params target calls with
      | error fault =>
        rw [hm] at hn
        exact .inr ⟨fault, rfl, hn⟩
      | ok p =>
        rw [hm] at hn
        have hrest := ih (by simpa using hlen)
          (fun i t m ht hm => h (i + 1) t m (by simpa using ht) (by simpa using hm)) p.2
        rcases hrest with ⟨values, calls', hvalues, htypes⟩ | ⟨fault, hfault, hdynamic⟩
        · refine .inl ⟨p.1 :: values, calls', ?_, ?_⟩
          · simp only [hvalues, ok_bind]
            rfl
          · rw [List.map_cons, htypes]
            exact congrArg (· :: targets) hn
        · refine .inr ⟨fault, ?_, hdynamic⟩
          simp only [hfault, ok_bind, error_bind]

end Node

/-- The meaning of a settled tree, on arguments of the types that the parameters are pinned to, is
a value of the type asked for or a fault that lies in the values. -/
theorem Settled.fits_meaning {params : List Parameter} {t : ValueType} {node : Node}
    (h : Settled params t node) {env : Environment} (hargs : Supplies params env.args)
    (hliteral : ∀ v, (env.literal v).type = v.type) (calls : Nat) :
    Fits MachineFault.isDynamic t ((node.meaning env params t calls).map Prod.fst) := by
  induction h generalizing calls with
  | @constant target v text hconv =>
    obtain ⟨w, hw, ht⟩ := Value.exists_convert hconv
    simp only [Node.meaning, hw, Program.lift]
    exact (hliteral w).trans ht
  | @parameter target own id p hp hown hconv =>
    have hne := (ne_unknown_of_conversionCost? hconv).1
    obtain ⟨v, hv, rfl⟩ := hargs id p own hp hown hne
    obtain ⟨w, hw, ht⟩ := Value.exists_widened hconv
    simp only [Node.meaning, hp, hv, hown, TypeMask.single?_of hne, hw]
    exact ht
  | @apply target head operands typing s hcount hs hselected hconv _ ih =>
    have hlen := Head.length_args hcount hs
    simp only [Node.meaning, hselected]
    rcases Node.fits_meaningAll hlen (fun i t n ht hn calls => ih i t n ht hn calls) calls with
      ⟨values, calls', hvalues, htypes⟩ | ⟨fault, hfault, hdynamic⟩
    · have hrun := Head.fits_run env s.comparesNumbers (env.draws calls') hs htypes
      simp only [hvalues, ok_bind]
      cases hv : head.run env s.comparesNumbers (env.draws calls') values with
      | error fault =>
        rw [hv] at hrun
        exact hrun
      | ok v =>
        rw [hv] at hrun
        have hresult : v.type = s.result := hrun
        obtain ⟨w, hw, ht⟩ := Value.exists_widened (hresult ▸ hconv)
        simp only [← hresult, ok_bind, hw]
        exact ht
    · simp only [hfault, error_bind]
      exact hdynamic

end Formula
