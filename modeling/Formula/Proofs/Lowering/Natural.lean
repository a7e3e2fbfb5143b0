import Mathlib.Algebra.GroupWithZero.Nat
import Formula.Proofs.Lowering.Soundness

/-!
# The natural overload

Where every parameter has one type, every tree has one *natural* type: its table offers that type,
and beyond it only what that type converts to, always by the same overload. What the overload costs
depends on the operands only through their natural types and the sum of their costs, so a finite
check of heads on types settles which overload it is. It is also the exact one wherever there is
one: an operand is converted only if no overload takes the operand types as they are.

## Main definitions

* `CostTable.single`: the table of one natural type.
* `Natural`: an overload wins for given operand types.

## Main results

* `Head.exists_natural`: a head that accepts operand types has a natural overload for them.
* `Natural.costsFor_eq`: the table of an application is that of the natural overload.
-/

namespace Formula

/-! ### Tables of one natural type -/

namespace CostTable

/-- The table of something that is naturally of type `natural`, by the overload `choice` at cost
`base`. -/
def single (base : Nat) (natural : ValueType) (choice : Nat) : CostTable :=
  empty.offerConversions base natural choice

theorem get?_single (base choice : Nat) (natural t : ValueType) :
    (single base natural choice).get? t =
      (conversionCost? natural t).map fun conversion => ⟨base + conversion, natural, choice⟩ := by
  rw [single, get?_offerConversions]
  cases conversionCost? natural t <;> simp [better]

theorem preferred?_single (base choice : Nat) {natural : ValueType} (h : natural ≠ .unknown) :
    (single base natural choice).preferred? = some natural := by
  have hbase : ¬base + 1 < base := by omega
  cases natural <;> first
    | exact absurd rfl h
    | simp [preferred?, ValueType.concrete, get?_single, conversionCost?, hbase]

end CostTable

/-- For operands of the given types, the overload `s` at the place `choice` offers all that is
offered, at the given cost; and it is exact if some overload is. -/
structure Natural (signatures : List Signature) (types : List ValueType) (s : Signature)
    (choice cost : Nat) : Prop where
  table : Typing.costsFor signatures (types.map fun t => CostTable.single 0 t 0) =
    CostTable.single cost s.result choice
  getElem? : signatures[choice]? = some s
  exact : s.args ≠ types → ∀ s' ∈ signatures, s'.args ≠ types

/-- Whether overloads have a natural one for the given types, or none that accepts them. -/
def isUniform (signatures : List Signature) (types : List ValueType) : Bool :=
  let table := Typing.costsFor signatures (types.map fun t => CostTable.single 0 t 0)
  table.isEmpty ||
    ((table.preferred?.bind table.get?).any fun e =>
      (signatures[e.choice]?).any fun s =>
        table == CostTable.single e.cost s.result e.choice &&
          (s.args == types || signatures.all fun s' => s'.args != types))

theorem exists_natural_of_isUniform {signatures : List Signature} {types : List ValueType}
    (h : isUniform signatures types = true)
    (hne : (Typing.costsFor signatures
      (types.map fun t => CostTable.single 0 t 0)).isEmpty = false) :
    ∃ s choice cost, Natural signatures types s choice cost := by
  simp only [isUniform, hne, Bool.false_or, Option.any_eq_true, Bool.and_eq_true, beq_iff_eq,
    Bool.or_eq_true, List.all_eq_true, bne_iff_ne] at h
  obtain ⟨e, -, s, hs, htable, hexact⟩ := h
  exact ⟨s, e.choice, e.cost, htable, hs, fun hargs => hexact.resolve_left hargs⟩

/-! ### The finite check -/

/-- The lists of concrete types of a given length. -/
def typeLists : Nat → List (List ValueType)
  | 0 => [[]]
  | n + 1 => ValueType.concrete.flatMap fun t => (typeLists n).map (t :: ·)

theorem mem_typeLists {types : List ValueType} (h : .unknown ∉ types) :
    types ∈ typeLists types.length := by
  induction types with
  | nil => simp [typeLists]
  | cons t types ih =>
    simp only [List.mem_cons, not_or] at h
    exact List.mem_flatMap.mpr ⟨t, ValueType.mem_concrete_iff.mpr (Ne.symm h.1),
      List.mem_map_of_mem (ih h.2)⟩

theorem UnaryOp.isUniform_signatures (op : UnaryOp) :
    ∀ types ∈ typeLists 1, isUniform op.signatures types = true := by
  cases op <;> decide

theorem BinaryOp.isUniform_signatures (op : BinaryOp) :
    ∀ types ∈ typeLists 2, isUniform op.signatures types = true := by
  cases op with
  | operate op => cases op <;> decide
  | compare op => cases op <;> decide

namespace Function

theorem isUniform_signatures (f : Function) :
    ∀ types ∈ typeLists f.arity, isUniform f.signatures types = true := by
  cases f with
  | real g => cases g <;> decide
  | rounding r => cases r <;> decide
  | _ => decide +kernel

/-- All overloads of a function take as many arguments. -/
theorem length_args_eq_arity {f : Function} {s : Signature} (hs : s ∈ f.signatures) :
    s.args.length = f.arity := by
  cases f <;> simp only [signatures, List.mem_cons, List.not_mem_nil, or_false] at hs <;>
    (try rcases hs with rfl | rfl) <;> rfl

theorem head_signatures (f : Function) {n : Nat} (hn : f.arity = n) :
    (Head.call f).signatures n = f.signatures := by
  refine List.filter_eq_self.mpr fun s hs => ?_
  simp [length_args_eq_arity hs, hn]

theorem head_signatures_eq_nil (f : Function) {n : Nat} (hn : f.arity ≠ n) :
    (Head.call f).signatures n = [] := by
  refine List.filter_eq_nil_iff.mpr fun s hs => ?_
  simp [length_args_eq_arity hs, hn]

end Function

/-- A head that accepts operand types has a natural overload for them. -/
theorem Head.exists_natural {head : Head} {types : List ValueType} (htypes : .unknown ∉ types)
    (hcount : head.takes types.length)
    (hne : (Typing.costsFor (head.signatures types.length)
      (types.map fun t => CostTable.single 0 t 0)).isEmpty = false) :
    ∃ s choice cost, Natural (head.signatures types.length) types s choice cost := by
  refine exists_natural_of_isUniform ?_ hne
  have hmem := mem_typeLists htypes
  match head with
  | .unary op =>
    rw [show types.length = 1 from hcount] at hmem
    exact op.isUniform_signatures types hmem
  | .binary op =>
    rw [show types.length = 2 from hcount] at hmem
    exact op.isUniform_signatures types hmem
  | .call f =>
    by_cases hn : f.arity = types.length
    · rw [Function.head_signatures f hn]
      exact f.isUniform_signatures types (hn ▸ hmem)
    · rw [Function.head_signatures_eq_nil f hn] at hne
      simp [Typing.costsFor, CostTable.isEmpty] at hne

/-! ### Costs of the operands -/

/-- The tables of operands, each of one natural type. -/
def singles (operands : List Cost) : List CostTable :=
  operands.map fun e => CostTable.single e.cost e.internal e.choice

theorem get?_single_zero (natural t : ValueType) (base choice : Nat) :
    ((CostTable.single base natural choice).get? t).map Cost.cost =
      (((CostTable.single 0 natural 0).get? t).map Cost.cost).map (base + ·) := by
  rw [CostTable.get?_single, CostTable.get?_single]
  cases conversionCost? natural t <;> simp

/-- The costs of the operands add to what an overload costs on operands that are free. -/
theorem Signature.operandCost?_singles {s : Signature} {operands : List Cost}
    (hlen : s.args.length = operands.length) :
    s.operandCost? (singles operands) =
      (s.operandCost? ((operands.map Cost.internal).map fun t => CostTable.single 0 t 0)).map
        ((operands.map Cost.cost).sum + ·) := by
  have fold (args : List ValueType) (operands : List Cost) (hlen : args.length = operands.length)
      (start extra : Nat) :
      total (List.zipWith (fun t costs => (CostTable.get? costs t).map Cost.cost) args
          (singles operands)) (extra + start) =
        (total (List.zipWith (fun t costs => (CostTable.get? costs t).map Cost.cost) args
          ((operands.map Cost.internal).map fun t => CostTable.single 0 t 0)) start).map
            (extra + (operands.map Cost.cost).sum + ·) := by
    induction args generalizing operands start extra with
    | nil =>
      obtain rfl := List.length_eq_zero_iff.mp hlen.symm
      simp [total, singles]
    | cons t args ih =>
      obtain _ | ⟨e, operands⟩ := operands
      · simp at hlen
      have ih := ih operands (by simpa using hlen)
      simp only [singles, List.map_cons, List.zipWith_cons_cons, total, List.foldlM_cons,
        get?_single_zero e.internal t e.cost] at ih ⊢
      cases (CostTable.get? (CostTable.single 0 e.internal 0) t).map Cost.cost with
      | none => rfl
      | some c =>
        have hstep := ih (start + c) (extra + e.cost)
        rw [show extra + e.cost + (start + c) = extra + start + (e.cost + c) by omega] at hstep
        simpa [Nat.add_assoc] using hstep
  rw [operandCost?_eq_total, operandCost?_eq_total]
  simpa [prices] using fold s.args operands hlen 0 0

theorem Signature.offer?_singles {s : Signature} {operands : List Cost}
    (hlen : s.args.length = operands.length) (t : ValueType) :
    s.offer? (singles operands) t =
      (s.offer? ((operands.map Cost.internal).map fun t => CostTable.single 0 t 0) t).map
        ((operands.map Cost.cost).sum + ·) := by
  rw [offer?, offer?, operandCost?_singles hlen]
  cases s.operandCost? ((operands.map Cost.internal).map fun t => CostTable.single 0 t 0) with
  | none => rfl
  | some total => cases conversionCost? s.result t <;> simp [Nat.add_assoc]

/-- The first cheapest overload stays so when all prices go up by the same amount. -/
theorem FirstCheapest.raise {price price' : Signature → Option Nat} {signatures : List Signature}
    {s : Signature} {place cost n : Nat} (h : FirstCheapest price signatures s place cost)
    (hprice : ∀ s' ∈ signatures, price' s' = (price s').map (n + ·)) :
    FirstCheapest price' signatures s place (n + cost) := by
  obtain ⟨before, after, rfl, rfl, hs, hbefore, hafter⟩ := h
  refine ⟨before, after, rfl, rfl, by rw [hprice s (by simp), hs]; rfl, ?_, ?_⟩
  · intro s' hs' c hc
    rw [hprice s' (by simp [hs']), Option.map_eq_some_iff] at hc
    obtain ⟨c', hc', rfl⟩ := hc
    exact Nat.add_lt_add_left (hbefore s' hs' c' hc') n
  · intro s' hs' c hc
    rw [hprice s' (by simp [hs']), Option.map_eq_some_iff] at hc
    obtain ⟨c', hc', rfl⟩ := hc
    exact Nat.add_le_add_left (hafter s' hs' c' hc') n

/-- The table of an application is that of the natural overload. -/
theorem Natural.costsFor_eq {signatures : List Signature} {operands : List Cost} {s : Signature}
    {choice cost : Nat} (h : Natural signatures (operands.map Cost.internal) s choice cost)
    (hlen : ∀ s' ∈ signatures, s'.args.length = operands.length) :
    Typing.costsFor signatures (singles operands) =
      CostTable.single ((operands.map Cost.cost).sum + cost) s.result choice := by
  ext t : 1
  have hfree := congrArg (fun table => table.get? t) h.table
  simp only [CostTable.get?_single] at hfree ⊢
  cases hconversion : conversionCost? s.result t with
  | none =>
    rw [hconversion, Option.map_none, Typing.get?_costsFor_eq_none_iff] at hfree
    rw [Option.map_none, Typing.get?_costsFor_eq_none_iff]
    intro s' hs'
    rw [Signature.offer?_singles (hlen s' hs'), hfree s' hs', Option.map_none]
  | some conversion =>
    rw [hconversion, Option.map_some, Typing.get?_costsFor_eq_some_iff] at hfree
    obtain ⟨s', hcheapest, hresult⟩ := hfree
    rw [Option.map_some, Typing.get?_costsFor_eq_some_iff]
    refine ⟨s', ?_, hresult⟩
    rw [Nat.add_assoc]
    exact hcheapest.raise fun s'' hs'' => Signature.offer?_singles (hlen s'' hs'') t

end Formula
