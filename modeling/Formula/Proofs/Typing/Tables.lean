import Formula.Proofs.Typing.Offers

/-!
# The cost table of a tree

Refreshing is a recursion that stops at its first fault. This module separates the two: the tree
with all its tables recomputed (`Node.retable`), and the trees for which nothing goes wrong on the
way (`Node.Typable`). Both depend on the parameters only through their masks, and a typable tree
stays typable when masks grow.

## Main definitions

* `Node.retable`, `Node.table`: the tree with recomputed tables, and the table at its root.
* `Node.Typable`: no table in the tree is empty.
* `Widens`: every mask of one list of parameters lies in that of another.

## Main results

* `Node.refresh_eq_iff`: refreshing succeeds exactly on typable trees and then recomputes all
  tables.
* `Node.Typable.mono`: wider masks keep every offer.
-/

namespace Formula

/-! ### Induction over trees -/

namespace Node

/-- Induction over trees, with the hypothesis for all operands at once. -/
@[elab_as_elim]
theorem induct {motive : Node → Prop} (constant : ∀ v text, motive (.constant v text))
    (parameter : ∀ id, motive (.parameter id))
    (apply : ∀ head operands typing, (∀ n ∈ operands, motive n) →
      motive (.apply head operands typing)) (node : Node) : motive node := by
  refine @Node.rec motive (fun nodes => ∀ n ∈ nodes, motive n) constant parameter apply ?_ ?_ node
  · simp
  · intro n rest hn hrest
    simpa using ⟨hn, hrest⟩

end Node

/-! ### Prices of overloads -/

namespace Signature

/-- What each operand asks for the argument type an overload wants of it. -/
def prices (s : Signature) (operands : List CostTable) : List (Option Nat) :=
  List.zipWith (fun t costs => (costs.get? t).map Cost.cost) s.args operands

/-- The sum of prices, if all of them are given. -/
def total (prices : List (Option Nat)) (start : Nat) : Option Nat :=
  prices.foldlM (fun total price => price.map (total + ·)) start

theorem operandCost?_eq_total (s : Signature) (operands : List CostTable) :
    s.operandCost? operands = total (s.prices operands) 0 := by
  have fold (args : List ValueType) (operands : List CostTable) (start : Nat) :
      (args.zip operands).foldlM (fun total (p : ValueType × CostTable) =>
        (p.2.get? p.1).map fun c => total + c.cost) start =
      total (List.zipWith (fun t costs => (costs.get? t).map Cost.cost) args operands) start := by
    induction args generalizing operands start with
    | nil => simp [total]
    | cons t args ih =>
      cases operands with
      | nil => simp [total]
      | cons costs operands =>
        simp only [List.zip_cons_cons, List.foldlM_cons, List.zipWith_cons_cons, total,
          Option.map_map]
        cases costs.get? t with
        | none => rfl
        | some c => exact ih operands (start + c.cost)
  exact fold s.args operands 0

theorem isSome_total (prices : List (Option Nat)) (start : Nat) :
    (total prices start).isSome = prices.all Option.isSome := by
  induction prices generalizing start with
  | nil => rfl
  | cons price prices ih =>
    cases price with
    | none => rfl
    | some c => exact ih (start + c)

theorem isViable_eq_all_prices (s : Signature) (operands : List CostTable) :
    s.isViable operands = (s.prices operands).all Option.isSome := by
  have fold (args : List ValueType) (operands : List CostTable) :
      ((args.zip operands).all fun p => (p.2.get? p.1).isSome) =
      (List.zipWith (fun t costs => (CostTable.get? costs t).map Cost.cost) args operands).all
        Option.isSome := by
    induction args generalizing operands with
    | nil => simp
    | cons t args ih =>
      cases operands with
      | nil => simp
      | cons costs operands => simp [ih]
  exact fold s.args operands

/-- An overload is viable exactly when its operands have a cost together. -/
theorem isSome_operandCost? (s : Signature) (operands : List CostTable) :
    (s.operandCost? operands).isSome = s.isViable operands := by
  rw [operandCost?_eq_total, isSome_total, isViable_eq_all_prices]

theorem isSome_offer? (s : Signature) (operands : List CostTable) (t : ValueType) :
    (s.offer? operands t).isSome = (s.isViable operands && (conversionCost? s.result t).isSome) := by
  rw [offer?, ← isSome_operandCost?]
  cases s.operandCost? operands <;> simp

theorem offer?_congr {s : Signature} {operands operands' : List CostTable}
    (h : s.prices operands = s.prices operands') (t : ValueType) :
    s.offer? operands t = s.offer? operands' t := by
  rw [offer?, offer?, operandCost?_eq_total, operandCost?_eq_total, h]

theorem isViable_iff {s : Signature} {operands : List CostTable} :
    s.isViable operands = true ↔ ∀ (i : Nat) t costs, s.args[i]? = some t →
      operands[i]? = some costs → (costs.get? t).isSome := by
  rw [isViable, List.all_eq_true]
  constructor
  · intro h i t costs ht hcosts
    exact h (t, costs) (List.mem_of_getElem? (List.getElem?_zip_eq_some.mpr ⟨ht, hcosts⟩))
  · rintro h ⟨t, costs⟩ hmem
    obtain ⟨i, hi⟩ := List.mem_iff_getElem?.mp hmem
    obtain ⟨ht, hcosts⟩ := List.getElem?_zip_eq_some.mp hi
    exact h i t costs ht hcosts

theorem prices_congr {s : Signature} {operands operands' : List CostTable}
    (hlen : operands.length = operands'.length)
    (h : ∀ (i : Nat) t costs costs', s.args[i]? = some t → operands[i]? = some costs →
      operands'[i]? = some costs' →
      (costs.get? t).map Cost.cost = (costs'.get? t).map Cost.cost) :
    s.prices operands = s.prices operands' := by
  refine List.ext_getElem? fun i => ?_
  rw [prices, prices, List.getElem?_zipWith, List.getElem?_zipWith]
  cases ht : s.args[i]? with
  | none => rfl
  | some t =>
    cases hcosts : operands[i]? with
    | none =>
      have hnone : operands'[i]? = none := by
        rw [List.getElem?_eq_none_iff] at hcosts ⊢
        omega
      rw [hnone]
    | some costs =>
      have hlt : i < operands'.length := hlen ▸ (List.getElem?_eq_some_iff.mp hcosts).1
      have hcosts' : operands'[i]? = some operands'[i] := List.getElem?_eq_getElem hlt
      rw [hcosts']
      exact congrArg some (h i t _ _ ht hcosts hcosts')

theorem reaches_iff {s : Signature} {mask : TypeMask} :
    s.reaches mask = true ↔
      ∃ t, mask.supports t = true ∧ (conversionCost? s.result t).isSome := by
  simp [reaches, TypeMask.mem_types_iff]

end Signature

/-! ### Recomputed tables -/

/-- The types that the parameter at a place may take. -/
def maskAt (params : List Parameter) (id : Nat) : TypeMask :=
  (params[id]?.map Parameter.supported).getD TypeMask.empty

/-- Every mask of `narrow` lies in the mask of `wide` at the same place. -/
def Widens (narrow wide : List Parameter) : Prop :=
  ∀ id t, (maskAt narrow id).supports t = true → (maskAt wide id).supports t = true

namespace Node

mutual

/-- The tree with all cost tables recomputed from the leaves up. -/
def retable (params : List Parameter) : Node → Node
  | constant value text => constant value text
  | parameter id => parameter id
  | apply head operands typing =>
    let operands := retableAll params operands
    apply head operands
      { typing with costs := Typing.costsFor typing.signatures (operands.map (costs params)) }

/-- Trees with all cost tables recomputed. -/
def retableAll (params : List Parameter) : List Node → List Node
  | [] => []
  | n :: rest => retable params n :: retableAll params rest

end

theorem retableAll_eq_map (params : List Parameter) (nodes : List Node) :
    retableAll params nodes = nodes.map (retable params) := by
  induction nodes with
  | nil => rfl
  | cons n rest ih => rw [retableAll, ih, List.map_cons]

/-- The recomputed table at the root of a tree. -/
def table (params : List Parameter) (node : Node) : CostTable :=
  (node.retable params).costs params

@[simp]
theorem table_constant (params : List Parameter) (v : Value) (text : String) :
    (constant v text).table params = CostTable.leaf (TypeMask.of v.type) := rfl

@[simp]
theorem table_parameter (params : List Parameter) (id : Nat) :
    (parameter id).table params = CostTable.leaf (maskAt params id) := rfl

theorem table_apply (params : List Parameter) (head : Head) (operands : List Node)
    (typing : Typing) :
    (apply head operands typing).table params =
      Typing.costsFor typing.signatures (operands.map (table params)) := by
  rw [table, retable, retableAll_eq_map, costs, List.map_map]
  rfl

theorem get?_table_unknown (params : List Parameter) (node : Node) :
    (node.table params).get? .unknown = none := by
  have hno (s : ValueType) : conversionCost? s .unknown = none := by cases s <;> rfl
  have leaf (mask : TypeMask) : (CostTable.leaf mask).get? .unknown = none := by
    rw [← Option.isNone_iff_eq_none, ← Option.isSome_eq_false_iff, CostTable.isSome_get?_leaf]
    simp [hno]
  cases node with
  | constant v text => exact leaf _
  | parameter id => exact leaf _
  | apply head operands typing =>
    rw [table_apply, Typing.get?_costsFor_eq_none_iff]
    intro s _
    simp [Signature.offer?, hno]

/-- No table in the tree is empty. -/
inductive Typable (params : List Parameter) : Node → Prop
  | constant (v : Value) (text : String) : Typable params (constant v text)
  | parameter (id : Nat) : Typable params (parameter id)
  | apply {head : Head} {operands : List Node} {typing : Typing}
      (hoperands : ∀ n ∈ operands, Typable params n)
      (htable : ((apply head operands typing).table params).isEmpty = false) :
      Typable params (apply head operands typing)

theorem refreshAll_eq_of_forall {params : List Parameter} {nodes : List Node}
    (h : ∀ n ∈ nodes, refresh params n = (retable params n, none)) :
    refreshAll params nodes = (nodes.map (retable params), none) := by
  induction nodes with
  | nil => rfl
  | cons n rest ih =>
    rw [refreshAll, h n (List.mem_cons_self ..)]
    simp only [ih fun m hm => h m (List.mem_cons_of_mem _ hm), List.map_cons]

theorem Typable.refresh_eq {params : List Parameter} {node : Node} (h : Typable params node) :
    node.refresh params = (node.retable params, none) := by
  induction h with
  | constant v text => rfl
  | parameter id => rfl
  | @apply head operands typing _ htable ih =>
    rw [table_apply] at htable
    have hcosts : (operands.map (retable params)).map (costs params) =
        operands.map (table params) := List.map_map ..
    rw [refresh, refreshAll_eq_of_forall ih]
    simp only [Typing.compute, hcosts, htable, retable, retableAll_eq_map]
    rfl

theorem typable_of_refresh {params : List Parameter} {node : Node}
    (h : (node.refresh params).2 = none) : Typable params node := by
  induction node using Node.induct with
  | constant v text => exact .constant v text
  | parameter id => exact .parameter id
  | apply head operands typing ih =>
    have hall : ∀ n ∈ operands, Typable params n := by
      have hnone : (refreshAll params operands).2 = none := by
        rw [refresh] at h
        split at h
        · simp at h
        · next heq => rw [heq]
      clear h
      induction operands with
      | nil => simp
      | cons n rest ihrest =>
        rw [refreshAll] at hnone
        split at hnone
        · simp at hnone
        · next m heq =>
          have hn : Typable params n := ih n (List.mem_cons_self ..) (by rw [heq])
          have hrest := ihrest (fun k hk => ih k (List.mem_cons_of_mem _ hk)) hnone
          simpa using ⟨hn, hrest⟩
    refine .apply hall ?_
    rw [refresh, refreshAll_eq_of_forall fun n hn => (hall n hn).refresh_eq] at h
    have hcosts : (operands.map (retable params)).map (costs params) =
        operands.map (table params) := List.map_map ..
    simp only [Typing.compute, hcosts] at h
    rw [table_apply]
    by_contra hempty
    rw [Bool.not_eq_false] at hempty
    simp [hempty] at h

/-- Refreshing succeeds exactly on typable trees, and then recomputes all tables. -/
theorem refresh_eq_iff {params : List Parameter} {node node' : Node} :
    node.refresh params = (node', none) ↔ Typable params node ∧ node' = node.retable params := by
  constructor
  · intro h
    have ht : Typable params node := typable_of_refresh (by rw [h])
    refine ⟨ht, ?_⟩
    rw [ht.refresh_eq] at h
    exact (congrArg Prod.fst h).symm
  · rintro ⟨h, rfl⟩
    exact h.refresh_eq

theorem isSome_get?_leaf_mono {a b : TypeMask}
    (h : ∀ t, a.supports t = true → b.supports t = true) {t : ValueType}
    (ht : ((CostTable.leaf a).get? t).isSome) : ((CostTable.leaf b).get? t).isSome := by
  rw [CostTable.isSome_get?_leaf, List.any_eq_true] at ht ⊢
  obtain ⟨s, hs, hc⟩ := ht
  exact ⟨s, TypeMask.mem_types_iff.mpr (h s (TypeMask.mem_types_iff.mp hs)), hc⟩

/-- Wider masks keep every offer of a table. -/
theorem isSome_get?_table_mono {narrow wide : List Parameter} (h : Widens narrow wide)
    {node : Node} {t : ValueType} (ht : ((node.table narrow).get? t).isSome) :
    ((node.table wide).get? t).isSome := by
  induction node using Node.induct generalizing t with
  | constant v text => exact ht
  | parameter id => exact isSome_get?_leaf_mono (h id) ht
  | apply head operands typing ih =>
    rw [table_apply, Typing.isSome_get?_costsFor_iff] at ht ⊢
    obtain ⟨s, hs, hoffer⟩ := ht
    rw [Signature.isSome_offer?, Bool.and_eq_true, Signature.isViable_iff] at hoffer
    refine ⟨s, hs, ?_⟩
    rw [Signature.isSome_offer?, Bool.and_eq_true, Signature.isViable_iff]
    refine ⟨fun i t' costs ht' hcosts => ?_, hoffer.2⟩
    rw [List.getElem?_map, Option.map_eq_some_iff] at hcosts
    obtain ⟨n, hn, rfl⟩ := hcosts
    exact ih n (List.mem_of_getElem? hn) (hoffer.1 i t' _ ht' (by simp [hn]))

theorem table_ne_empty_iff {params : List Parameter} {node : Node} :
    (node.table params).isEmpty = false ↔ ∃ t, ((node.table params).get? t).isSome := by
  rw [← not_iff_not, Bool.not_eq_false, CostTable.isEmpty_iff]
  simp

theorem Typable.mono {narrow wide : List Parameter} (h : Widens narrow wide) {node : Node}
    (hn : Typable narrow node) : Typable wide node := by
  induction hn with
  | constant v text => exact .constant v text
  | parameter id => exact .parameter id
  | apply _ htable ih =>
    rw [table_ne_empty_iff] at htable
    obtain ⟨t, ht⟩ := htable
    exact .apply ih (table_ne_empty_iff.mpr ⟨t, isSome_get?_table_mono h ht⟩)

theorem Typable.refreshAll_eq {params : List Parameter} {nodes : List Node}
    (h : ∀ n ∈ nodes, Typable params n) :
    refreshAll params nodes = (nodes.map (retable params), none) :=
  refreshAll_eq_of_forall fun n hn => (h n hn).refresh_eq

end Node

end Formula
