import Formula.Proofs.Lowering.Natural

/-!
# Folded constants shift costs by an offset

A folded constant has the natural type of the tree it stands for, and offers the same types at
lower costs. The difference is one number for the tree, whatever the type asked for. So in all the
ancestors the offers differ by one number too, the sum over the constants folded below: the same
overloads are viable, the same ones win, and the same type is preferred. Weak determination of the
two trees therefore runs in step: it narrows the same parameters, in the same order, and succeeds
or fails together.

The relation `Folds` compares trees as they are, with tables that may be out of date, because
narrowing an operand may outdate the table of an operand before it.

## Main definitions

* `Raised`: one table offers what another one does, at an additional cost.
* `Folds`: a tree with some subtrees folded, and the offset of the costs.
* `InStep`: two narrowings have the same effect and related results.

## Main results

* `raised_costsFor`: the offset of an application is the sum of the offsets of its operands.
* `Folds.raised_costs`, `Folds.raised_table`: folding shifts all costs of a tree.
* `Folds.weaken`: weak determination runs in step.
-/

namespace Formula

/-! ### Tables with an offset -/

/-- Every offer of the first table is one of the second, at an additional cost. -/
def Raised (k : Nat) (a b : CostTable) : Prop :=
  ∀ t, (a.get? t).map Cost.cost = ((b.get? t).map Cost.cost).map (k + ·)

namespace Raised

variable {k l : Nat} {a b c : CostTable}

theorem refl (a : CostTable) : Raised 0 a a := by
  intro t
  cases a.get? t <;> simp

theorem trans (hab : Raised k a b) (hbc : Raised l b c) : Raised (k + l) a c := by
  intro t
  rw [hab t, hbc t]
  cases c.get? t <;> simp [Nat.add_assoc]

theorem isSome_eq (h : Raised k a b) (t : ValueType) : (a.get? t).isSome = (b.get? t).isSome := by
  simpa using congrArg Option.isSome (h t)

theorem isEmpty_eq (h : Raised k a b) : a.isEmpty = b.isEmpty := by
  rw [Bool.eq_iff_iff, CostTable.isEmpty_iff, CostTable.isEmpty_iff]
  refine forall_congr' fun t => ?_
  rw [← Option.isNone_iff_eq_none, ← Option.isNone_iff_eq_none, ← Option.not_isSome,
    ← Option.not_isSome, h.isSome_eq]

/-- An offset does not change which type is the first cheapest. -/
theorem preferred?_eq (h : Raised k a b) : a.preferred? = b.preferred? := by
  refine Option.ext fun t => ?_
  rw [CostTable.preferred?_eq_some_iff, CostTable.preferred?_eq_some_iff]
  refine and_congr_right fun _ => ?_
  have hcost {t : ValueType} {c d : Cost} (hc : a.get? t = some c) (hd : b.get? t = some d) :
      c.cost = k + d.cost := by
    simpa [hc, hd] using h t
  constructor
  · rintro ⟨c, hc, hbest⟩
    obtain ⟨d, hd⟩ := Option.isSome_iff_exists.mp ((h.isSome_eq t).symm.trans (by simp [hc]))
    refine ⟨d, hd, fun u e hu he => ?_⟩
    obtain ⟨e', he'⟩ := Option.isSome_iff_exists.mp ((h.isSome_eq u).trans (by simp [he]))
    have hle := hbest u e' hu he'
    rw [hcost hc hd, hcost he' he] at hle
    omega
  · rintro ⟨d, hd, hbest⟩
    obtain ⟨c, hc⟩ := Option.isSome_iff_exists.mp ((h.isSome_eq t).trans (by simp [hd]))
    refine ⟨c, hc, fun u e hu he => ?_⟩
    obtain ⟨e', he'⟩ := Option.isSome_iff_exists.mp ((h.isSome_eq u).symm.trans (by simp [he]))
    have hle := hbest u e' hu he'
    rw [hcost hc hd, hcost he he']
    omega

end Raised

theorem raised_single (cost choice choice' : Nat) (natural : ValueType) :
    Raised cost (CostTable.single cost natural choice) (CostTable.single 0 natural choice') := by
  intro t
  rw [CostTable.get?_single, CostTable.get?_single]
  cases conversionCost? natural t <;> simp

/-- Tables are raised one by one. -/
def RaisedAll (ks : List Nat) (as bs : List CostTable) : Prop :=
  as.length = ks.length ∧ bs.length = ks.length ∧
    ∀ (i : Nat) k a b, ks[i]? = some k → as[i]? = some a → bs[i]? = some b → Raised k a b

theorem raisedAll_map {ks : List Nat} {us ns : List Node} {table : Node → CostTable}
    (hus : us.length = ks.length) (hns : ns.length = ks.length)
    (h : ∀ (i : Nat) k u n, ks[i]? = some k → us[i]? = some u → ns[i]? = some n →
      Raised k (table u) (table n)) : RaisedAll ks (us.map table) (ns.map table) := by
  refine ⟨by simpa using hus, by simpa using hns, fun i k a b hk ha hb => ?_⟩
  rw [List.getElem?_map, Option.map_eq_some_iff] at ha hb
  obtain ⟨u, hu, rfl⟩ := ha
  obtain ⟨n, hn, rfl⟩ := hb
  exact h i k u n hk hu hn

/-- The offsets of the operands add up in what an overload costs. -/
theorem Signature.operandCost?_raised {s : Signature} {ks : List Nat} {as bs : List CostTable}
    (hlen : s.args.length = ks.length) (h : RaisedAll ks as bs) :
    s.operandCost? as = (s.operandCost? bs).map (ks.sum + ·) := by
  have fold (args : List ValueType) (ks : List Nat) (as bs : List CostTable)
      (hlen : args.length = ks.length) (h : RaisedAll ks as bs) (start extra : Nat) :
      total (List.zipWith (fun t costs => (CostTable.get? costs t).map Cost.cost) args as)
          (extra + start) =
        (total (List.zipWith (fun t costs => (CostTable.get? costs t).map Cost.cost) args bs)
          start).map (extra + ks.sum + ·) := by
    induction args generalizing ks as bs start extra with
    | nil =>
      obtain rfl := List.length_eq_zero_iff.mp hlen.symm
      simp [total]
    | cons t args ih =>
      obtain ⟨has, hbs, hall⟩ := h
      obtain _ | ⟨k, ks⟩ := ks
      · simp at hlen
      obtain _ | ⟨a, as⟩ := as
      · simp at has
      obtain _ | ⟨b, bs⟩ := bs
      · simp at hbs
      have hrest : RaisedAll ks as bs := ⟨by simpa using has, by simpa using hbs,
        fun i k a b hk ha hb => hall (i + 1) k a b (by simpa using hk) (by simpa using ha)
          (by simpa using hb)⟩
      have hfirst := hall 0 k a b rfl rfl rfl t
      simp only [List.zipWith_cons_cons, total, List.foldlM_cons, hfirst]
      cases (b.get? t).map Cost.cost with
      | none => rfl
      | some c =>
        have hstep := ih ks as bs (by simpa using hlen) hrest (start + c) (extra + k)
        rw [show extra + k + (start + c) = extra + start + (k + c) by omega] at hstep
        simpa [total, Nat.add_assoc] using hstep
  rw [operandCost?_eq_total, operandCost?_eq_total]
  simpa [prices] using fold s.args ks as bs hlen h 0 0

theorem Signature.isViable_raised {s : Signature} {ks : List Nat} {as bs : List CostTable}
    (hlen : s.args.length = ks.length) (h : RaisedAll ks as bs) : s.isViable as = s.isViable bs := by
  rw [← isSome_operandCost?, ← isSome_operandCost?, operandCost?_raised hlen h, Option.isSome_map]

theorem Signature.offer?_raised {s : Signature} {ks : List Nat} {as bs : List CostTable}
    (hlen : s.args.length = ks.length) (h : RaisedAll ks as bs) (t : ValueType) :
    s.offer? as t = (s.offer? bs t).map (ks.sum + ·) := by
  rw [offer?, offer?, operandCost?_raised hlen h]
  cases s.operandCost? bs with
  | none => rfl
  | some total => cases conversionCost? s.result t <;> simp [Nat.add_assoc]

/-- The offset of an application is the sum of the offsets of its operands. -/
theorem raised_costsFor {signatures : List Signature} {ks : List Nat} {as bs : List CostTable}
    (harity : ∀ s ∈ signatures, s.args.length = ks.length) (h : RaisedAll ks as bs) :
    Raised ks.sum (Typing.costsFor signatures as) (Typing.costsFor signatures bs) := by
  intro t
  have hoffer (s : Signature) (hs : s ∈ signatures) :
      s.offer? as t = (s.offer? bs t).map (ks.sum + ·) :=
    Signature.offer?_raised (harity s hs) h t
  cases hb : (Typing.costsFor signatures bs).get? t with
  | none =>
    have hnone : (Typing.costsFor signatures as).get? t = none := by
      rw [Typing.get?_costsFor_eq_none_iff] at hb ⊢
      intro s hs
      rw [hoffer s hs, hb s hs, Option.map_none]
    rw [hnone]
    rfl
  | some e =>
    obtain ⟨s, hs, -⟩ := Typing.get?_costsFor_eq_some_iff.mp hb
    have ha : (Typing.costsFor signatures as).get? t =
        some ⟨ks.sum + e.cost, s.result, e.choice⟩ :=
      Typing.get?_costsFor_eq_some_iff.mpr ⟨s, hs.raise hoffer, rfl⟩
    rw [ha]
    rfl

/-! ### Natural overloads among fewer overloads -/

/-- The first cheapest overload stays so among fewer overloads if it is one of them. -/
theorem FirstCheapest.filter_of_keep {price : Signature → Option Nat} {signatures : List Signature}
    {s : Signature} {place cost : Nat} {keep : Signature → Bool}
    (h : FirstCheapest price signatures s place cost) (hkeep : keep s = true) :
    FirstCheapest price (signatures.filter keep) s ((signatures.take place).filter keep).length
      cost := by
  obtain ⟨before, after, rfl, rfl, hs, hbefore, hafter⟩ := h
  refine ⟨before.filter keep, after.filter keep, by simp [hkeep], by simp, hs, ?_, ?_⟩
  · exact fun s' hs' => hbefore s' (List.mem_filter.mp hs').1
  · exact fun s' hs' => hafter s' (List.mem_filter.mp hs').1

/-- The natural overload is the first cheapest one for every type that its result converts to. -/
theorem Natural.firstCheapest {signatures : List Signature} {types : List ValueType}
    {s : Signature} {choice cost : Nat} (h : Natural signatures types s choice cost)
    {t : ValueType} {conversion : Nat} (ht : conversionCost? s.result t = some conversion) :
    FirstCheapest (fun s => s.offer? (types.map fun t => CostTable.single 0 t 0) t) signatures s
      choice (cost + conversion) := by
  have hget := congrArg (fun table => table.get? t) h.table
  simp only [CostTable.get?_single, ht, Option.map_some] at hget
  obtain ⟨s', hs', -⟩ := Typing.get?_costsFor_eq_some_iff.mp hget
  obtain rfl : s' = s := Option.some.inj (hs'.getElem?.symm.trans h.getElem?)
  exact hs'

/-- An overload that is natural stays so among fewer overloads if it is one of them. -/
theorem Natural.filter {signatures : List Signature} {types : List ValueType} {s : Signature}
    {choice cost : Nat} {keep : Signature → Bool} (h : Natural signatures types s choice cost)
    (hresult : s.result ≠ .unknown) (hkeep : keep s = true) :
    ∃ choice', Natural (signatures.filter keep) types s choice' cost := by
  have hplace := ((h.firstCheapest (conversionCost?_self hresult)).filter_of_keep hkeep).getElem?
  refine ⟨_, CostTable.ext_get? fun t => ?_, hplace, fun hargs s' hs' =>
    h.exact hargs s' (List.mem_filter.mp hs').1⟩
  rw [CostTable.get?_single]
  cases ht : conversionCost? s.result t with
  | none =>
    have hget := congrArg (fun table => table.get? t) h.table
    simp only [CostTable.get?_single, ht, Option.map_none] at hget
    rw [Typing.get?_costsFor_eq_none_iff] at hget
    rw [Option.map_none, Typing.get?_costsFor_eq_none_iff]
    exact fun s' hs' => hget s' (List.mem_filter.mp hs').1
  | some conversion =>
    exact Typing.get?_costsFor_eq_some_iff.mpr
      ⟨s, (h.firstCheapest ht).filter_of_keep hkeep, rfl⟩

namespace Natural

variable {signatures : List Signature} {types : List ValueType} {s : Signature} {choice cost : Nat}

/-- The natural overload accepts the types. -/
theorem isViable (h : Natural signatures types s choice cost) (hresult : s.result ≠ .unknown) :
    s.isViable (types.map fun t => CostTable.single 0 t 0) = true := by
  have hprice := (h.firstCheapest (conversionCost?_self hresult)).price_eq
  have hoffer : (s.offer? (types.map fun t => CostTable.single 0 t 0) s.result).isSome := by
    simp [hprice]
  rw [Signature.isSome_offer?, Bool.and_eq_true] at hoffer
  exact hoffer.1

/-- The natural result converts to all that any overload can give. -/
theorem converts (h : Natural signatures types s choice cost) {s' : Signature}
    (hs' : s' ∈ signatures)
    (hviable : s'.isViable (types.map fun t => CostTable.single 0 t 0) = true) {t : ValueType}
    (ht : (conversionCost? s'.result t).isSome) : (conversionCost? s.result t).isSome := by
  have hget : ((Typing.costsFor signatures (types.map fun t => CostTable.single 0 t 0)).get?
      t).isSome := Typing.isSome_get?_costsFor_iff.mpr ⟨s', hs', by
    rw [Signature.isSome_offer?, hviable, ht]
    rfl⟩
  rwa [h.table, CostTable.get?_single, Option.isSome_map] at hget

end Natural

/-! ### Folded trees -/

/-- A property of operands that holds of those of one tree where it holds of those of another. -/
theorem forall_mem_iff {ks : List Nat} {us ns : List Node} {P : Node → Prop}
    (hus : us.length = ks.length) (hns : ns.length = ks.length)
    (h : ∀ (i : Nat) k u n, ks[i]? = some k → us[i]? = some u → ns[i]? = some n → (P u ↔ P n)) :
    (∀ u ∈ us, P u) ↔ ∀ n ∈ ns, P n := by
  simp only [List.mem_iff_getElem?, forall_exists_index]
  constructor
  · intro hall n i hn
    have hlt : i < ks.length := hns ▸ (List.getElem?_eq_some_iff.mp hn).1
    have hu : us[i]? = some (us.get ⟨i, hus ▸ hlt⟩) := List.getElem?_eq_getElem _
    exact (h i _ _ n (List.getElem?_eq_getElem hlt) hu hn).mp (hall _ i hu)
  · intro hall u i hu
    have hlt : i < ks.length := hus ▸ (List.getElem?_eq_some_iff.mp hu).1
    have hn : ns[i]? = some (ns.get ⟨i, hns ▸ hlt⟩) := List.getElem?_eq_getElem _
    exact (h i _ u _ (List.getElem?_eq_getElem hlt) hu hn).mpr (hall _ i hn)

theorem Node.typable_apply_iff {params : List Parameter} {head : Head} {operands : List Node}
    {typing : Typing} : (apply head operands typing).Typable params ↔
      (∀ n ∈ operands, n.Typable params) ∧
        ((apply head operands typing).table params).isEmpty = false := by
  constructor
  · rintro (_ | _ | ⟨hoperands, htable⟩)
    exact ⟨hoperands, htable⟩
  · rintro ⟨hoperands, htable⟩
    exact .apply hoperands htable

/-- Constants with their texts, as trees. -/
def constants (cs : List (Value × String)) : List Node :=
  cs.map fun c => .constant c.1 c.2

/-- The types of constants. -/
def constantTypes (cs : List (Value × String)) : List ValueType :=
  cs.map fun c => c.1.type

theorem map_costs_constants (params : List Parameter) (cs : List (Value × String)) :
    (constants cs).map (Node.costs params) =
      (constantTypes cs).map fun t => CostTable.single 0 t 0 := by
  rw [constants, constantTypes, List.map_map, List.map_map]
  exact List.map_congr_left fun c _ => CostTable.leaf_of c.1.type_ne_unknown

theorem map_retable_constants (params : List Parameter) (cs : List (Value × String)) :
    (constants cs).map (Node.retable params) = constants cs := by
  rw [constants, List.map_map]
  rfl

theorem map_table_constants (params : List Parameter) (cs : List (Value × String)) :
    (constants cs).map (Node.table params) =
      (constantTypes cs).map fun t => CostTable.single 0 t 0 := by
  rw [← map_costs_constants params, constants, List.map_map, List.map_map]
  rfl

/-- The second tree is the first one with some subtrees folded to constants, and every offer of the
first one costs `k` more. A subtree is folded after its operands are constants; the constant has
the natural type of the application. -/
inductive Folds : Nat → Node → Node → Prop
  | constant (v : Value) (text : String) : Folds 0 (.constant v text) (.constant v text)
  | parameter (id : Nat) : Folds 0 (.parameter id) (.parameter id)
  | apply {head : Head} {us ns : List Node} {tu tn : Typing} {ks : List Nat}
      (hus : us.length = ks.length) (hns : ns.length = ks.length)
      (harity : ∀ s ∈ tn.signatures, s.args.length = ks.length)
      (hsigs : tu.signatures = tn.signatures) (hcosts : Raised ks.sum tu.costs tn.costs)
      (hoperands : ∀ (i : Nat) k u n, ks[i]? = some k → us[i]? = some u → ns[i]? = some n →
        Folds k u n) :
      Folds ks.sum (.apply head us tu) (.apply head ns tn)
  | folded {k cost choice : Nat} {u : Node} {head : Head} {cs : List (Value × String)}
      {typing : Typing} {s : Signature} {v : Value}
      (h : Folds k u (.apply head (constants cs) typing))
      (hnatural : Natural typing.signatures (constantTypes cs) s choice cost)
      (hcosts : typing.costs = CostTable.single cost s.result choice) (htype : s.result = v.type)
      (text : String) : Folds (k + cost) u (.constant v text)

namespace Folds

variable {k : Nat} {u n : Node}

/-- Folding shifts the costs of a tree as its tables are. -/
theorem raised_costs (h : Folds k u n) (params : List Parameter) :
    Raised k (u.costs params) (n.costs params) := by
  induction h with
  | constant v text => exact .refl _
  | parameter id => exact .refl _
  | apply hus hns harity hsigs hcosts hoperands ih => exact hcosts
  | @folded k cost choice u head cs typing s v h hnatural hcosts htype text ih =>
    refine ih.trans ?_
    rw [Node.costs, Node.costs, hcosts, htype, CostTable.leaf_of v.type_ne_unknown]
    exact raised_single _ _ _ _

/-- Folding shifts the costs of a tree as they are recomputed. -/
theorem raised_table (h : Folds k u n) (params : List Parameter) :
    Raised k (u.table params) (n.table params) := by
  induction h with
  | constant v text => exact .refl _
  | parameter id => exact .refl _
  | @apply head us ns tu tn ks hus hns harity hsigs hcosts hoperands ih =>
    rw [Node.table_apply, Node.table_apply, hsigs]
    exact raised_costsFor harity (raisedAll_map hus hns ih)
  | @folded k cost choice u head cs typing s v h hnatural hcosts htype text ih =>
    refine ih.trans ?_
    rw [Node.table_apply, map_table_constants, hnatural.table, Node.table_constant, htype,
      CostTable.leaf_of v.type_ne_unknown]
    exact raised_single _ _ _ _

theorem retable (h : Folds k u n) (params : List Parameter) :
    Folds k (u.retable params) (n.retable params) := by
  induction h with
  | constant v text => exact .constant v text
  | parameter id => exact .parameter id
  | @apply head us ns tu tn ks hus hns harity hsigs hcosts hoperands ih =>
    rw [Node.retable, Node.retable, Node.retableAll_eq_map, Node.retableAll_eq_map]
    refine .apply (by simpa using hus) (by simpa using hns) harity hsigs ?_ ?_
    · have hraised : Raised ks.sum ((Node.apply head us tu).table params)
          ((Node.apply head ns tn).table params) :=
        (Folds.apply hus hns harity hsigs hcosts hoperands).raised_table params
      simpa only [Node.table, Node.retable, Node.retableAll_eq_map, Node.costs] using hraised
    · intro i k u n hk hu hn
      rw [List.getElem?_map, Option.map_eq_some_iff] at hu hn
      obtain ⟨u, hu, rfl⟩ := hu
      obtain ⟨n, hn, rfl⟩ := hn
      exact ih i k u n hk hu hn
  | @folded k cost choice u head cs typing s v h hnatural hcosts htype text ih =>
    rw [Node.retable, Node.retableAll_eq_map, map_retable_constants] at ih
    refine .folded ih hnatural ?_ htype text
    rw [map_costs_constants, hnatural.table]

theorem typable_iff (h : Folds k u n) (params : List Parameter) :
    u.Typable params ↔ n.Typable params := by
  have hraised := h.raised_table params
  induction h with
  | constant v text => exact Iff.rfl
  | parameter id => exact Iff.rfl
  | @apply head us ns tu tn ks hus hns harity hsigs hcosts hoperands ih =>
    rw [Node.typable_apply_iff, Node.typable_apply_iff, hraised.isEmpty_eq]
    refine and_congr_left fun _ => forall_mem_iff hus hns fun i k u n hk hu hn => ?_
    exact ih i k u n hk hu hn ((hoperands i k u n hk hu hn).raised_table params)
  | @folded k cost choice u head cs typing s v h hnatural hcosts htype text ih =>
    refine (ih (h.raised_table params)).trans (iff_of_true ?_ (.constant v text))
    refine .apply (fun c hc => ?_) (Node.table_ne_empty_iff.mpr ⟨v.type, ?_⟩)
    · obtain ⟨c, -, rfl⟩ := List.mem_map.mp hc
      exact .constant c.1 c.2
    · rw [Node.table_apply, map_table_constants, hnatural.table, CostTable.get?_single, htype,
        conversionCost?_self v.type_ne_unknown]
      rfl

end Folds

/-! ### Narrowing in step -/

/-- Two narrowings leave the same parameters, and either both fail or both succeed with trees that
are related. -/
def InStep {α : Type} (R : α → α → Prop) (r q : α × List Parameter × Option TypeFault) : Prop :=
  r.2.1 = q.2.1 ∧ (r.2.2 = none ∧ q.2.2 = none ∧ R r.1 q.1 ∨ r.2.2.isSome ∧ q.2.2.isSome)

namespace Node

theorem size_lt_of_mem {head : Head} {operands : List Node} {typing : Typing} {n : Node}
    (h : n ∈ operands) : n.size < (apply head operands typing).size := by
  have hall (nodes : List Node) (h : n ∈ nodes) : n.size ≤ sizeAll nodes := by
    induction nodes with
    | nil => cases h
    | cons m rest ih =>
      rw [sizeAll]
      rcases List.mem_cons.mp h with rfl | h
      · omega
      · have := ih h
        omega
  have := hall operands h
  rw [size]
  omega

/-- The overloads of an application that a narrowing step leaves over. -/
def leftOver (params : List Parameter) (mask : TypeMask) (operands : List Node)
    (signatures : List Signature) : List Signature :=
  signatures.filter fun s => s.isViable (operands.map (table params)) && s.reaches mask

theorem forall_typable_of_refreshAll {params : List Parameter} {nodes : List Node}
    (h : (refreshAll params nodes).2 = none) : ∀ n ∈ nodes, n.Typable params := by
  induction nodes with
  | nil => simp
  | cons n rest ih =>
    rw [refreshAll] at h
    split at h
    · simp at h
    · next hn =>
      rw [List.forall_mem_cons]
      exact ⟨typable_of_refresh (by rw [hn]), ih h⟩

theorem weaken_apply_of_not_typable {params : List Parameter} {operands : List Node}
    (h : ¬∀ n ∈ operands, n.Typable params) (mask : TypeMask) (head : Head) (typing : Typing) :
    ∃ node fault, (apply head operands typing).weaken mask params = (node, params, some fault) := by
  rw [weaken]
  split
  · exact ⟨_, _, rfl⟩
  · next heq => exact absurd (forall_typable_of_refreshAll (by rw [heq])) h

theorem weaken_apply_of_typable {params : List Parameter} {operands : List Node}
    (h : ∀ n ∈ operands, n.Typable params) (mask : TypeMask) (head : Head) (typing : Typing) :
    (apply head operands typing).weaken mask params =
      let signatures := leftOver params mask operands typing.signatures
      let typing := { typing with signatures }
      if signatures.isEmpty then
        (apply head (operands.map (retable params)) typing, params, some (.noOverloadAmong mask))
      else
        match weakenAll signatures 0 (operands.map (retable params)) params with
        | (operands, params, some fault) => (apply head operands typing, params, some fault)
        | (operands, params, none) =>
          match typing.compute (operands.map (costs params)) with
          | .ok typing => (apply head operands typing, params, none)
          | .error fault => (apply head operands typing, params, some fault) := by
  have hmap : (operands.map (retable params)).map (costs params) =
      operands.map (table params) := List.map_map ..
  have hrefresh := Typable.refreshAll_eq h
  rw [weaken]
  split
  · next heq => simp [hrefresh] at heq
  · next operands' heq =>
    rw [hrefresh, Prod.mk.injEq] at heq
    obtain ⟨rfl, -⟩ := heq
    simp only [hmap, leftOver]
    rfl

end Node

/-- Operands that are narrowed in step one by one are so in turn. -/
theorem inStep_weakenAll {signatures : List Signature} {ks : List Nat} {us ns : List Node}
    (hus : us.length = ks.length) (hns : ns.length = ks.length)
    (h : ∀ (i : Nat) k u n, ks[i]? = some k → us[i]? = some u → ns[i]? = some n →
      ∀ mask params, InStep (Folds k) (u.weaken mask params) (n.weaken mask params))
    (place : Nat) (params : List Parameter) :
    InStep (fun us' ns' => us'.length = ks.length ∧ ns'.length = ks.length ∧
        ∀ (i : Nat) k u n, ks[i]? = some k → us'[i]? = some u → ns'[i]? = some n → Folds k u n)
      (Node.weakenAll signatures place us params) (Node.weakenAll signatures place ns params) := by
  induction ks generalizing us ns place params with
  | nil =>
    obtain rfl := List.length_eq_zero_iff.mp hus
    obtain rfl := List.length_eq_zero_iff.mp hns
    rw [Node.weakenAll]
    exact ⟨rfl, .inl ⟨rfl, rfl, rfl, rfl, by simp⟩⟩
  | cons k ks ih =>
    obtain _ | ⟨u, us⟩ := us
    · simp at hus
    obtain _ | ⟨n, ns⟩ := ns
    · simp at hns
    have hfirst := h 0 k u n rfl rfl rfl (Typing.operandMask signatures place) params
    rw [Node.weakenAll, Node.weakenAll]
    cases hu : u.weaken (Typing.operandMask signatures place) params with
    | mk u' result =>
    obtain ⟨params', fault⟩ := result
    cases hn : n.weaken (Typing.operandMask signatures place) params with
    | mk n' result =>
    obtain ⟨params'', fault'⟩ := result
    rw [hu, hn] at hfirst
    obtain ⟨rfl, ⟨rfl, rfl, hfolds⟩ | ⟨hfault, hfault'⟩⟩ := hfirst
    · have hrest := ih (by simpa using hus) (by simpa using hns) (fun i k u n hk hu hn =>
        h (i + 1) k u n (by simpa using hk) (by simpa using hu) (by simpa using hn)) (place + 1)
        params'
      dsimp only
      refine ⟨hrest.1, hrest.2.imp ?_ id⟩
      rintro ⟨hnone, hnone', hus', hns', hall⟩
      refine ⟨hnone, hnone', by simpa using hus', by simpa using hns', ?_⟩
      rintro (_ | i) k' v m hk hv hm
      · simp only [List.getElem?_cons_zero, Option.some.injEq] at hk hv hm
        subst hk hv hm
        exact hfolds
      · exact hall i k' v m (by simpa using hk) (by simpa using hv) (by simpa using hm)
    · obtain ⟨fault, rfl⟩ := Option.isSome_iff_exists.mp hfault
      obtain ⟨fault', rfl⟩ := Option.isSome_iff_exists.mp hfault'
      exact ⟨rfl, .inr ⟨rfl, rfl⟩⟩

/-! ### Narrowing constants -/

/-- A constant can be narrowed to a mask exactly when it can be made into a type of the mask. -/
theorem weaken_constant (v : Value) (text : String) (mask : TypeMask) (params : List Parameter) :
    ∃ fault, (Node.constant v text).weaken mask params = (.constant v text, params, fault) ∧
      (fault = none ↔ ∃ t, mask.supports t = true ∧ (conversionCost? v.type t).isSome) := by
  have hreach : ((CostTable.leaf (TypeMask.of v.type)).supported.inter mask).isEmpty = false ↔
      ∃ t, mask.supports t = true ∧ (conversionCost? v.type t).isSome := by
    rw [TypeMask.isEmpty_eq_false_iff]
    refine exists_congr fun t => ?_
    rw [TypeMask.supports_inter, Bool.and_eq_true, CostTable.supports_supported,
      CostTable.leaf_of v.type_ne_unknown, CostTable.isSome_get?_offerConversions,
      CostTable.get?_empty]
    constructor
    · rintro ⟨⟨-, hconv⟩, hmask⟩
      exact ⟨hmask, by simpa using hconv⟩
    · rintro ⟨hmask, hconv⟩
      exact ⟨⟨TypeMask.ne_unknown_of_supports hmask, by simpa using hconv⟩, hmask⟩
  rw [Node.weaken]
  refine ⟨_, rfl, ?_⟩
  rw [← hreach]
  cases ((CostTable.leaf (TypeMask.of v.type)).supported.inter mask).isEmpty <;> simp

namespace Folds

variable {k : Nat} {u n : Node}

/-- The step for an application whose operands are narrowed in step. -/
private theorem weaken_apply {head : Head} {us ns : List Node} {tu tn : Typing} {ks : List Nat}
    {mask : TypeMask} {params : List Parameter} (hus : us.length = ks.length)
    (hns : ns.length = ks.length) (harity : ∀ s ∈ tn.signatures, s.args.length = ks.length)
    (hsigs : tu.signatures = tn.signatures)
    (hoperands : ∀ (i : Nat) k u n, ks[i]? = some k → us[i]? = some u → ns[i]? = some n →
      Folds k u n)
    (ih : (∀ u ∈ us, u.Typable params) → ∀ (i : Nat) k u n, ks[i]? = some k → us[i]? = some u →
      ns[i]? = some n → ∀ mask params', InStep (Folds k)
        ((u.retable params).weaken mask params') ((n.retable params).weaken mask params')) :
    InStep (Folds ks.sum) ((Node.apply head us tu).weaken mask params)
      ((Node.apply head ns tn).weaken mask params) := by
  have htypable : (∀ u ∈ us, u.Typable params) ↔ ∀ n ∈ ns, n.Typable params :=
    forall_mem_iff hus hns fun i k u n hk hu hn => (hoperands i k u n hk hu hn).typable_iff params
  by_cases hu : ∀ u ∈ us, u.Typable params
  · have hleft : Node.leftOver params mask us tu.signatures =
        Node.leftOver params mask ns tn.signatures := by
      rw [Node.leftOver, Node.leftOver, hsigs]
      refine List.filter_congr fun s hs => ?_
      rw [Signature.isViable_raised (harity s hs) (raisedAll_map hus hns fun i k u n hk hu hn =>
        (hoperands i k u n hk hu hn).raised_table params)]
    rw [Node.weaken_apply_of_typable hu, Node.weaken_apply_of_typable (htypable.mp hu), hleft]
    have hsub : ∀ s ∈ Node.leftOver params mask ns tn.signatures, s.args.length = ks.length :=
      fun s hs => harity s (List.mem_filter.mp hs).1
    generalize Node.leftOver params mask ns tn.signatures = signatures at hsub
    dsimp only
    split
    · exact ⟨rfl, .inr ⟨rfl, rfl⟩⟩
    · have hstep (i : Nat) (k : Nat) (u n : Node) (hk : ks[i]? = some k)
          (hu' : (us.map (Node.retable params))[i]? = some u)
          (hn' : (ns.map (Node.retable params))[i]? = some n) (mask : TypeMask)
          (params' : List Parameter) :
          InStep (Folds k) (u.weaken mask params') (n.weaken mask params') := by
        rw [List.getElem?_map, Option.map_eq_some_iff] at hu' hn'
        obtain ⟨u, hui, rfl⟩ := hu'
        obtain ⟨n, hni, rfl⟩ := hn'
        exact ih hu i k u n hk hui hni mask params'
      have hall : InStep _ (Node.weakenAll signatures 0 (us.map (Node.retable params)) params)
          (Node.weakenAll signatures 0 (ns.map (Node.retable params)) params) :=
        inStep_weakenAll (by simpa using hus) (by simpa using hns) hstep 0 params
      cases hwu : Node.weakenAll signatures 0 (us.map (Node.retable params)) params with
      | mk us' result =>
      obtain ⟨params', fault⟩ := result
      cases hwn : Node.weakenAll signatures 0 (ns.map (Node.retable params)) params with
      | mk ns' result =>
      obtain ⟨params'', fault'⟩ := result
      rw [hwu, hwn] at hall
      obtain ⟨rfl, ⟨rfl, rfl, hus', hns', hfolds⟩ | ⟨hfault, hfault'⟩⟩ := hall
      · have hraised : Raised ks.sum (Typing.costsFor signatures (us'.map (Node.costs params')))
            (Typing.costsFor signatures (ns'.map (Node.costs params'))) :=
          raised_costsFor hsub (raisedAll_map hus' hns' fun i k u n hk hu hn =>
            (hfolds i k u n hk hu hn).raised_costs params')
        simp only [Typing.compute, hraised.isEmpty_eq]
        cases (Typing.costsFor signatures (ns'.map (Node.costs params'))).isEmpty with
        | true => exact ⟨rfl, .inr ⟨rfl, rfl⟩⟩
        | false => exact ⟨rfl, .inl ⟨rfl, rfl, .apply hus' hns' hsub rfl hraised hfolds⟩⟩
      · obtain ⟨fault, rfl⟩ := Option.isSome_iff_exists.mp hfault
        obtain ⟨fault', rfl⟩ := Option.isSome_iff_exists.mp hfault'
        exact ⟨rfl, .inr ⟨rfl, rfl⟩⟩
  · obtain ⟨node, fault, heq⟩ := Node.weaken_apply_of_not_typable hu mask head tu
    obtain ⟨node', fault', heq'⟩ :=
      Node.weaken_apply_of_not_typable (mt htypable.mpr hu) mask head tn
    rw [heq, heq']
    exact ⟨rfl, .inr ⟨rfl, rfl⟩⟩

/-- Narrowing constants that can be made into what the overloads ask of them changes nothing. -/
theorem weakenAll_constants {signatures : List Signature} {s : Signature} (hs : s ∈ signatures)
    {cs : List (Value × String)} {place : Nat} (params : List Parameter)
    (h : ∀ (i : Nat) c, cs[i]? = some c → ∃ t, s.args[place + i]? = some t ∧
      (conversionCost? c.1.type t).isSome) :
    Node.weakenAll signatures place (constants cs) params = (constants cs, params, none) := by
  induction cs generalizing place with
  | nil =>
    rw [constants, List.map_nil, Node.weakenAll]
  | cons c cs ih =>
    obtain ⟨t, ht, hconv⟩ := h 0 c rfl
    have hmask : (Typing.operandMask signatures place).supports t = true :=
      Typing.supports_operandMask hs ht (ne_unknown_of_conversionCost? hconv).2
    obtain ⟨fault, hfirst, hfault⟩ :=
      weaken_constant c.1 c.2 (Typing.operandMask signatures place) params
    obtain rfl := hfault.mpr ⟨t, hmask, hconv⟩
    have hrest : Node.weakenAll signatures (place + 1) (constants cs) params =
        (constants cs, params, none) := ih fun i d hd => by
      have := h (i + 1) d (by simpa using hd)
      rwa [show place + (i + 1) = place + 1 + i by omega] at this
    rw [constants, List.map_cons, Node.weakenAll, hfirst]
    simp only
    rw [← constants, hrest]

/-- Narrowing an application of constants. -/
theorem weaken_apply_constants (head : Head) (cs : List (Value × String)) (typing : Typing)
    (mask : TypeMask) (params : List Parameter) :
    (Node.apply head (constants cs) typing).weaken mask params =
      let signatures := typing.signatures.filter fun s =>
        s.isViable ((constantTypes cs).map fun t => CostTable.single 0 t 0) && s.reaches mask
      let typing := { typing with signatures }
      if signatures.isEmpty then
        (.apply head (constants cs) typing, params, some (.noOverloadAmong mask))
      else
        match Node.weakenAll signatures 0 (constants cs) params with
        | (operands, params, some fault) => (.apply head operands typing, params, some fault)
        | (operands, params, none) =>
          match typing.compute (operands.map (Node.costs params)) with
          | .ok typing => (.apply head operands typing, params, none)
          | .error fault => (.apply head operands typing, params, some fault) := by
  have htypable : ∀ n ∈ constants cs, n.Typable params := by
    intro n hn
    obtain ⟨c, -, rfl⟩ := List.mem_map.mp hn
    exact .constant c.1 c.2
  rw [Node.weaken_apply_of_typable htypable, map_retable_constants, Node.leftOver,
    map_table_constants]

/-- An application of constants can be narrowed to a mask exactly when the constant it is folded to
can, and keeps its natural overload. The parameters do not matter. -/
theorem weaken_of_natural (head : Head) (typing : Typing) {cs : List (Value × String)}
    {s : Signature} {choice cost : Nat}
    (harity : ∀ s ∈ typing.signatures, s.args.length = cs.length)
    (hnatural : Natural typing.signatures (constantTypes cs) s choice cost)
    (hresult : s.result ≠ .unknown) (mask : TypeMask) :
    ((∃ t, mask.supports t = true ∧ (conversionCost? s.result t).isSome) ∧
      ∃ typing' choice', (∀ params, (Node.apply head (constants cs) typing).weaken mask params =
          (.apply head (constants cs) typing', params, none)) ∧
        (∀ s ∈ typing'.signatures, s ∈ typing.signatures) ∧
        Natural typing'.signatures (constantTypes cs) s choice' cost ∧
        typing'.costs = CostTable.single cost s.result choice') ∨
    (¬(∃ t, mask.supports t = true ∧ (conversionCost? s.result t).isSome) ∧
      ∃ node fault, ∀ params, (Node.apply head (constants cs) typing).weaken mask params =
        (node, params, some fault)) := by
  let keep (s : Signature) : Bool :=
    s.isViable ((constantTypes cs).map fun t => CostTable.single 0 t 0) && s.reaches mask
  by_cases hreach : ∃ t, mask.supports t = true ∧ (conversionCost? s.result t).isSome
  · refine .inl ⟨hreach, ?_⟩
    have hmem := List.mem_of_getElem? hnatural.getElem?
    have hkeep : keep s = true := by
      rw [Bool.and_eq_true, Signature.reaches_iff]
      exact ⟨hnatural.isViable hresult, hreach⟩
    obtain ⟨choice', hleft⟩ := hnatural.filter hresult hkeep
    have hs := List.mem_filter.mpr ⟨hmem, hkeep⟩
    have hsub : ∀ s ∈ typing.signatures.filter keep, s ∈ typing.signatures :=
      fun s hs => (List.mem_filter.mp hs).1
    refine ⟨⟨typing.signatures.filter keep, CostTable.single cost s.result choice', typing.chosen⟩,
      choice', fun params => ?_, hsub, hleft, rfl⟩
    rw [weaken_apply_constants]
    generalize typing.signatures.filter keep = signatures at hs hleft ⊢
    have hne : signatures.isEmpty = false := by
      cases signatures with
      | nil => cases hs
      | cons => rfl
    have hall : Node.weakenAll signatures 0 (constants cs) params = (constants cs, params, none) :=
      weakenAll_constants hs params fun i c hc => by
        have hlt : i < s.args.length := by
          rw [harity s hmem]
          exact (List.getElem?_eq_some_iff.mp hc).1
        refine ⟨s.args[i], by simp, ?_⟩
        have hoffer := Signature.isViable_iff.mp (hnatural.isViable hresult) i s.args[i]
          (CostTable.single 0 c.1.type 0) (List.getElem?_eq_getElem hlt)
          (by simp [constantTypes, hc])
        simpa [CostTable.get?_single] using hoffer
    have htable : (CostTable.single cost s.result choice').isEmpty = false := by
      rw [Bool.eq_false_iff, Ne, CostTable.isEmpty_iff]
      intro hempty
      have := hempty s.result
      simp [CostTable.get?_single, conversionCost?_self hresult] at this
    simp only [hne, hall, Typing.compute, map_costs_constants, hleft.table, htable]
    rfl
  · refine .inr ⟨hreach, ?_⟩
    have hnil : typing.signatures.filter keep = [] := by
      refine List.filter_eq_nil_iff.mpr fun s' hs' hkeep => hreach ?_
      rw [Bool.and_eq_true, Signature.reaches_iff] at hkeep
      obtain ⟨hviable, t, ht, hconv⟩ := hkeep
      exact ⟨t, ht, hnatural.converts hs' hviable hconv⟩
    refine ⟨.apply head (constants cs) { typing with signatures := [] }, .noOverloadAmong mask,
      fun params => ?_⟩
    rw [weaken_apply_constants, hnil]
    rfl

/-- A tree and its folded form are narrowed in step. -/
theorem weaken (h : Folds k u n) (mask : TypeMask) (params : List Parameter) :
    InStep (Folds k) (u.weaken mask params) (n.weaken mask params) := by
  -- Operands are narrowed with their tables recomputed, so the induction is on the size of the tree.
  induction hsize : u.size using Nat.strongRecOn generalizing k u n mask params with
  | _ size ih =>
  subst hsize
  have happly {head : Head} {us ns : List Node} {tu tn : Typing} {ks : List Nat}
      (hu : u = .apply head us tu) (hus : us.length = ks.length) (hns : ns.length = ks.length)
      (harity : ∀ s ∈ tn.signatures, s.args.length = ks.length)
      (hsigs : tu.signatures = tn.signatures)
      (hoperands : ∀ (i : Nat) k u n, ks[i]? = some k → us[i]? = some u → ns[i]? = some n →
        Folds k u n) :
      InStep (Folds ks.sum) ((Node.apply head us tu).weaken mask params)
        ((Node.apply head ns tn).weaken mask params) := by
    refine weaken_apply hus hns harity hsigs hoperands fun htypable i k v m hk hv hm mask' params' =>
      ?_
    have hmem := List.mem_of_getElem? hv
    have hsize : (v.retable params).size = v.size := by
      rw [← Node.size_refresh params v, (htypable v hmem).refresh_eq]
    refine ih _ ?_ ((hoperands i k v m hk hv hm).retable params) mask' params' rfl
    rw [hsize, hu]
    exact Node.size_lt_of_mem hmem
  cases h with
  | constant v text =>
    obtain ⟨fault, hweaken, -⟩ := weaken_constant v text mask params
    rw [hweaken]
    cases fault with
    | none => exact ⟨rfl, .inl ⟨rfl, rfl, .constant v text⟩⟩
    | some fault => exact ⟨rfl, .inr ⟨rfl, rfl⟩⟩
  | parameter id =>
    rw [Node.weaken]
    split
    · exact ⟨rfl, .inl ⟨rfl, rfl, .parameter id⟩⟩
    · exact ⟨rfl, .inr ⟨rfl, rfl⟩⟩
  | apply hus hns harity hsigs hcosts hoperands => exact happly rfl hus hns harity hsigs hoperands
  | @folded k cost choice _ head cs typing s v h hnatural hcosts htype text =>
    cases h with
    | @apply _ us _ tu _ ks hus hns harity hsigs _ hoperands =>
    have hstep := happly rfl hus hns harity hsigs hoperands
    obtain ⟨fault, hconstant, hfault⟩ := weaken_constant v text mask params
    have hresult : s.result ≠ .unknown := htype ▸ v.type_ne_unknown
    have harity' : ∀ s ∈ typing.signatures, s.args.length = cs.length := fun s hs => by
      rw [harity s hs, ← hns, constants, List.length_map]
    rw [hconstant]
    rcases weaken_of_natural head typing harity' hnatural hresult mask with
      ⟨hreach, typing', choice', hweaken, -, hnatural', hcosts'⟩ | ⟨hreach, node, fault', hweaken⟩
    · obtain rfl := hfault.mpr (htype ▸ hreach)
      rw [hweaken] at hstep
      obtain ⟨hparams, ⟨hnone, -, hfolds⟩ | ⟨-, hnone⟩⟩ := hstep
      · exact ⟨hparams, .inl ⟨hnone, rfl, .folded hfolds hnatural' hcosts' htype text⟩⟩
      · cases hnone
    · have hsome : fault.isSome := by
        rw [Option.isSome_iff_ne_none, Ne, hfault, ← htype]
        exact hreach
      rw [hweaken] at hstep
      obtain ⟨hparams, ⟨-, hnone, -⟩ | ⟨hsome', -⟩⟩ := hstep
      · cases hnone
      · exact ⟨hparams, .inr ⟨hsome', hsome⟩⟩

end Folds

end Formula
