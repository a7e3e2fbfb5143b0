import Formula.Proofs.Typing.Narrowing

/-!
# The overloads that strong determination settles on

Strong determination follows the tables from the root down. On a tree whose tables have just been
recomputed, for parameters of one type each, it succeeds for every type that the root offers, and
it leaves the parameters as they are. What it settles on is recorded twice: as a judgement on the
tree (`Settled`), which lowering relies on, and as a view that forgets everything but the settled
overloads (`Node.outline`), through which two trees can be compared.

## Main definitions

* `Head.takes`, `Node.Formed`: heads have the number of operands they take, and overloads of their
  own.
* `Settled`: every application has settled on an overload that its operands serve.
* `Node.outline`: the tree with the settled overloads only.

## Main results

* `Node.strengthen_retable`: strong determination succeeds and settles the tree.
* `Covers.outline_eq`: a tree that covers another one settles on the same overloads.
-/

namespace Formula

/-! ### Well-formed trees -/

/-- Whether a head takes a number of operands. -/
def Head.takes (head : Head) (operands : Nat) : Prop :=
  match head with
  | .unary _ => operands = 1
  | .binary _ => operands = 2
  | .call _ => True

theorem UnaryOp.length_args {op : UnaryOp} {s : Signature} (hs : s ∈ op.signatures) :
    s.args.length = 1 := by
  obtain ⟨t, -, h⟩ := List.mem_filterMap.mp hs
  obtain ⟨r, -, rfl⟩ := Option.map_eq_some_iff.mp h
  rfl

theorem BinaryOp.length_args {op : BinaryOp} {s : Signature} (hs : s ∈ op.signatures) :
    s.args.length = 2 := by
  obtain ⟨l, -, h⟩ := List.mem_flatMap.mp hs
  obtain ⟨r, -, h⟩ := List.mem_filterMap.mp h
  obtain ⟨t, -, rfl⟩ := Option.map_eq_some_iff.mp h
  rfl

theorem Head.length_args {head : Head} {operands : Nat} (hcount : head.takes operands)
    {s : Signature} (hs : s ∈ head.signatures operands) : s.args.length = operands := by
  cases head with
  | unary op => exact (UnaryOp.length_args hs).trans hcount.symm
  | binary op => exact (BinaryOp.length_args hs).trans hcount.symm
  | call f => simpa using (List.mem_filter.mp hs).2

namespace Node

/-- Every head has as many operands as it takes, and only overloads of its own. -/
inductive Formed : Node → Prop
  | constant (v : Value) (text : String) : Formed (constant v text)
  | parameter (id : Nat) : Formed (parameter id)
  | apply {head : Head} {operands : List Node} {typing : Typing}
      (hcount : head.takes operands.length)
      (hsigs : ∀ s ∈ typing.signatures, s ∈ head.signatures operands.length)
      (hoperands : ∀ n ∈ operands, Formed n) : Formed (apply head operands typing)

theorem Formed.length_args {head : Head} {operands : List Node} {typing : Typing}
    (h : Formed (Node.apply head operands typing)) {s : Signature} (hs : s ∈ typing.signatures) :
    s.args.length = operands.length := by
  cases h with
  | apply hcount hsigs _ => exact Head.length_args hcount (hsigs s hs)

theorem Formed.retable {params : List Parameter} {node : Node} (h : Formed node) :
    Formed (node.retable params) := by
  induction h with
  | constant v text => exact .constant v text
  | parameter id => exact .parameter id
  | apply hcount hsigs _ ih =>
    rw [Node.retable, retableAll_eq_map]
    refine .apply (by simpa using hcount) (by simpa using hsigs) ?_
    simpa using ih

end Node

theorem Covers.formed {ps : List Parameter} {mask : TypeMask} {u n : Node}
    (h : Covers ps mask u n) (hu : u.Formed) : n.Formed := by
  induction h with
  | constant v text => exact .constant _ _
  | parameter id => exact .parameter _
  | @apply mask head us ns tu tn keep hlen harity hsigs hkeep hoperands ih =>
    cases hu with
    | apply hcount husigs hus =>
      refine .apply (hlen ▸ hcount) (fun s hs => ?_) (fun n hn => ?_)
      · exact hlen ▸ husigs s (List.mem_filter.mp (hsigs ▸ hs)).1
      · obtain ⟨i, hi⟩ := List.mem_iff_getElem?.mp hn
        have hlt : i < us.length := hlen ▸ (List.getElem?_eq_some_iff.mp hi).1
        have hui : us[i]? = some us[i] := List.getElem?_eq_getElem hlt
        exact ih i _ n hui hi (hus _ (List.mem_of_getElem? hui))

/-! ### Settled trees -/

/-- The tree produces the type `target`: every application has settled on an overload of its head
whose result converts to the type asked for, and every operand produces the argument type. -/
inductive Settled (params : List Parameter) : ValueType → Node → Prop
  | constant {target : ValueType} {v : Value} {text : String}
      (hconv : (conversionCost? v.type target).isSome) :
      Settled params target (.constant v text)
  | parameter {target own : ValueType} {id : Nat} {p : Parameter} (hp : params[id]? = some p)
      (hown : p.supported = TypeMask.of own) (hconv : (conversionCost? own target).isSome) :
      Settled params target (.parameter id)
  | apply {target : ValueType} {head : Head} {operands : List Node} {typing : Typing}
      {s : Signature} (hcount : head.takes operands.length)
      (hs : s ∈ head.signatures operands.length)
      (hselected : typing.selected? = some (target, s))
      (hconv : (conversionCost? s.result target).isSome)
      (hoperands : ∀ (i : Nat) t n, s.args[i]? = some t → operands[i]? = some n →
        Settled params t n) :
      Settled params target (.apply head operands typing)

/-! ### Strong determination -/

theorem Pinned.mask_eq_of {params : List Parameter} (hpin : Pinned params) {id : Nat}
    {t : ValueType} (ht : (maskAt params id).supports t = true) :
    ∃ p, params[id]? = some p ∧ p.supported = TypeMask.of t := by
  cases hp : params[id]? with
  | none => simp [maskAt, hp] at ht
  | some p =>
    have hmask : maskAt params id = p.supported := by simp [maskAt, hp]
    have hne := TypeMask.ne_unknown_of_supports ht
    refine ⟨p, rfl, TypeMask.ext_supports fun s => ?_⟩
    rw [TypeMask.supports_of hne]
    by_cases hs : s = t
    · simpa [hs, hmask] using ht
    · have hno : ¬p.supported.supports s = true := fun h => hs (hpin id s t (by rwa [hmask]) ht)
      simpa [hs] using hno

/-- Narrowing a pinned parameter to a mask that holds its type changes nothing. -/
theorem Pinned.narrow_eq {params : List Parameter} (hpin : Pinned params) {id : Nat}
    {t : ValueType} (ht : (maskAt params id).supports t = true) {mask : TypeMask}
    (hmask : mask.supports t = true) : narrow params id mask = .ok params := by
  obtain ⟨p, hp, hown⟩ := hpin.mask_eq_of ht
  have hne := TypeMask.ne_unknown_of_supports ht
  have hinter : p.supported.inter mask = p.supported := by
    rw [hown]
    cases t <;> simp_all [TypeMask.of, TypeMask.inter, TypeMask.empty, TypeMask.supports]
  refine narrow_eq_ok_iff.mpr ⟨p, hp, ⟨t, ?_, hmask⟩, ?_⟩
  · simp [hown, TypeMask.supports_of hne]
  · obtain ⟨hlt, rfl⟩ := List.getElem?_eq_some_iff.mp hp
    rw [hinter]
    exact (List.set_getElem_self hlt).symm

namespace Node

/-- Operands that can each be made to produce their targets are so in turn. -/
theorem strengthenAll_eq {params : List Parameter} {targets : List ValueType} {nodes : List Node}
    (hlen : targets.length = nodes.length)
    (h : ∀ (i : Nat) t n, targets[i]? = some t → nodes[i]? = some n →
      (strengthen t n params).2 = (params, none)) :
    strengthenAll targets nodes params =
      (List.zipWith (fun t n => (strengthen t n params).1) targets nodes, params, none) := by
  induction nodes generalizing targets with
  | nil =>
    obtain rfl := List.eq_nil_of_length_eq_zero hlen
    rfl
  | cons n nodes ih =>
    cases targets with
    | nil => simp at hlen
    | cons t targets =>
      have hn : strengthen t n params = ((strengthen t n params).1, params, none) :=
        Prod.ext rfl (h 0 t n rfl rfl)
      have hrest := ih (by simpa using hlen) fun i t n ht hn =>
        h (i + 1) t n (by simpa using ht) (by simpa using hn)
      rw [strengthenAll, hn]
      simp only [hrest, List.zipWith_cons_cons]

/-- One step of strong determination on recomputed tables: the first cheapest overload is settled
on, and its argument types are asked of the operands. -/
theorem strengthen_apply_eq {params : List Parameter} {head : Head} {operands : List Node}
    {typing : Typing} {t : ValueType} {s : Signature} {place cost : Nat}
    (hs : FirstCheapest (fun s => s.offer? (operands.map (table params)) t) typing.signatures s
      place cost)
    (hlen : s.args.length = operands.length)
    (h : ∀ (i : Nat) t n, s.args[i]? = some t → operands[i]? = some n →
      (strengthen t (n.retable params) params).2 = (params, none)) :
    strengthen t ((apply head operands typing).retable params) params =
      (apply head
        (List.zipWith (fun t n => (strengthen t (n.retable params) params).1) s.args operands)
        { typing with
          costs := Typing.costsFor typing.signatures (operands.map (table params))
          chosen := some (t, place) },
        params, none) := by
  have hcosts : (operands.map (retable params)).map (costs params) =
      operands.map (table params) := List.map_map ..
  have hget : (Typing.costsFor typing.signatures (operands.map (table params))).get? t =
      some ⟨cost, s.result, place⟩ := Typing.get?_costsFor_eq_some_iff.mpr ⟨s, hs, rfl⟩
  have hlen' : s.args.length = (operands.map (retable params)).length := by simpa using hlen
  have hall := strengthenAll_eq hlen' fun i t n ht hn => by
    rw [List.getElem?_map, Option.map_eq_some_iff] at hn
    obtain ⟨m, hm, rfl⟩ := hn
    exact h i t m ht hm
  rw [retable, retableAll_eq_map, strengthen]
  simp only [hcosts, hget, hs.getElem?, hall, List.zipWith_map_right]

/-- The overload that wins for an offered type, with the types it asks of the operands. -/
theorem exists_firstCheapest {params : List Parameter} {head : Head} {operands : List Node}
    {typing : Typing} {t : ValueType}
    (h : (((apply head operands typing).table params).get? t).isSome) :
    ∃ s place cost,
      FirstCheapest (fun s => s.offer? (operands.map (table params)) t) typing.signatures s place
        cost ∧
      (conversionCost? s.result t).isSome ∧
      ∀ (i : Nat) t n, s.args[i]? = some t → operands[i]? = some n →
        ((n.table params).get? t).isSome := by
  rw [table_apply] at h
  obtain ⟨e, he⟩ := Option.isSome_iff_exists.mp h
  obtain ⟨s, hs, -⟩ := Typing.get?_costsFor_eq_some_iff.mp he
  have hoffer : (s.offer? (operands.map (table params)) t).isSome := by simp [hs.price_eq]
  rw [Signature.isSome_offer?, Bool.and_eq_true, Signature.isViable_iff] at hoffer
  refine ⟨s, e.choice, e.cost, hs, hoffer.2, fun i t' n ht' hn => ?_⟩
  exact hoffer.1 i t' _ ht' (by simp [hn])

/-- Strong determination of a tree with fresh tables succeeds for every type that the tree
offers, keeps the parameters, and settles the tree. -/
theorem strengthen_retable {params : List Parameter} (hpin : Pinned params) {node : Node}
    (hf : node.Formed) {t : ValueType} (ht : ((node.table params).get? t).isSome) :
    (strengthen t (node.retable params) params).2 = (params, none) ∧
      Settled params t (strengthen t (node.retable params) params).1 := by
  induction node using Node.induct generalizing t with
  | constant v text =>
    have hv : v.type ≠ .unknown := by cases v <;> simp [Value.type]
    rw [table_constant, CostTable.leaf_of hv, CostTable.isSome_get?_offerConversions] at ht
    have hconv : (conversionCost? v.type t).isSome := by simpa using ht
    rw [retable, strengthen]
    refine ⟨?_, .constant hconv⟩
    obtain ⟨c, hc⟩ := Option.isSome_iff_exists.mp hconv
    simp [hc]
  | parameter id =>
    rw [table_parameter, CostTable.isSome_get?_leaf, List.any_eq_true] at ht
    obtain ⟨own, hown, hconv⟩ := ht
    rw [TypeMask.mem_types_iff] at hown
    have hne := (ne_unknown_of_conversionCost? hconv).2
    have hsource : (TypeMask.of t).sources.supports own = true :=
      TypeMask.supports_sources_iff.mpr ⟨t, by simp [TypeMask.supports_of hne], hconv⟩
    have hnarrow := hpin.narrow_eq hown hsource
    obtain ⟨p, hp, hmask⟩ := hpin.mask_eq_of hown
    rw [retable, strengthen, hnarrow]
    exact ⟨rfl, .parameter hp hmask hconv⟩
  | apply head operands typing ih =>
    obtain ⟨s, place, cost, hs, hconv, hoperands⟩ := exists_firstCheapest ht
    have hlen := hf.length_args hs.mem
    cases hf with
    | apply hcount hsigs hformed =>
    have hstep (i : Nat) (t : ValueType) (n : Node) (ht : s.args[i]? = some t)
        (hn : operands[i]? = some n) :=
      ih n (List.mem_of_getElem? hn) (hformed n (List.mem_of_getElem? hn)) (hoperands i t n ht hn)
    rw [strengthen_apply_eq hs hlen fun i t n ht hn => (hstep i t n ht hn).1]
    have hlen' : (List.zipWith (fun t n => (strengthen t (n.retable params) params).1) s.args
        operands).length = operands.length := by simp [hlen]
    refine ⟨rfl, .apply (hlen'.symm ▸ hcount) (hlen'.symm ▸ hsigs s hs.mem) ?_ hconv ?_⟩
    · simp [Typing.selected?, hs.getElem?]
    · intro i t n hti hni
      rw [List.getElem?_zipWith, hti] at hni
      cases hn : operands[i]? with
      | none => simp [hn] at hni
      | some m =>
        rw [hn] at hni
        obtain rfl := Option.some.inj hni
        exact (hstep i t m hti hn).2

/-! ### The settled overloads as a tree -/

/-- Nothing but the overload settled on and the type asked for. -/
def settledOnly (typing : Typing) : Typing :=
  match typing.selected? with
  | some (target, s) => { signatures := [s], costs := CostTable.empty, chosen := some (target, 0) }
  | none => { signatures := [], costs := CostTable.empty, chosen := none }

theorem settledOnly_of_selected? {typing : Typing} {target : ValueType} {s : Signature}
    (h : typing.selected? = some (target, s)) :
    settledOnly typing =
      { signatures := [s], costs := CostTable.empty, chosen := some (target, 0) } := by
  rw [settledOnly, h]

theorem selected?_settledOnly (typing : Typing) :
    (settledOnly typing).selected? = typing.selected? := by
  rw [settledOnly]
  split
  · next h => rw [h]; rfl
  · next h => rw [h]; rfl

mutual

/-- The tree with the settled overloads only. -/
def outline : Node → Node
  | constant value text => constant value text
  | parameter id => parameter id
  | apply head operands typing => apply head (outlineAll operands) (settledOnly typing)

/-- Trees with the settled overloads only. -/
def outlineAll : List Node → List Node
  | [] => []
  | n :: rest => outline n :: outlineAll rest

end

theorem outlineAll_eq_map (nodes : List Node) : outlineAll nodes = nodes.map outline := by
  induction nodes with
  | nil => rfl
  | cons n rest ih => rw [outlineAll, ih, List.map_cons]

theorem outline_strengthen_apply {params : List Parameter} {head : Head} {operands : List Node}
    {typing : Typing} {t : ValueType} {s : Signature} {place cost : Nat}
    (hs : FirstCheapest (fun s => s.offer? (operands.map (table params)) t) typing.signatures s
      place cost)
    (hlen : s.args.length = operands.length)
    (h : ∀ (i : Nat) t n, s.args[i]? = some t → operands[i]? = some n →
      (strengthen t (n.retable params) params).2 = (params, none)) :
    (strengthen t ((apply head operands typing).retable params) params).1.outline =
      apply head
        (List.zipWith (fun t n => (strengthen t (n.retable params) params).1.outline) s.args
          operands)
        { signatures := [s], costs := CostTable.empty, chosen := some (t, 0) } := by
  rw [strengthen_apply_eq hs hlen h, outline, outlineAll_eq_map, List.map_zipWith]
  congr 1
  exact settledOnly_of_selected? (by simp [Typing.selected?, hs.getElem?])

end Node

/-- A tree that covers the full one settles on the same overloads, for every type of the mask that
the full one offers. -/
theorem Covers.outline_eq {params : List Parameter} (hpin : Pinned params) {mask : TypeMask}
    {u n : Node} (h : Covers params mask u n) (hu : u.Formed) {t : ValueType}
    (hmask : mask.supports t = true) (ht : ((u.table params).get? t).isSome) :
    (Node.strengthen t (n.retable params) params).1.outline =
      (Node.strengthen t (u.retable params) params).1.outline := by
  induction h generalizing t with
  | constant v text => rfl
  | parameter id => rfl
  | @apply mask head us ns tu tn keep hlen harity hsigs hkeep hoperands ih =>
    have hcovers : Covers params mask (.apply head us tu) (.apply head ns tn) :=
      .apply keep hlen harity hsigs hkeep hoperands
    obtain ⟨s, place, cost, hs, -, hoffers⟩ := Node.exists_firstCheapest ht
    obtain ⟨place', hs'⟩ := hcovers.firstCheapest hmask hs
    have hargs := harity s hs.mem
    have hfn := hcovers.formed hu
    cases hu with
    | apply hcount _ hus =>
    cases hfn with
    | apply _ _ hns =>
    have hasked (i : Nat) (t : ValueType) (u : Node) (hti : s.args[i]? = some t)
        (hui : us[i]? = some u) : (Typing.operandMask tn.signatures i).supports t = true :=
      Typing.supports_operandMask hs'.mem hti fun hne => by
        have := hoffers i t u hti hui
        rw [hne, Node.get?_table_unknown] at this
        simp at this
    rw [Node.outline_strengthen_apply hs hargs, Node.outline_strengthen_apply hs' (hargs.trans hlen)]
    · congr 1
      refine List.ext_getElem? fun i => ?_
      rw [List.getElem?_zipWith, List.getElem?_zipWith]
      cases hti : s.args[i]? with
      | none => rfl
      | some t =>
        by_cases hlt : i < us.length
        · have hui : us[i]? = some us[i] := List.getElem?_eq_getElem hlt
          have hni : ns[i]? = some (ns.get ⟨i, hlen ▸ hlt⟩) := List.getElem?_eq_getElem _
          rw [hui, hni]
          exact congrArg some (ih i _ _ hui hni (hus _ (List.mem_of_getElem? hui))
            (hasked i t _ hti hui) (hoffers i t _ hti hui))
        · rw [List.getElem?_eq_none (Nat.le_of_not_lt hlt),
            List.getElem?_eq_none (hlen ▸ Nat.le_of_not_lt hlt)]
    · intro i t n hti hni
      have hlt : i < us.length := hlen ▸ (List.getElem?_eq_some_iff.mp hni).1
      have hui : us[i]? = some us[i] := List.getElem?_eq_getElem hlt
      have hoffer := hoffers i t _ hti hui
      rw [← (hoperands i _ n hui hni).isSome_eq (hasked i t _ hti hui)] at hoffer
      exact (Node.strengthen_retable hpin (hns n (List.mem_of_getElem? hni)) hoffer).1
    · intro i t u hti hui
      have hmem := List.mem_of_getElem? hui
      exact (Node.strengthen_retable hpin (hus u hmem) (hoffers i t u hti hui)).1

end Formula
