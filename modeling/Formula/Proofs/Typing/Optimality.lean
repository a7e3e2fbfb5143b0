import Mathlib.Order.Bounds.Defs
import Formula.Proofs.Typing.Selection

/-!
# Inferred types are the cheapest ones

The cost table of a tree is filled from the leaves up, one node at a time, and the overloads are
settled on from the root down. Neither pass looks at a whole tree. This module compares them with
something that does: a *choice* names one overload for every application of a tree, and with it
every edge of the tree, the one above the root included, has a type that is produced and a type
that is asked for. A choice serves a type when all edges convert, and it costs as much as it has
edges on which an integer becomes a numeric.

No choice beats the table (`Node.exists_cost_le`), and the choice that strong determination records
attains it (`Node.recorded_attains`). Both are inductions over the tree; the first follows the
choice, the second the overloads that win in the tables.

## Main definitions

* `Choice`, `Choice.Fills`: one overload for every application of a tree.
* `Node.edges`, `Node.conversions`: the edges of a tree and the number of conversions on them.
* `Choice.Serves`: all edges convert.
* `Node.Complete`: every application still has all overloads of its head.
* `Node.recorded`: the choice that strong determination has written into a tree.

## Main results

* `Node.refresh_optimal`: the tables, the preferred type and the recorded overloads are optimal.
-/

namespace Formula

/-! ### Choices and edges -/

/-- One overload for every application of a tree. -/
inductive Choice where
  | leaf
  | overload (s : Signature) (operands : List Choice)

/-- The choice has the shape of the tree, and takes overloads of the heads in it. -/
inductive Choice.Fills : Node → Choice → Prop
  | constant (v : Value) (text : String) : Fills (.constant v text) .leaf
  | parameter (id : Nat) : Fills (.parameter id) .leaf
  | apply {head : Head} {operands : List Node} {typing : Typing} {s : Signature}
      {choices : List Choice} (hs : s ∈ head.signatures operands.length)
      (hlen : choices.length = operands.length)
      (hoperands : ∀ (i : Nat) n c, operands[i]? = some n → choices[i]? = some c → Fills n c) :
      Fills (.apply head operands typing) (.overload s choices)

/-- The one type of a parameter. -/
def typeAt (params : List Parameter) (id : Nat) : ValueType :=
  (maskAt params id).single?.getD .unknown

namespace Node

mutual

/-- The edges of a tree of which the type `target` is asked, from the root down: the type that the
node below produces and the type that is asked of it. -/
def edges (params : List Parameter) (target : ValueType) :
    Node → Choice → List (ValueType × ValueType)
  | constant v _, _ => [(v.type, target)]
  | parameter id, _ => [(typeAt params id, target)]
  | apply _ _ _, .leaf => []
  | apply _ operands _, .overload s choices =>
    (s.result, target) :: edgesAll params s.args operands choices

/-- The edges of operands of which the types `targets` are asked. -/
def edgesAll (params : List Parameter) :
    List ValueType → List Node → List Choice → List (ValueType × ValueType)
  | t :: targets, n :: operands, c :: choices =>
    edges params t n c ++ edgesAll params targets operands choices
  | _, _, _ => []

end

/-- The number of edges on which an integer becomes a numeric. -/
def conversions (params : List Parameter) (target : ValueType) (node : Node) (choice : Choice) :
    Nat :=
  (node.edges params target choice).count (.integer, .numeric)

/-- Every head has as many operands as it takes, and all its overloads. -/
inductive Complete : Node → Prop
  | constant (v : Value) (text : String) : Complete (constant v text)
  | parameter (id : Nat) : Complete (parameter id)
  | apply {head : Head} {operands : List Node} {typing : Typing}
      (hcount : head.takes operands.length)
      (hsigs : typing.signatures = head.signatures operands.length)
      (hoperands : ∀ n ∈ operands, Complete n) : Complete (apply head operands typing)

theorem Complete.formed {node : Node} (h : node.Complete) : node.Formed := by
  induction h with
  | constant v text => exact .constant v text
  | parameter id => exact .parameter id
  | apply hcount hsigs _ ih => exact .apply hcount (fun s hs => hsigs ▸ hs) ih

mutual

/-- The choice that a settled tree holds. -/
def recorded : Node → Choice
  | constant _ _ | parameter _ => .leaf
  | apply _ operands typing =>
    match typing.selected? with
    | some (_, s) => .overload s (recordedAll operands)
    | none => .leaf

/-- The choices that settled trees hold. -/
def recordedAll : List Node → List Choice
  | [] => []
  | n :: rest => recorded n :: recordedAll rest

end

theorem recordedAll_eq_map (nodes : List Node) : recordedAll nodes = nodes.map recorded := by
  induction nodes with
  | nil => rfl
  | cons n rest ih => rw [recordedAll, ih, List.map_cons]

end Node

/-- With the choice every edge of the tree converts, and the root can be made into `target`. -/
def Choice.Serves (params : List Parameter) (target : ValueType) (node : Node) (choice : Choice) :
    Prop :=
  choice.Fills node ∧
    ∀ edge ∈ node.edges params target choice, (conversionCost? edge.1 edge.2).isSome

/-! ### Edges that convert -/

theorem conversionCost?_eq_count {s t : ValueType} (h : (conversionCost? s t).isSome) :
    conversionCost? s t = some ([(s, t)].count (.integer, .numeric)) := by
  cases s <;> cases t <;> first | rfl | exact absurd h (by decide)

/-- A parameter whose mask is a single type offers what that type converts to. -/
theorem get?_leaf_maskAt {params : List Parameter}
    (hsingle : ∀ p ∈ params, p.supported.single?.isSome) (id : Nat) (t : ValueType) :
    (CostTable.leaf (maskAt params id)).get? t =
      (conversionCost? (typeAt params id) t).map fun c => ⟨c, typeAt params id, 0⟩ := by
  cases hp : params[id]? with
  | none =>
    have hmask : maskAt params id = TypeMask.empty := by simp [maskAt, hp]
    have htype : typeAt params id = .unknown := by rw [typeAt, hmask]; rfl
    rw [hmask, htype]
    cases t <;> rfl
  | some p =>
    have hmask : maskAt params id = p.supported := by simp [maskAt, hp]
    obtain ⟨own, hown⟩ := Option.isSome_iff_exists.mp (hsingle p (List.mem_of_getElem? hp))
    have htype : typeAt params id = own := by rw [typeAt, hmask, hown]; rfl
    have hof : p.supported = TypeMask.of own := TypeMask.eq_of_single? hown
    have hne : own ≠ .unknown := TypeMask.ne_unknown_of_single? hown
    rw [htype, hmask, hof, CostTable.leaf_of hne, CostTable.get?_offerConversions]
    cases conversionCost? own t <;> simp [CostTable.better]

theorem pinned_of_single? {params : List Parameter}
    (hsingle : ∀ p ∈ params, p.supported.single?.isSome) : Pinned params := by
  intro id s t hs ht
  cases hp : params[id]? with
  | none => simp [maskAt, hp] at hs
  | some p =>
    have hmask : maskAt params id = p.supported := by simp [maskAt, hp]
    obtain ⟨own, hown⟩ := Option.isSome_iff_exists.mp (hsingle p (List.mem_of_getElem? hp))
    rw [hmask, TypeMask.supports_of_single? hown, decide_eq_true_iff] at hs ht
    rw [hs, ht]

theorem get?_leaf_constant (v : Value) (t : ValueType) :
    (CostTable.leaf (TypeMask.of v.type)).get? t =
      (conversionCost? v.type t).map fun c => ⟨c, v.type, 0⟩ := by
  have hv : v.type ≠ .unknown := by cases v <;> simp [Value.type]
  rw [CostTable.leaf_of hv, CostTable.get?_offerConversions]
  cases conversionCost? v.type t <;> simp [CostTable.better]

namespace Node

variable {params : List Parameter}

theorem mem_edgesAll_iff {targets : List ValueType} {nodes : List Node} {choices : List Choice}
    {edge : ValueType × ValueType} :
    edge ∈ edgesAll params targets nodes choices ↔
      ∃ (i : Nat) (t : ValueType) (n : Node) (c : Choice), targets[i]? = some t ∧
        nodes[i]? = some n ∧ choices[i]? = some c ∧ edge ∈ n.edges params t c := by
  induction nodes generalizing targets choices with
  | nil => simp [edgesAll]
  | cons n nodes ih =>
    cases targets with
    | nil => simp [edgesAll]
    | cons t targets =>
      cases choices with
      | nil => simp [edgesAll]
      | cons c choices =>
        rw [edgesAll, List.mem_append, ih]
        constructor
        · rintro (hedge | ⟨i, t', n', c', ht, hn, hc, hedge⟩)
          · exact ⟨0, t, n, c, rfl, rfl, rfl, hedge⟩
          · exact ⟨i + 1, t', n', c', by simpa using ht, by simpa using hn, by simpa using hc, hedge⟩
        · rintro ⟨i, t', n', c', ht, hn, hc, hedge⟩
          cases i with
          | zero =>
            simp only [List.getElem?_cons_zero, Option.some.injEq] at ht hn hc
            subst ht hn hc
            exact .inl hedge
          | succ i =>
            exact .inr ⟨i, t', n', c', by simpa using ht, by simpa using hn, by simpa using hc, hedge⟩

/-- Operands that cost at most what a choice has conversions do so together. -/
theorem exists_total_le {targets : List ValueType} {nodes : List Node} {choices : List Choice}
    (htargets : targets.length = nodes.length) (hchoices : choices.length = nodes.length)
    (h : ∀ (i : Nat) t n c, targets[i]? = some t → nodes[i]? = some n → choices[i]? = some c →
      ∃ e, (n.table params).get? t = some e ∧ e.cost ≤ n.conversions params t c) (start : Nat) :
    ∃ sum, Signature.total (List.zipWith (fun t costs => (costs.get? t).map Cost.cost) targets
        (nodes.map (table params))) start = some sum ∧
      sum ≤ start + (edgesAll params targets nodes choices).count (.integer, .numeric) := by
  induction nodes generalizing targets choices start with
  | nil =>
    obtain rfl := List.eq_nil_of_length_eq_zero htargets
    exact ⟨start, rfl, Nat.le_add_right _ _⟩
  | cons n nodes ih =>
    cases targets with
    | nil => simp at htargets
    | cons t targets =>
      cases choices with
      | nil => simp at hchoices
      | cons c choices =>
        obtain ⟨e, he, hle⟩ := h 0 t n c rfl rfl rfl
        obtain ⟨sum, hsum, hbound⟩ := ih (by simpa using htargets) (by simpa using hchoices)
          (fun i t n c ht hn hc => h (i + 1) t n c (by simpa using ht) (by simpa using hn)
            (by simpa using hc)) (start + e.cost)
        refine ⟨sum, ?_, ?_⟩
        · rw [List.map_cons, List.zipWith_cons_cons, he]
          exact hsum
        · rw [edgesAll, List.count_append]
          rw [conversions] at hle
          omega

/-- Operands that cost what a choice has conversions do so together. -/
theorem total_eq_of_forall {targets : List ValueType} {nodes : List Node} {choices : List Choice}
    (htargets : targets.length = nodes.length) (hchoices : choices.length = nodes.length)
    (h : ∀ (i : Nat) t n c e, targets[i]? = some t → nodes[i]? = some n → choices[i]? = some c →
      (n.table params).get? t = some e → n.conversions params t c = e.cost) {start sum : Nat}
    (hsum : Signature.total (List.zipWith (fun t costs => (costs.get? t).map Cost.cost) targets
        (nodes.map (table params))) start = some sum) :
    start + (edgesAll params targets nodes choices).count (.integer, .numeric) = sum := by
  induction nodes generalizing targets choices start with
  | nil =>
    obtain rfl := List.eq_nil_of_length_eq_zero htargets
    exact Option.some.inj hsum
  | cons n nodes ih =>
    cases targets with
    | nil => simp at htargets
    | cons t targets =>
      cases choices with
      | nil => simp at hchoices
      | cons c choices =>
        rw [List.map_cons, List.zipWith_cons_cons] at hsum
        cases he : (n.table params).get? t with
        | none =>
          rw [he] at hsum
          exact absurd hsum (by simp [Signature.total])
        | some e =>
          rw [he] at hsum
          have hrest : start + e.cost +
              (edgesAll params targets nodes choices).count (.integer, .numeric) = sum :=
            ih (by simpa using htargets) (by simpa using hchoices)
              (fun i t n c e ht hn hc => h (i + 1) t n c e (by simpa using ht) (by simpa using hn)
                (by simpa using hc)) hsum
          have hn := h 0 t n c e rfl rfl rfl he
          rw [edgesAll, List.count_append]
          rw [conversions] at hn
          omega

/-- No choice has fewer conversions than the table says. -/
theorem exists_cost_le (hsingle : ∀ p ∈ params, p.supported.single?.isSome) {node : Node}
    (hnode : node.Complete) {t : ValueType} {choice : Choice} (h : choice.Serves params t node) :
    ∃ e, (node.table params).get? t = some e ∧ e.cost ≤ node.conversions params t choice := by
  obtain ⟨hfills, hedges⟩ := h
  induction hfills generalizing t with
  | constant v text =>
    have hconv := conversionCost?_eq_count (hedges (v.type, t) (by simp [edges]))
    refine ⟨⟨_, v.type, 0⟩, ?_, Nat.le_refl _⟩
    rw [table_constant, get?_leaf_constant, hconv]
    rfl
  | parameter id =>
    have hconv := conversionCost?_eq_count (hedges (typeAt params id, t) (by simp [edges]))
    refine ⟨⟨_, typeAt params id, 0⟩, ?_, Nat.le_refl _⟩
    rw [table_parameter, get?_leaf_maskAt hsingle, hconv]
    rfl
  | @apply head operands typing s choices hs hlen hoperands ih =>
    cases hnode with
    | apply hcount hsigs hcomplete =>
    have hargs := Head.length_args hcount hs
    have hconv := conversionCost?_eq_count (hedges (s.result, t) (by simp [edges]))
    have hoperand (i : Nat) (t : ValueType) (n : Node) (c : Choice) (ht : s.args[i]? = some t)
        (hn : operands[i]? = some n) (hc : choices[i]? = some c) :
        ∃ e, (n.table params).get? t = some e ∧ e.cost ≤ n.conversions params t c := by
      refine ih i n c hn hc (hcomplete n (List.mem_of_getElem? hn)) fun edge hedge => ?_
      have hmem := mem_edgesAll_iff.mpr ⟨i, t, n, c, ht, hn, hc, hedge⟩
      exact hedges edge (List.mem_cons_of_mem _ hmem)
    obtain ⟨sum, hsum, hbound⟩ := exists_total_le hargs hlen hoperand 0
    have hoffer : s.offer? (operands.map (table params)) t =
        some (sum + [(s.result, t)].count (.integer, .numeric)) :=
      Signature.offer?_eq_some_iff.mpr
        ⟨sum, _, (s.operandCost?_eq_total _).trans hsum, hconv, rfl⟩
    have hsome : ((Typing.costsFor typing.signatures (operands.map (table params))).get? t).isSome :=
      Typing.isSome_get?_costsFor_iff.mpr ⟨s, hsigs ▸ hs, by simp [hoffer]⟩
    obtain ⟨e, he⟩ := Option.isSome_iff_exists.mp hsome
    obtain ⟨w, hw, -⟩ := Typing.get?_costsFor_eq_some_iff.mp he
    refine ⟨e, by rw [table_apply, he], ?_⟩
    have hle := hw.le (hsigs ▸ hs) hoffer
    rw [conversions, edges, ← List.singleton_append, List.count_append]
    omega

theorem recorded_strengthen_apply {head : Head} {operands : List Node} {typing : Typing}
    {t : ValueType} {s : Signature} {place cost : Nat}
    (hs : FirstCheapest (fun s => s.offer? (operands.map (table params)) t) typing.signatures s
      place cost)
    (hlen : s.args.length = operands.length)
    (h : ∀ (i : Nat) t n, s.args[i]? = some t → operands[i]? = some n →
      (strengthen t (n.retable params) params).2 = (params, none)) :
    (strengthen t ((apply head operands typing).retable params) params).1.recorded =
      .overload s (List.zipWith
        (fun t n => (strengthen t (n.retable params) params).1.recorded) s.args operands) := by
  have hselected : Typing.selected?
      { typing with
        costs := Typing.costsFor typing.signatures (operands.map (table params))
        chosen := some (t, place) } = some (t, s) := by
    simp [Typing.selected?, hs.getElem?]
  rw [strengthen_apply_eq hs hlen h, recorded, hselected]
  dsimp only
  rw [recordedAll_eq_map, List.map_zipWith]

/-- The choice that strong determination records serves the type asked for, and has as many
conversions as the table says. -/
theorem recorded_attains (hsingle : ∀ p ∈ params, p.supported.single?.isSome) {node : Node}
    (hnode : node.Complete) {t : ValueType} {e : Cost} (he : (node.table params).get? t = some e) :
    (strengthen t (node.retable params) params).1.recorded.Serves params t node ∧
      node.conversions params t (strengthen t (node.retable params) params).1.recorded =
        e.cost := by
  induction node using Node.induct generalizing t e with
  | constant v text =>
    rw [table_constant, get?_leaf_constant, Option.map_eq_some_iff] at he
    obtain ⟨c, hc, rfl⟩ := he
    have hsome : (conversionCost? v.type t).isSome := by simp [hc]
    rw [conversionCost?_eq_count hsome, Option.some.injEq] at hc
    exact ⟨⟨.constant v text, by simpa [edges, retable, strengthen, recorded] using hsome⟩, hc⟩
  | parameter id =>
    rw [table_parameter, get?_leaf_maskAt hsingle, Option.map_eq_some_iff] at he
    obtain ⟨c, hc, rfl⟩ := he
    have hsome : (conversionCost? (typeAt params id) t).isSome := by simp [hc]
    rw [conversionCost?_eq_count hsome, Option.some.injEq] at hc
    have hleaf : (strengthen t ((parameter id).retable params) params).1.recorded = .leaf := by
      rw [retable, strengthen]
      split <;> rfl
    rw [hleaf]
    exact ⟨⟨.parameter id, by simpa [edges] using hsome⟩, hc⟩
  | apply head operands typing ih =>
    have hpin : Pinned params := pinned_of_single? hsingle
    have hformed := hnode.formed
    have hoffered : (((apply head operands typing).table params).get? t).isSome := by simp [he]
    obtain ⟨s, place, cost, hs, hconv, hoffers⟩ := exists_firstCheapest hoffered
    rw [table_apply] at he
    obtain ⟨w, hw, -⟩ := Typing.get?_costsFor_eq_some_iff.mp he
    obtain ⟨rfl, -, rfl⟩ := hs.unique hw
    have hlen := hformed.length_args hs.mem
    cases hnode with
    | apply hcount hsigs hcomplete =>
    cases hformed with
    | apply _ _ hoperands =>
    rw [recorded_strengthen_apply hs hlen fun i t n ht hn => (strengthen_retable hpin
      (hoperands n (List.mem_of_getElem? hn)) (hoffers i t n ht hn)).1]
    have hrec (i : Nat) (t : ValueType) (n : Node) (c : Choice) (ht : s.args[i]? = some t)
        (hn : operands[i]? = some n) (hc : (List.zipWith
          (fun t n => (strengthen t (n.retable params) params).1.recorded) s.args operands)[i]? =
          some c) : ∃ e, (n.table params).get? t = some e ∧ c.Serves params t n ∧
            n.conversions params t c = e.cost := by
      rw [List.getElem?_zipWith, ht, hn] at hc
      obtain rfl := Option.some.inj hc
      obtain ⟨e, he⟩ := Option.isSome_iff_exists.mp (hoffers i t n ht hn)
      have hmem := List.mem_of_getElem? hn
      exact ⟨e, he, ih n hmem (hcomplete n hmem) he⟩
    generalize hchoices : List.zipWith
      (fun t n => (strengthen t (n.retable params) params).1.recorded) s.args operands = choices
      at hrec
    have hlen' : choices.length = operands.length := by simp [← hchoices, hlen]
    have hat {i : Nat} {n : Node} (hn : operands[i]? = some n) : ∃ t, s.args[i]? = some t :=
      ⟨_, List.getElem?_eq_getElem (hlen ▸ (List.getElem?_eq_some_iff.mp hn).1)⟩
    refine ⟨⟨.apply (hsigs ▸ hs.mem) hlen' fun i n c hn hc => ?_, ?_⟩, ?_⟩
    · obtain ⟨t, ht⟩ := hat hn
      obtain ⟨e, -, hserves, -⟩ := hrec i t n c ht hn hc
      exact hserves.1
    · rw [edges, List.forall_mem_cons]
      refine ⟨hconv, fun edge hedge => ?_⟩
      obtain ⟨i, t, n, c, ht, hn, hc, hedge⟩ := mem_edgesAll_iff.mp hedge
      obtain ⟨e, -, hserves, -⟩ := hrec i t n c ht hn hc
      exact hserves.2 edge hedge
    · obtain ⟨sum, conversion, hsum, hc, htotal⟩ := Signature.offer?_eq_some_iff.mp hs.price_eq
      rw [conversionCost?_eq_count hconv, Option.some.injEq] at hc
      have hedges := total_eq_of_forall hlen hlen' (fun i t n c e ht hn hc he => by
        obtain ⟨e', he', -, hcost⟩ := hrec i t n c ht hn hc
        rw [he, Option.some.injEq] at he'
        rw [hcost, he']) ((s.operandCost?_eq_total _).symm.trans hsum)
      rw [conversions, edges, ← List.singleton_append, List.count_append]
      omega

/-- Type inference is optimal for parameters of one type each. A type has an offer exactly when
some choice of overloads serves it, and then at the least number of conversions that such a choice
has; the preferred type is the cheapest one, and of equals the one declared first; and the choice
recorded for it by strong determination attains that least number. -/
theorem refresh_optimal (hsingle : ∀ p ∈ params, p.supported.single?.isSome) {node n : Node}
    (hnode : node.Complete) (h : node.refresh params = (n, none)) :
    (∀ t, ((n.costs params).get? t).isSome ↔ ∃ choice, Choice.Serves params t node choice) ∧
    (∀ t c, (n.costs params).get? t = some c →
      IsLeast {k | ∃ choice, Choice.Serves params t node choice ∧
        node.conversions params t choice = k} c.cost) ∧
    (∀ t, (n.costs params).preferred? = some t ↔ t ≠ .unknown ∧ (n.costs params).Prefers t) ∧
    (∀ t c, (n.costs params).preferred? = some t → (n.costs params).get? t = some c →
      ∃ settled, n.strengthen t params = (settled, params, none) ∧
        settled.recorded.Serves params t node ∧
        node.conversions params t settled.recorded = c.cost) := by
  obtain ⟨-, rfl⟩ := refresh_eq_iff.mp h
  have attains {t : ValueType} {c : Cost} (hc : (node.table params).get? t = some c) :=
    recorded_attains hsingle hnode hc
  refine ⟨fun t => ⟨fun ht => ?_, ?_⟩, fun t c hc => ⟨?_, ?_⟩,
    fun t => CostTable.preferred?_eq_some_iff, fun t c ht hc => ?_⟩
  · obtain ⟨c, hc⟩ := Option.isSome_iff_exists.mp ht
    exact ⟨_, (attains hc).1⟩
  · rintro ⟨choice, hserves⟩
    obtain ⟨e, he, -⟩ := exists_cost_le hsingle hnode hserves
    exact Option.isSome_iff_exists.mpr ⟨e, he⟩
  · exact ⟨_, attains hc⟩
  · rintro k ⟨choice, hserves, rfl⟩
    obtain ⟨e, he, hle⟩ := exists_cost_le hsingle hnode hserves
    obtain rfl : e = c := Option.some.inj (he.symm.trans hc)
    exact hle
  · have hsettled := strengthen_retable (pinned_of_single? hsingle) hnode.formed
      (CostTable.isSome_get?_of_preferred? ht)
    exact ⟨_, Prod.ext rfl hsettled.1, attains hc⟩

/-- In `x + y / y` for integers the quotient makes its operands numeric, and with them the other
summand: no choice of overloads has fewer than three conversions. -/
theorem refresh_optimal_quotient :
    let params : List Parameter := [⟨"x", TypeMask.of .integer⟩, ⟨"y", TypeMask.of .integer⟩]
    let quotient := undetermined (.binary (.operate .divide)) [parameter 1, parameter 1]
    let sum := undetermined (.binary (.operate .add)) [parameter 0, quotient]
    ∃ n settled, sum.refresh params = (n, none) ∧
      (n.costs params).preferred? = some .numeric ∧
      IsLeast {k | ∃ choice, Choice.Serves params .numeric sum choice ∧
        sum.conversions params .numeric choice = k} 3 ∧
      n.strengthen .numeric params = (settled, params, none) ∧
      settled.recorded.Serves params .numeric sum ∧
      sum.conversions params .numeric settled.recorded = 3 := by
  intro params quotient sum
  have hsingle : ∀ p ∈ params, p.supported.single?.isSome := by decide
  have hparameter (n : Node) (hn : n ∈ [parameter 1, parameter 1]) : n.Complete := by
    obtain rfl : n = parameter 1 := by simpa using hn
    exact .parameter 1
  have hquotient : quotient.Complete := .apply rfl rfl hparameter
  have hsum : sum.Complete := by
    refine .apply rfl rfl fun n hn => ?_
    obtain rfl | rfl : n = parameter 0 ∨ n = quotient := by simpa using hn
    · exact .parameter 0
    · exact hquotient
  have hfault : (sum.refresh params).2 = none := by decide
  have hpreferred : ((sum.refresh params).1.costs params).preferred? = some .numeric := by
    decide
  have hcost : (((sum.refresh params).1.costs params).get? .numeric).map Cost.cost = some 3 := by
    decide
  obtain ⟨c, hc, hthree⟩ := Option.map_eq_some_iff.mp hcost
  obtain ⟨-, hleast, -, hstrong⟩ := refresh_optimal hsingle hsum (Prod.ext rfl hfault)
  obtain ⟨settled, hsettled, hserves, hattained⟩ := hstrong _ _ hpreferred hc
  rw [hthree] at hattained
  exact ⟨_, settled, Prod.ext rfl hfault, hpreferred, hthree ▸ hleast _ _ hc, hsettled, hserves,
    hattained⟩

end Node

end Formula
