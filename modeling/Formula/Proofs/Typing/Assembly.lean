import Formula.Proofs.Typing.Selection

/-!
# Assembling trees from terms

A term is an expression without any types. It becomes a tree in two ways. *Assembling* applies the
constructors of trees bottom-up and from left to right, over parameters that all of them narrow;
each application is weakly determined as soon as it is there. The *full* tree has the same shape
and all overloads of every head.

For arguments of given types the two are equally good. If the full tree can be typed, then
assembling succeeds, the types are still in the masks, and the assembled tree prefers the same
type and settles on the same overloads. If the assembled tree can be typed, so can the full one.

## Main definitions

* `Term`, `Term.parts?`: terms, and the head and operands of a compound one.
* `Term.assemble`, `Term.full`: the two trees of a term.
* `pin`: parameters of one given type each.
* `Restricts`: a tree has the shape of another one and no overloads beyond its overloads.

## Main results

* `Term.assemble_covers`: assembling succeeds where the full tree can be typed, and covers it.
* `Term.full_restricts`: an assembled tree restricts the full one.
* `Term.assemble_keeps_typings`: weak narrowing loses no typing and adds none.
-/

namespace Formula

/-! ### Terms -/

/-- An expression without types. -/
inductive Term where
  | constant (value : Value) (text : String)
  | parameter (id : Nat)
  | unary (op : UnaryOp) (operand : Term)
  | binary (op : BinaryOp) (left right : Term)
  | call (f : Function) (args : List Term)
  deriving Inhabited

namespace Term

/-- The head and the operands of a compound term. -/
def parts? : Term → Option (Head × List Term)
  | constant _ _ | parameter _ => none
  | unary op operand => some (.unary op, [operand])
  | binary op left right => some (.binary op, [left, right])
  | call f args => some (.call f, args)

theorem takes_of_parts? {term : Term} {head : Head} {operands : List Term}
    (h : term.parts? = some (head, operands)) : head.takes operands.length := by
  cases term <;> simp only [parts?, Option.some.injEq, Prod.mk.injEq, reduceCtorEq] at h <;>
    obtain ⟨rfl, rfl⟩ := h <;> simp [Head.takes]

/-- Induction over terms, with one case for all compound ones. -/
@[elab_as_elim]
theorem induct {motive : Term → Prop} (constant : ∀ v text, motive (.constant v text))
    (parameter : ∀ id, motive (.parameter id))
    (compound : ∀ term head operands, term.parts? = some (head, operands) →
      (∀ a ∈ operands, motive a) → motive term) (term : Term) : motive term := by
  refine @Term.rec motive (fun terms => ∀ a ∈ terms, motive a) constant parameter ?_ ?_ ?_ ?_ ?_
    term
  · exact fun op operand ih => compound _ _ _ rfl (by simpa using ih)
  · exact fun op left right ihl ihr => compound _ _ _ rfl (by simpa using ⟨ihl, ihr⟩)
  · exact fun f args ih => compound _ _ _ rfl ih
  · simp
  · exact fun a rest iha ihrest => by simpa using ⟨iha, ihrest⟩

mutual

/-- The tree with all overloads, before any determination. -/
def full : Term → Node
  | constant value text => .constant value text
  | parameter id => .parameter id
  | unary op operand => .undetermined (.unary op) [operand.full]
  | binary op left right => .undetermined (.binary op) [left.full, right.full]
  | call f args => .undetermined (.call f) (fullAll args)

/-- The trees of several terms. -/
def fullAll : List Term → List Node
  | [] => []
  | a :: rest => a.full :: fullAll rest

end

mutual

/-- Assembles the tree of a term bottom-up and from left to right. The parameters are returned as
they are left, also by a failure. -/
def assemble (term : Term) (params : List Parameter) : Except TypeFault Node × List Parameter :=
  match term with
  | constant value text => (.ok (.constant value text), params)
  | parameter id => (.ok (.parameter id), params)
  | unary op operand =>
    match operand.assemble params with
    | (.ok operand, params) => Node.unary op operand params
    | (.error fault, params) => (.error fault, params)
  | binary op left right =>
    match left.assemble params with
    | (.error fault, params) => (.error fault, params)
    | (.ok left, params) =>
      match right.assemble params with
      | (.error fault, params) => (.error fault, params)
      | (.ok right, params) => Node.binary op left right params
  | call f args =>
    match assembleAll args params with
    | (.ok args, params) => Node.call f args params
    | (.error fault, params) => (.error fault, params)

/-- Assembles the trees of several terms in turn. -/
def assembleAll (terms : List Term) (params : List Parameter) :
    Except TypeFault (List Node) × List Parameter :=
  match terms with
  | [] => (.ok [], params)
  | a :: rest =>
    match a.assemble params with
    | (.error fault, params) => (.error fault, params)
    | (.ok a, params) =>
      match assembleAll rest params with
      | (.error fault, params) => (.error fault, params)
      | (.ok rest, params) => (.ok (a :: rest), params)

end

theorem fullAll_eq_map (terms : List Term) : fullAll terms = terms.map full := by
  induction terms with
  | nil => rfl
  | cons a rest ih => rw [fullAll, ih, List.map_cons]

theorem full_of_parts? {term : Term} {head : Head} {operands : List Term}
    (h : term.parts? = some (head, operands)) :
    term.full = .undetermined head (operands.map full) := by
  cases term <;> simp only [parts?, Option.some.injEq, Prod.mk.injEq, reduceCtorEq] at h <;>
    obtain ⟨rfl, rfl⟩ := h <;> simp [full, fullAll_eq_map]

theorem assemble_of_parts? {term : Term} {head : Head} {operands : List Term}
    (h : term.parts? = some (head, operands)) (params : List Parameter) :
    term.assemble params =
      match assembleAll operands params with
      | (.ok operands, params) => Node.assemble head operands params
      | (.error fault, params) => (.error fault, params) := by
  cases term with
  | constant v text => simp [parts?] at h
  | parameter id => simp [parts?] at h
  | unary op operand =>
    obtain ⟨rfl, rfl⟩ := Prod.mk.inj (Option.some.inj h)
    simp only [assemble, assembleAll]
    rcases operand.assemble params with ⟨_ | _, _⟩ <;> rfl
  | binary op left right =>
    obtain ⟨rfl, rfl⟩ := Prod.mk.inj (Option.some.inj h)
    simp only [assemble, assembleAll]
    rcases left.assemble params with ⟨_ | _, params'⟩
    · rfl
    · dsimp only
      rcases right.assemble params' with ⟨_ | _, _⟩ <;> rfl
  | call f args =>
    obtain ⟨rfl, rfl⟩ := Prod.mk.inj (Option.some.inj h)
    simp only [assemble]
    rcases assembleAll args params with ⟨_ | _, _⟩ <;> rfl

theorem formed_full (term : Term) : term.full.Formed := by
  induction term using Term.induct with
  | constant v text => exact .constant v text
  | parameter id => exact .parameter id
  | compound term head operands h ih =>
    rw [full_of_parts? h, Node.undetermined]
    refine .apply (by simpa using takes_of_parts? h) (fun s hs => hs) ?_
    simpa using ih

end Term

/-! ### Parameters of one type each -/

/-- The parameters, each with the type given for it. -/
def pin (params : List Parameter) (types : List ValueType) : List Parameter :=
  params.zipWith (fun p t => { p with supported := TypeMask.of t }) types

/-- The types given for the parameters lie in their masks. -/
def Within (types : List ValueType) (params : List Parameter) : Prop :=
  ∀ (id : Nat) t, types[id]? = some t → (maskAt params id).supports t = true

section Pin

variable {params params' : List Parameter} {types : List ValueType}

theorem supports_maskAt_pin_iff (htypes : .unknown ∉ types) {id : Nat} {t : ValueType} :
    (maskAt (pin params types) id).supports t = true ↔
      id < params.length ∧ types[id]? = some t := by
  rw [maskAt, pin, List.getElem?_zipWith]
  cases hp : params[id]? with
  | none =>
    rw [List.getElem?_eq_none_iff] at hp
    simp [Nat.not_lt.mpr hp]
  | some p =>
    have hlt := (List.getElem?_eq_some_iff.mp hp).1
    cases hown : types[id]? with
    | none => simp
    | some own =>
      have hne : own ≠ .unknown := fun h => htypes (h ▸ List.mem_of_getElem? hown)
      simp [TypeMask.supports_of hne, hlt, eq_comm]

theorem pinned_pin (htypes : .unknown ∉ types) : Pinned (pin params types) := by
  intro id s t hs ht
  rw [supports_maskAt_pin_iff htypes] at hs ht
  exact Option.some.inj (hs.2.symm.trans ht.2)

/-- Only the names of the parameters matter once their types are given. -/
theorem pin_eq_of_names (h : params'.map Parameter.name = params.map Parameter.name) :
    pin params' types = pin params types := by
  have hpin (l : List Parameter) : pin l types =
      List.zipWith (fun name t => ⟨name, TypeMask.of t⟩) (l.map Parameter.name) types := by
    rw [pin, List.zipWith_map_left]
  rw [hpin, hpin, h]

theorem widens_pin_iff (htypes : .unknown ∉ types) (hlen : types.length = params.length) :
    Widens (pin params types) params' ↔ Within types params' := by
  constructor
  · intro h id t ht
    have hlt : id < params.length := hlen ▸ (List.getElem?_eq_some_iff.mp ht).1
    exact h id t ((supports_maskAt_pin_iff htypes).mpr ⟨hlt, ht⟩)
  · intro h id t ht
    exact h id t ((supports_maskAt_pin_iff htypes).mp ht).2

end Pin

/-! ### Assembled trees cover full ones -/

namespace Term

variable {ps params : List Parameter}

theorem exists_mem_all_of_typable {node : Node} (h : (node.table ps).isEmpty = false) :
    ∃ t, TypeMask.all.supports t = true ∧ ((node.table ps).get? t).isSome := by
  obtain ⟨t, ht⟩ := Node.table_ne_empty_iff.mp h
  refine ⟨t, ?_, ht⟩
  rw [TypeMask.supports_all, decide_eq_true_iff]
  rintro rfl
  rw [Node.get?_table_unknown] at ht
  simp at ht

/-- Applying a head to operands that cover full ones covers the full application. -/
theorem covers_undetermined {head : Head} {us ns : List Node} (hlen : us.length = ns.length)
    (hcount : head.takes us.length)
    (h : ∀ (i : Nat) u n, us[i]? = some u → ns[i]? = some n → Covers ps TypeMask.all u n) :
    Covers ps TypeMask.all (Node.undetermined head us) (Node.undetermined head ns) := by
  refine .apply (fun _ => true) hlen (fun s hs => Head.length_args hcount hs) ?_
    (fun _ _ _ _ => rfl) ?_
  · rw [hlen]
    exact (List.filter_eq_self.mpr fun _ _ => rfl).symm
  · intro i u n hu hn
    refine (h i u n hu hn).mono fun t ht => ?_
    rw [TypeMask.supports_all, decide_eq_true_iff]
    exact TypeMask.ne_unknown_of_supports ht

/-- Terms that assemble one by one do so in turn. -/
theorem assembleAll_covers {terms : List Term}
    (h : ∀ a ∈ terms, ∀ params, Widens ps params →
      ∃ node params', a.assemble params = (.ok node, params') ∧ Widens ps params' ∧
        Covers ps TypeMask.all a.full node)
    (hw : Widens ps params) :
    ∃ nodes params', assembleAll terms params = (.ok nodes, params') ∧ Widens ps params' ∧
      (terms.map full).length = nodes.length ∧
      ∀ (i : Nat) u n, (terms.map full)[i]? = some u → nodes[i]? = some n →
        Covers ps TypeMask.all u n := by
  induction terms generalizing params with
  | nil => exact ⟨[], params, rfl, hw, rfl, by simp⟩
  | cons a rest ih =>
    obtain ⟨node, params', ha, hw', hcovers⟩ := h a (List.mem_cons_self ..) params hw
    obtain ⟨nodes, params'', hrest, hw'', hlen, hall⟩ :=
      ih (fun b hb => h b (List.mem_cons_of_mem _ hb)) hw'
    refine ⟨node :: nodes, params'', ?_, hw'', by simpa using hlen, ?_⟩
    · simp only [assembleAll, ha, hrest]
    · intro i u n hu hn
      cases i with
      | zero =>
        simp only [List.map_cons, List.getElem?_cons_zero, Option.some.injEq] at hu hn
        exact hu ▸ hn ▸ hcovers
      | succ i => exact hall i u n (by simpa using hu) (by simpa using hn)

/-- Where the full tree can be typed, assembling succeeds, keeps the types in the masks and covers
the full tree. -/
theorem assemble_covers (hpin : Pinned ps) {term : Term} (hu : term.full.Typable ps)
    (hw : Widens ps params) :
    ∃ node params', term.assemble params = (.ok node, params') ∧ Widens ps params' ∧
      Covers ps TypeMask.all term.full node := by
  induction term using Term.induct generalizing params with
  | constant v text => exact ⟨_, params, by rw [assemble], hw, .constant _ _ _⟩
  | parameter id => exact ⟨_, params, by rw [assemble], hw, .parameter _ _⟩
  | compound term head operands h ih =>
    rw [full_of_parts? h] at hu ⊢
    have hoffer : ∃ t, TypeMask.all.supports t = true ∧
        (((Node.undetermined head (operands.map full)).table ps).get? t).isSome := by
      cases hu with
      | apply _ htable => exact exists_mem_all_of_typable htable
    have hus : ∀ a ∈ operands, a.full.Typable ps := by
      cases hu with
      | apply hus _ => simpa using hus
    obtain ⟨ns, params', hall, hw', hlen, hcovers⟩ := assembleAll_covers
      (fun a ha params hw => ih a ha (hus a ha) hw) hw
    have hstep := covers_undetermined hlen (by simpa using takes_of_parts? h) hcovers
    obtain ⟨node, params'', hweaken, hw'', hkept⟩ := hstep.weaken hpin hu hw' hoffer
    refine ⟨node, params'', ?_, hw'', hkept.covers⟩
    rw [assemble_of_parts? h, hall]
    simp only [Node.assemble, hweaken]

end Term

/-- A tree that covers the full one can be typed with it, prefers the same type, and settles on the
same overloads. -/
theorem Covers.agree {ps : List Parameter} (hpin : Pinned ps) {u n : Node}
    (h : Covers ps TypeMask.all u n) (hu : u.Typable ps) (hf : u.Formed) :
    n.Typable ps ∧ (n.table ps).preferred? = (u.table ps).preferred? ∧
      ∀ target, (u.table ps).preferred? = some target →
        (Node.strengthen target (n.retable ps) ps).2 = (ps, none) ∧
        (Node.strengthen target (u.retable ps) ps).2 = (ps, none) ∧
        (Node.strengthen target (n.retable ps) ps).1.outline =
          (Node.strengthen target (u.retable ps) ps).1.outline := by
  have hmask {t : ValueType} (ht : ((u.table ps).get? t).isSome) :
      TypeMask.all.supports t = true := by
    rw [TypeMask.supports_all, decide_eq_true_iff]
    rintro rfl
    rw [Node.get?_table_unknown] at ht
    simp at ht
  refine ⟨?_, CostTable.preferred?_eq_of_cost_eq fun t => ?_, fun target htarget => ?_⟩
  · have hcovers := h
    cases h with
    | constant => exact .constant _ _
    | parameter => exact .parameter _
    | apply =>
      refine hcovers.typable hu ?_
      cases hu with
      | apply _ htable => exact Term.exists_mem_all_of_typable htable
  · by_cases ht : t = .unknown
    · rw [ht, Node.get?_table_unknown, Node.get?_table_unknown]
    · exact h.cost_eq (by simpa using ht)
  · have hoffer := CostTable.isSome_get?_of_preferred? htarget
    have hoffer' := (h.isSome_eq (hmask hoffer)).trans hoffer
    exact ⟨(Node.strengthen_retable hpin (h.formed hf) hoffer').1,
      (Node.strengthen_retable hpin hf hoffer).1, h.outline_eq hpin hf (hmask hoffer) hoffer⟩

/-! ### Assembled trees restrict full ones -/

/-- The second tree has the shape of the first one and no overloads beyond those of the first. -/
inductive Restricts : Node → Node → Prop
  | constant (v : Value) (text : String) : Restricts (.constant v text) (.constant v text)
  | parameter (id : Nat) : Restricts (.parameter id) (.parameter id)
  | apply {head : Head} {us ns : List Node} {tu tn : Typing} (hlen : us.length = ns.length)
      (hsigs : ∀ s ∈ tn.signatures, s ∈ tu.signatures)
      (hoperands : ∀ (i : Nat) u n, us[i]? = some u → ns[i]? = some n → Restricts u n) :
      Restricts (.apply head us tu) (.apply head ns tn)

namespace Restricts

theorem refl (node : Node) : Restricts node node := by
  induction node using Node.induct with
  | constant v text => exact .constant v text
  | parameter id => exact .parameter id
  | apply head operands typing ih =>
    refine .apply rfl (fun _ hs => hs) fun i u n hu hn => ?_
    obtain rfl := Option.some.inj (hu.symm.trans hn)
    exact ih u (List.mem_of_getElem? hu)

theorem trans {a b c : Node} (hab : Restricts a b) (hbc : Restricts b c) : Restricts a c := by
  induction hab generalizing c with
  | constant v text => exact hbc
  | parameter id => exact hbc
  | @apply head us ns tu tn hlen hsigs hoperands ih =>
    cases hbc with
    | @apply _ _ ms _ tm hlen' hsigs' hoperands' =>
      refine .apply (hlen.trans hlen') (fun s hs => hsigs s (hsigs' s hs)) fun i u m hu hm => ?_
      have hlt : i < ns.length := hlen'.symm ▸ (List.getElem?_eq_some_iff.mp hm).1
      have hn : ns[i]? = some ns[i] := List.getElem?_eq_getElem hlt
      exact ih i u _ hu hn (hoperands' i _ m hn hm)

theorem retable (params : List Parameter) (node : Node) :
    Restricts node (node.retable params) := by
  induction node using Node.induct with
  | constant v text => exact .constant v text
  | parameter id => exact .parameter id
  | apply head operands typing ih =>
    rw [Node.retable, Node.retableAll_eq_map]
    refine .apply (by simp) (fun _ hs => hs) fun i u n hu hn => ?_
    rw [List.getElem?_map, hu] at hn
    obtain rfl := Option.some.inj hn
    exact ih u (List.mem_of_getElem? hu)

/-- What a restricted tree offers, the other one offers too. -/
theorem isSome_get?_table {u n : Node} (h : Restricts u n) {params : List Parameter}
    {t : ValueType} (ht : ((n.table params).get? t).isSome) : ((u.table params).get? t).isSome := by
  induction h generalizing t with
  | constant v text => exact ht
  | parameter id => exact ht
  | @apply head us ns tu tn hlen hsigs _ ih =>
    rw [Node.table_apply, Typing.isSome_get?_costsFor_iff] at ht ⊢
    obtain ⟨s, hs, hoffer⟩ := ht
    refine ⟨s, hsigs s hs, ?_⟩
    rw [Signature.isSome_offer?, Bool.and_eq_true, Signature.isViable_iff] at hoffer ⊢
    refine ⟨fun i t costs hti hcosts => ?_, hoffer.2⟩
    rw [List.getElem?_map, Option.map_eq_some_iff] at hcosts
    obtain ⟨u, hu, rfl⟩ := hcosts
    have hlt : i < ns.length := hlen ▸ (List.getElem?_eq_some_iff.mp hu).1
    have hn : ns[i]? = some ns[i] := List.getElem?_eq_getElem hlt
    exact ih i u _ hu hn (hoffer.1 i t _ hti (by simp [hn]))

theorem typable {u n : Node} (h : Restricts u n) {params : List Parameter}
    (hn : n.Typable params) : u.Typable params := by
  have hrestricts := h
  induction h with
  | constant v text => exact .constant v text
  | parameter id => exact .parameter id
  | @apply head us ns tu tn hlen _ hoperands ih =>
    cases hn with
    | apply hns htable =>
      refine .apply (fun u hu => ?_) (Node.table_ne_empty_iff.mpr ?_)
      · obtain ⟨i, hi⟩ := List.mem_iff_getElem?.mp hu
        have hlt : i < ns.length := hlen ▸ (List.getElem?_eq_some_iff.mp hi).1
        have hn : ns[i]? = some ns[i] := List.getElem?_eq_getElem hlt
        exact ih i u _ hi hn (hns _ (List.mem_of_getElem? hn)) (hoperands i u _ hi hn)
      · obtain ⟨t, ht⟩ := Node.table_ne_empty_iff.mp htable
        exact ⟨t, hrestricts.isSome_get?_table ht⟩

end Restricts

namespace Node

theorem refreshAll_eq_of_none {params : List Parameter} {nodes nodes' : List Node}
    (h : refreshAll params nodes = (nodes', none)) : nodes' = nodes.map (retable params) := by
  induction nodes generalizing nodes' with
  | nil =>
    rw [refreshAll, Prod.mk.injEq] at h
    exact h.1.symm
  | cons n rest ih =>
    rw [refreshAll] at h
    split at h
    · simp at h
    · next m hm =>
      cases hrest : refreshAll params rest with
      | mk rest' fault =>
        rw [hrest, Prod.mk.injEq] at h
        obtain ⟨rfl, rfl⟩ := h
        rw [(refresh_eq_iff.mp hm).2, List.map_cons, ih hrest]

mutual

/-- A tree that has been weakly determined restricts the tree before. -/
theorem restricts_weaken {mask : TypeMask} {node node' : Node} {params params' : List Parameter}
    (h : weaken mask node params = (node', params', none)) : Restricts node node' := by
  match node with
  | constant v text =>
    rw [weaken, Prod.mk.injEq] at h
    exact h.1 ▸ .refl _
  | parameter id =>
    rw [weaken] at h
    split at h
    all_goals
      rw [Prod.mk.injEq] at h
      exact h.1 ▸ .refl _
  | apply head operands typing =>
    rw [weaken] at h
    split at h
    · simp at h
    · next operands' heq =>
      have hsize : sizeAll operands' = sizeAll operands := by
        rw [← sizeAll_refreshAll params operands, heq]
      dsimp only at h
      split at h
      · simp at h
      · split at h
        · simp at h
        · next ns _ hall =>
          obtain ⟨hlen, hns⟩ := restricts_weakenAll hall
          obtain rfl := refreshAll_eq_of_none heq
          have hrestricts (costs : CostTable) (chosen : Option (ValueType × Nat)) :
              Restricts (apply head operands typing) (apply head ns
                ⟨typing.signatures.filter fun s => s.isViable
                  ((operands.map (retable params)).map (Node.costs params)) && s.reaches mask,
                  costs, chosen⟩) := by
            refine .apply (by simpa using hlen) (fun s hs => (List.mem_filter.mp hs).1) ?_
            intro i u n hu hn
            exact (Restricts.retable params u).trans (hns i _ n (by simp [hu]) hn)
          rw [Typing.compute] at h
          dsimp only at h
          split at h
          · next hcompute =>
            split at hcompute
            · simp at hcompute
            · obtain rfl := Except.ok.inj hcompute
              rw [Prod.mk.injEq] at h
              exact h.1 ▸ hrestricts _ _
          · simp at h
termination_by 2 * node.size
decreasing_by
  simp only [size, hsize]
  omega

/-- Operands that have been weakly determined restrict the operands before. -/
theorem restricts_weakenAll {signatures : List Signature} {place : Nat} {nodes nodes' : List Node}
    {params params' : List Parameter}
    (h : weakenAll signatures place nodes params = (nodes', params', none)) :
    nodes.length = nodes'.length ∧
      ∀ (i : Nat) u n, nodes[i]? = some u → nodes'[i]? = some n → Restricts u n := by
  match nodes with
  | [] =>
    rw [weakenAll, Prod.mk.injEq] at h
    exact h.1 ▸ ⟨rfl, by simp⟩
  | n :: rest =>
    rw [weakenAll] at h
    split at h
    · simp at h
    · next n' params'' hn =>
      have hfirst := restricts_weaken hn
      cases hrest : weakenAll signatures (place + 1) rest params'' with
      | mk rest' outcome =>
        obtain ⟨_, fault⟩ := outcome
        simp only [hrest, Prod.mk.injEq] at h
        obtain ⟨rfl, rfl, rfl⟩ := h
        obtain ⟨hlen, hall⟩ := restricts_weakenAll hrest
        refine ⟨by simpa using hlen, fun i u m hu hm => ?_⟩
        cases i with
        | zero =>
          simp only [List.getElem?_cons_zero, Option.some.injEq] at hu hm
          exact hu ▸ hm ▸ hfirst
        | succ i => exact hall i u m (by simpa using hu) (by simpa using hm)
termination_by 2 * sizeAll nodes + 1
decreasing_by
  all_goals
    have := n.size_pos
    simp only [sizeAll]
    omega

end

theorem restricts_assemble {head : Head} {operands : List Node} {node : Node}
    {params params' : List Parameter} (h : assemble head operands params = (.ok node, params')) :
    Restricts (undetermined head operands) node := by
  rw [assemble] at h
  split at h
  · next n ps hn =>
    simp only [Prod.mk.injEq, Except.ok.injEq] at h
    obtain ⟨rfl, rfl⟩ := h
    exact restricts_weaken hn
  · simp at h

theorem narrowSteps_assemble (head : Head) (operands : List Node) (params : List Parameter) :
    NarrowSteps params (assemble head operands params).2 := by
  have h := narrowSteps_weaken TypeMask.all (undetermined head operands) params
  rw [assemble]
  split
  · next hn => rwa [hn] at h
  · next hn => rwa [hn] at h

theorem narrows_assemble (head : Head) (operands : List Node) (params : List Parameter) :
    Narrows params (assemble head operands params).2 :=
  (narrowSteps_assemble head operands params).narrows

end Node

namespace Term

theorem restricts_undetermined {head : Head} {us ns : List Node} (hlen : us.length = ns.length)
    (h : ∀ (i : Nat) u n, us[i]? = some u → ns[i]? = some n → Restricts u n) :
    Restricts (Node.undetermined head us) (Node.undetermined head ns) :=
  .apply hlen (fun s hs => by simpa [hlen] using hs) h

theorem assembleAll_restricts {terms : List Term}
    (h : ∀ a ∈ terms, ∀ params node params', a.assemble params = (.ok node, params') →
      Narrows params params' ∧ Restricts a.full node)
    {params params' : List Parameter} {nodes : List Node}
    (hall : assembleAll terms params = (.ok nodes, params')) :
    Narrows params params' ∧ (terms.map full).length = nodes.length ∧
      ∀ (i : Nat) u n, (terms.map full)[i]? = some u → nodes[i]? = some n → Restricts u n := by
  induction terms generalizing params nodes with
  | nil =>
    simp only [assembleAll, Prod.mk.injEq, Except.ok.injEq] at hall
    obtain ⟨rfl, rfl⟩ := hall
    exact ⟨.refl params, rfl, by simp⟩
  | cons a rest ih =>
    rw [assembleAll] at hall
    split at hall
    · simp at hall
    · next n params₁ ha =>
      split at hall
      · simp at hall
      · next ns params₂ hrest =>
        simp only [Prod.mk.injEq, Except.ok.injEq] at hall
        obtain ⟨rfl, rfl⟩ := hall
        obtain ⟨hn, hr⟩ := h a (List.mem_cons_self ..) _ _ _ ha
        obtain ⟨hns, hlen, hrs⟩ := ih (fun b hb => h b (List.mem_cons_of_mem _ hb)) hrest
        refine ⟨hn.trans hns, by simpa using hlen, fun i u m hu hm => ?_⟩
        cases i with
        | zero =>
          simp only [List.map_cons, List.getElem?_cons_zero, Option.some.injEq] at hu hm
          exact hu ▸ hm ▸ hr
        | succ i => exact hrs i u m (by simpa using hu) (by simpa using hm)

/-- An assembled tree restricts the full one, and assembling only narrows the parameters. -/
theorem assemble_restricts {term : Term} {params params' : List Parameter} {node : Node}
    (h : term.assemble params = (.ok node, params')) :
    Narrows params params' ∧ Restricts term.full node := by
  induction term using Term.induct generalizing params params' node with
  | constant v text =>
    simp only [assemble, Prod.mk.injEq, Except.ok.injEq] at h
    obtain ⟨rfl, rfl⟩ := h
    exact ⟨.refl _, .constant v text⟩
  | parameter id =>
    simp only [assemble, Prod.mk.injEq, Except.ok.injEq] at h
    obtain ⟨rfl, rfl⟩ := h
    exact ⟨.refl _, .parameter id⟩
  | compound term head operands hparts ih =>
    rw [assemble_of_parts? hparts] at h
    rw [full_of_parts? hparts]
    split at h
    · next nodes params₁ hall =>
      obtain ⟨hn, hlen, hrs⟩ := assembleAll_restricts (fun a ha _ _ _ => ih a ha) hall
      have hnarrows := Node.narrows_assemble head nodes params₁
      rw [h] at hnarrows
      exact ⟨hn.trans hnarrows,
        (restricts_undetermined hlen hrs).trans (Node.restricts_assemble h)⟩
    · simp at h

/-- Weak narrowing loses no typing and adds none. If the full tree can be typed for arguments of
the given types, then assembling succeeds, the types lie in the masks that are left, and the
assembled tree prefers the same type and settles on the same overloads. If the assembled tree can
be typed for types in the masks that are left, so can the full one. -/
theorem assemble_keeps_typings (term : Term) {params : List Parameter}
    (hall : ∀ p ∈ params, p.supported = TypeMask.all) {types : List ValueType}
    (hlen : types.length = params.length) (htypes : .unknown ∉ types) :
    (∀ u, term.full.refresh (pin params types) = (u, none) →
      ∃ node params' n, term.assemble params = (.ok node, params') ∧ Within types params' ∧
        node.refresh (pin params' types) = (n, none) ∧
        (n.costs (pin params' types)).preferred? = (u.costs (pin params types)).preferred? ∧
        ∀ target, (u.costs (pin params types)).preferred? = some target →
          (n.strengthen target (pin params' types)).2.2 = none ∧
          (u.strengthen target (pin params types)).2.2 = none ∧
          (n.strengthen target (pin params' types)).1.outline =
            (u.strengthen target (pin params types)).1.outline) ∧
    ∀ node params', term.assemble params = (.ok node, params') → Within types params' →
      (node.refresh (pin params' types)).2 = none →
      (term.full.refresh (pin params types)).2 = none := by
  constructor
  · intro u hu
    obtain ⟨htypable, rfl⟩ := Node.refresh_eq_iff.mp hu
    have hpin : Pinned (pin params types) := pinned_pin htypes
    have hw : Widens (pin params types) params := by
      refine (widens_pin_iff htypes hlen).mpr fun id t ht => ?_
      have hlt : id < params.length := hlen ▸ (List.getElem?_eq_some_iff.mp ht).1
      have hne : t ≠ .unknown := fun h => htypes (h ▸ List.mem_of_getElem? ht)
      simp [maskAt, hlt, hall params[id] (List.getElem_mem hlt), hne]
    obtain ⟨node, params', hassemble, hw', hcovers⟩ := assemble_covers hpin htypable hw
    obtain ⟨hnode, hpreferred, hsettled⟩ := hcovers.agree hpin htypable (formed_full term)
    have hnames : pin params' types = pin params types :=
      pin_eq_of_names (assemble_restricts hassemble).1.1
    refine ⟨node, params', node.retable (pin params types), hassemble,
      (widens_pin_iff htypes hlen).mp hw', ?_, ?_, ?_⟩
    · rw [hnames]
      exact hnode.refresh_eq
    · rw [hnames]
      exact hpreferred
    · intro target htarget
      obtain ⟨hn, hu, houtline⟩ := hsettled target htarget
      rw [hnames]
      exact ⟨congrArg Prod.snd hn, congrArg Prod.snd hu, houtline⟩
  · intro node params' hassemble _ hrefresh
    obtain ⟨hnarrows, hrestricts⟩ := assemble_restricts hassemble
    rw [pin_eq_of_names hnarrows.1] at hrefresh
    have htypable := hrestricts.typable (Node.typable_of_refresh hrefresh)
    rw [htypable.refresh_eq]

/-- Comparing `x + y` with `x`, for a numeric `x` and an integer `y`: the shared parameter is
narrowed by the sum and again by the comparison, and the typing survives both. -/
theorem assemble_keeps_typings_comparison :
    let term : Term := .binary (.compare .lt)
      (.binary (.operate .add) (.parameter 0) (.parameter 1)) (.parameter 0)
    let params : List Parameter := [⟨"x", TypeMask.all⟩, ⟨"y", TypeMask.all⟩]
    let types : List ValueType := [.numeric, .integer]
    (∀ p ∈ params, p.supported = TypeMask.all) ∧ types.length = params.length ∧
      .unknown ∉ types ∧
      ∃ node params' n, term.assemble params = (.ok node, params') ∧ Within types params' ∧
        node.refresh (pin params' types) = (n, none) ∧
        (n.costs (pin params' types)).preferred? = some .boolean := by
  intro term params types
  have hall : ∀ p ∈ params, p.supported = TypeMask.all := by decide
  have htypes : ValueType.unknown ∉ types := by decide
  have hu : (term.full.refresh (pin params types)).2 = none := by decide
  have hpreferred : ((term.full.refresh (pin params types)).1.costs
      (pin params types)).preferred? = some .boolean := by decide
  obtain ⟨node, params', n, hassemble, hwithin, hn, hsame, -⟩ :=
    (assemble_keeps_typings term hall rfl htypes).1 _ (Prod.ext rfl hu)
  exact ⟨hall, rfl, htypes, node, params', n, hassemble, hwithin, hn, hsame.trans hpreferred⟩

end Term

end Formula
