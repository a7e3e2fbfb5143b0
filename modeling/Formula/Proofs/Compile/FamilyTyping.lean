import Formula.Proofs.Compile.Chain
import Formula.Proofs.Folding.Constant

/-!
# The types of a family of operators

All operators of a family work on values of one type: numbers for the arithmetic ones, truth values
for the logical ones. So do functions that accept any number. If the parameters may have this type,
then every application of such an operator or function to trees that can produce it succeeds and can
produce it again. Folding an application of
constants does not change that, because its value has a type of the family.

## Main definitions

* `Family.goal`, `Family.types`: the type of a family, and the types that convert to it.
* `Family.heads`: the operators of a family.
* `Family.Admits`: an operator or function that works on the types of a family.
* `Family.Serves`: a tree that can produce the type of the family.

## Main results

* `Family.serves_assemble`: applications of operators can be assembled.
* `Family.serves_fold`: folding keeps what a tree can produce.
-/

namespace Formula

namespace Family

/-- The type that the operators of a family work on. -/
def goal : Family → ValueType
  | arithmetic => .numeric
  | logical => .boolean

/-- The types that convert to the type of a family. -/
def types : Family → List ValueType
  | arithmetic => [.integer, .numeric]
  | logical => [.boolean]

/-- The operators of a family. -/
def heads (f : Family) : List Head :=
  .unary f.prefixOp :: f.operations.map fun op => .binary (.operate op)

theorem goal_ne_unknown (f : Family) : f.goal ≠ .unknown := by
  cases f <;> decide

theorem mem_types_iff {f : Family} {t : ValueType} :
    t ∈ f.types ↔ (conversionCost? t f.goal).isSome := by
  cases f <;> cases t <;> decide

theorem mem_types_of_conversion {f : Family} {s t : ValueType} (hs : s ∈ f.types)
    (h : (conversionCost? s t).isSome) : t ∈ f.types := by
  revert h
  revert s
  cases f <;> cases t <;> decide

/-- Every operator of a family has an overload for the type of the family. -/
theorem signature_mem {f : Family} {head : Head} (hhead : head ∈ f.heads) {n : Nat}
    (hcount : head.takes n) : ⟨List.replicate n f.goal, f.goal⟩ ∈ head.signatures n := by
  rcases List.mem_cons.mp hhead with rfl | hop
  · obtain rfl := hcount
    cases f <;> decide
  · obtain ⟨op, hop, rfl⟩ := List.mem_map.mp hop
    obtain rfl := hcount
    revert op
    cases f <;> decide

/-- Operators of a family give values of its types on values of its types. -/
theorem result_mem_types {f : Family} {head : Head} (hhead : head ∈ f.heads) {n : Nat}
    {s : Signature} (hs : s ∈ head.signatures n) (hargs : ∀ t ∈ s.args, t ∈ f.types) :
    s.result ∈ f.types := by
  rcases List.mem_cons.mp hhead with rfl | hhead
  · have hall : ∀ s ∈ f.prefixOp.signatures, (∀ t ∈ s.args, t ∈ f.types) → s.result ∈ f.types := by
      cases f <;> decide
    exact hall s hs hargs
  · obtain ⟨op, hop, rfl⟩ := List.mem_map.mp hhead
    have hall : ∀ op ∈ f.operations, ∀ s ∈ (BinaryOp.operate op).signatures,
        (∀ t ∈ s.args, t ∈ f.types) → s.result ∈ f.types := by
      cases f <;> decide
    exact hall op hop s hs hargs

/-- An operator or function that works on the types of a family, with a number of operands: it has
an overload for the type of the family, and gives values of its types on values of its types. -/
structure Admits (f : Family) (head : Head) (n : Nat) : Prop where
  takes : head.takes n
  overload : ∃ t ∈ f.types, ⟨List.replicate n f.goal, t⟩ ∈ head.signatures n
  result : ∀ s ∈ head.signatures n, (∀ t ∈ s.args, t ∈ f.types) → s.result ∈ f.types

theorem admits_of_mem_heads {f : Family} {head : Head} (h : head ∈ f.heads) {n : Nat}
    (hcount : head.takes n) : f.Admits head n :=
  ⟨hcount, ⟨f.goal, by cases f <;> decide, signature_mem h hcount⟩, fun _ => result_mem_types h⟩

/-- A tree that stands for a full one, which can be typed and produces the type of the family. -/
def Serves (f : Family) (ps : List Parameter) (node : Node) : Prop :=
  ∃ u, Covers ps TypeMask.all u node ∧ u.Typable ps ∧ ((u.table ps).get? f.goal).isSome

variable {f : Family} {ps : List Parameter}

theorem isSome_get?_table_constant {v : Value} {text : String} {params : List Parameter}
    {t : ValueType} :
    (((Node.constant v text).table params).get? t).isSome = (conversionCost? v.type t).isSome := by
  rw [Node.table_constant, CostTable.leaf_of v.type_ne_unknown,
    CostTable.isSome_get?_offerConversions]
  cases t <;> rfl

theorem serves_constant {v : Value} (h : v.type ∈ f.types) (text : String) :
    f.Serves ps (.constant v text) :=
  ⟨.constant v text, .constant _ _ _, .constant _ _, by
    rw [isSome_get?_table_constant]
    exact mem_types_iff.mp h⟩

theorem type_mem_of_serves {v : Value} {text : String} (h : f.Serves ps (.constant v text)) :
    v.type ∈ f.types := by
  obtain ⟨u, hcovers, -, hgoal⟩ := h
  cases hcovers
  rw [isSome_get?_table_constant] at hgoal
  exact mem_types_iff.mpr hgoal

theorem serves_parameter {id : Nat} (h : (maskAt ps id).supports f.goal = true) :
    f.Serves ps (.parameter id) := by
  refine ⟨.parameter id, .parameter _ _, .parameter _, ?_⟩
  rw [Node.table_parameter, CostTable.isSome_get?_leaf, List.any_eq_true]
  exact ⟨f.goal, TypeMask.mem_types_iff.mpr h, by cases f <;> rfl⟩

/-! ### Parameters of the type of a family -/

theorem goal_notMem (f : Family) (n : Nat) : ValueType.unknown ∉ List.replicate n f.goal := fun h =>
  f.goal_ne_unknown (List.eq_of_mem_replicate h).symm

/-- Parameters with the type of a family only. -/
def pinned (f : Family) (params : List Parameter) : List Parameter :=
  pin params (List.replicate params.length f.goal)

theorem pinned_pinned (f : Family) (params : List Parameter) : Pinned (f.pinned params) :=
  pinned_pin (f.goal_notMem _)

theorem supports_maskAt_pinned {params : List Parameter} {id : Nat} (h : id < params.length) :
    (maskAt (f.pinned params) id).supports f.goal = true :=
  (supports_maskAt_pin_iff (f.goal_notMem _)).mpr ⟨h, by simp [h]⟩

theorem widens_pinned_iff {params params' : List Parameter}
    (hlen : params'.length = params.length) :
    Widens (f.pinned params) params' ↔
      ∀ mask ∈ params'.map Parameter.supported, mask.supports f.goal = true := by
  rw [pinned, widens_pin_iff (f.goal_notMem _) (by simp)]
  constructor
  · intro hwithin mask hmask
    obtain ⟨id, hid⟩ := List.mem_iff_getElem?.mp hmask
    have hlt : id < params.length := by
      have := (List.getElem?_eq_some_iff.mp hid).1
      rwa [List.length_map, hlen] at this
    have hgoal := hwithin id f.goal (by simp [hlt])
    rw [List.getElem?_map] at hid
    rwa [maskAt, hid] at hgoal
  · intro hmasks id t ht
    obtain ⟨hlt, rfl⟩ := by simpa [List.getElem?_replicate] using ht
    refine hmasks _ (List.mem_map.mpr ⟨params'[id], List.getElem_mem _, ?_⟩)
    simp [maskAt, hlen, hlt]

/-! ### Assembling -/

theorem Serves.typable {node : Node} (h : f.Serves ps node) : node.Typable ps := by
  obtain ⟨u, hcovers, htypable, hgoal⟩ := h
  refine hcovers.typable htypable ⟨f.goal, ?_, hgoal⟩
  cases f <;> rfl

/-- Applications of what works on the types of a family can be assembled. -/
theorem serves_assemble (hpin : Pinned ps) {head : Head} {ns : List Node}
    (hhead : f.Admits head ns.length) (hns : ∀ n ∈ ns, f.Serves ps n) {params : List Parameter}
    (hw : Widens ps params) :
    ∃ node params', Node.assemble head ns params = (.ok node, params') ∧ Widens ps params' ∧
      f.Serves ps node := by
  choose! full hcovers htypable hgoal using hns
  have hlen : (ns.map full).length = ns.length := by simp
  have hstep : Covers ps TypeMask.all (Node.undetermined head (ns.map full))
      (Node.undetermined head ns) := by
    refine Term.covers_undetermined hlen (hlen ▸ hhead.takes) fun i u n hu hn => ?_
    rw [List.getElem?_map, hn, Option.map_some] at hu
    obtain rfl := Option.some.inj hu
    exact hcovers n (List.mem_of_getElem? hn)
  have hoffer : (((Node.undetermined head (ns.map full)).table ps).get? f.goal).isSome := by
    obtain ⟨result, hresult, hmem⟩ := hhead.overload
    rw [← hlen] at hmem
    rw [Node.undetermined, Node.table_apply, Typing.isSome_get?_costsFor_iff]
    refine ⟨_, hmem, ?_⟩
    rw [Signature.isSome_offer?, Bool.and_eq_true, Signature.isViable_iff]
    refine ⟨fun i t costs ht hcosts => ?_, mem_types_iff.mp hresult⟩
    obtain rfl := List.eq_of_mem_replicate (List.mem_of_getElem? ht)
    obtain ⟨u, hu, rfl⟩ := List.mem_map.mp (List.mem_of_getElem? hcosts)
    obtain ⟨n, hn, rfl⟩ := List.mem_map.mp hu
    exact hgoal n hn
  have hu : (Node.undetermined head (ns.map full)).Typable ps := by
    refine .apply ?_ (Node.table_ne_empty_iff.mpr ⟨_, hoffer⟩)
    simpa using htypable
  obtain ⟨node, params', hweaken, hw', hkept⟩ :=
    hstep.weaken hpin hu hw ⟨f.goal, by cases f <;> rfl, hoffer⟩
  exact ⟨node, params', by simp only [Node.assemble, hweaken], hw', _, hkept.covers, hu, hoffer⟩

end Family

/-! ### Folding -/

namespace Family

variable {f : Family} {ps : List Parameter}

/-- Folding an application of what works on the types of a family keeps what it can produce. -/
theorem serves_fold {head : Head} {ns : List Node} (hhead : f.Admits head ns.length)
    (hns : ∀ n ∈ ns, f.Serves ps n) {node : Node}
    {params params' : List Parameter} (h : Node.assemble head ns params = (.ok node, params'))
    (hnode : f.Serves ps node) (registry : Registry) (text : String) :
    f.Serves ps (node.fold registry text) := by
  rw [Node.fold]
  split
  · next hfoldable =>
    split
    · next v hv =>
      refine serves_constant ?_ text
      have hretable := Node.retable_nil_of_assemble h hfoldable
      have hrestricts := Node.restricts_assemble h
      cases hrestricts with
      | @apply _ _ operands _ typing hlen hsigs hoperands =>
      have hconstants := List.all_eq_true.mp (Bool.and_eq_true_iff.mp hfoldable).2
      -- the operands are the constants they were before, and their types are those of the family
      have hleaf (n : Node) (hn : n ∈ operands) :
          ∃ w text, n = .constant w text ∧ w.type ∈ f.types := by
        obtain ⟨i, hi⟩ := List.mem_iff_getElem?.mp hn
        have hlt : i < ns.length := hlen ▸ (List.getElem?_eq_some_iff.mp hi).1
        have hmem := List.getElem_mem hlt
        have hsame := hoperands i _ n (List.getElem?_eq_getElem hlt) hi
        generalize ns[i] = m at hmem hsame
        cases hsame with
        | constant w text => exact ⟨w, text, rfl, type_mem_of_serves (hns _ hmem)⟩
        | parameter id => cases hconstants _ hn
        | apply => cases hconstants _ hn
      have hcount' : head.takes operands.length := hlen ▸ hhead.takes
      have hsigs' : ∀ s ∈ typing.signatures, s ∈ head.signatures operands.length := fun s hs =>
        hlen ▸ hsigs s hs
      have hformed : (Node.apply head operands typing).Formed := by
        refine .apply hcount' hsigs' fun n hn => ?_
        obtain ⟨w, text, rfl, -⟩ := hleaf n hn
        exact .constant w text
      have hoffer := CostTable.isSome_get?_of_preferred?
        (Node.preferred?_of_constantValue? hformed hretable hv)
      obtain ⟨s, place, cost, hs, hconversion, hargs⟩ := Node.exists_firstCheapest hoffer
      have hmem := hsigs' s hs.mem
      refine mem_types_of_conversion (hhead.result s (hlen ▸ hmem) fun t ht => ?_) hconversion
      obtain ⟨i, hi⟩ := List.mem_iff_getElem?.mp ht
      have hlt : i < operands.length :=
        Head.length_args hcount' hmem ▸ (List.getElem?_eq_some_iff.mp hi).1
      obtain ⟨w, text, heq, hw⟩ := hleaf _ (List.getElem_mem hlt)
      have hoffered := hargs i t _ hi (List.getElem?_eq_getElem hlt)
      rw [heq, isSome_get?_table_constant] at hoffered
      exact mem_types_of_conversion hw hoffered
    · exact hnode
  · exact hnode

end Family

end Formula
