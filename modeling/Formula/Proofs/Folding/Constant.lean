import Formula.Node.Fold
import Formula.Proofs.Folding.Registers
import Formula.Proofs.Lowering.Agreement

/-!
# Applications of constants

An application of constants is assembled without regard to the parameters: it keeps the natural
overload for the types of the constants, and its table is that of one natural type. Its value, if it
is folded, is the value of its head on the constants, and has the natural type.

## Main results

* `assemble_constants`: an application of constants, assembled.
* `Node.preferred?_of_constantValue?`: a folded value has the type that its tree prefers.
* `Term.constantValue?_eq`: a folded value is the value of the term.
* `Folds.fold`: folding an application that has been assembled.
-/

namespace Formula

/-! ### Tables without parameters -/

theorem pinned_nil : Pinned [] := by
  intro id s t hs
  simp [maskAt, TypeMask.empty] at hs
  cases s <;> cases hs

namespace Node

/-- The table of an application that has been weakly determined is computed from its operands. -/
theorem costs_of_assemble {head : Head} {operands : List Node} {node : Node}
    {params params' : List Parameter} (h : assemble head operands params = (.ok node, params')) :
    ∃ operands' signatures, node = .apply head operands'
      ⟨signatures, Typing.costsFor signatures (operands'.map (costs params')), none⟩ := by
  rw [assemble] at h
  split at h
  · next n ps hn =>
    simp only [Prod.mk.injEq, Except.ok.injEq] at h
    obtain ⟨rfl, rfl⟩ := h
    rw [undetermined, weaken] at hn
    split at hn
    · simp at hn
    · dsimp only at hn
      split at hn
      · simp at hn
      · split at hn
        · simp at hn
        · rw [Typing.compute] at hn
          dsimp only at hn
          split at hn
          · next hcompute =>
            split at hcompute
            · simp at hcompute
            · obtain rfl := Except.ok.inj hcompute
              rw [Prod.mk.injEq, Prod.mk.injEq] at hn
              obtain ⟨rfl, rfl, -⟩ := hn
              exact ⟨_, _, rfl⟩
          · simp at hn
  · simp at h

/-- An application of constants that has been assembled has the table it would have without any
parameters. -/
theorem retable_nil_of_assemble {head : Head} {operands : List Node} {node : Node}
    {params params' : List Parameter} (h : assemble head operands params = (.ok node, params'))
    (hfoldable : node.isFoldable = true) : node.retable [] = node := by
  obtain ⟨operands', signatures, rfl⟩ := costs_of_assemble h
  have hall := List.all_eq_true.mp (Bool.and_eq_true_iff.mp hfoldable).2
  have hconstant (n : Node) (hn : n ∈ operands') :
      n.retable [] = n ∧ n.costs [] = n.costs params' := by
    cases n with
    | constant v text => exact ⟨rfl, rfl⟩
    | parameter id => cases hall _ hn
    | apply head operands typing => cases hall _ hn
  have hretable : operands'.map (retable []) = operands' :=
    (List.map_congr_left fun n hn => (hconstant n hn).1).trans (List.map_id _)
  rw [retable, retableAll_eq_map, hretable,
    List.map_congr_left fun n hn => (hconstant n hn).2]

/-- How a value is folded: the tree is determined for the type it prefers, lowered and run. -/
theorem exists_of_constantValue? {registry : Registry} {node : Node}
    (hretable : node.retable [] = node) {v : Value}
    (h : node.constantValue? registry = some v) :
    ∃ target result b, (node.table []).preferred? = some target ∧
      (strengthen target (node.retable []) []).1.lower [] target {} = .ok (result, b) ∧
      (b.finish result none).run registry (fun _ => 0) [] = .ok v := by
  rw [constantValue?] at h
  obtain ⟨target, htarget, h⟩ := Option.bind_eq_some_iff.mp h
  split at h
  · next node' ps' heq =>
    obtain ⟨⟨result, b⟩, hlower, h⟩ := Option.bind_eq_some_iff.mp h
    refine ⟨target, result, b, by rwa [table, hretable], ?_, ?_⟩
    · rw [hretable, heq]
      cases hcode : node'.lower [] target {} with
      | error fault => rw [hcode] at hlower; cases hlower
      | ok out => rw [hcode] at hlower; rw [Option.some.inj hlower]
    · dsimp only at h
      cases hvalue : (b.finish result none).run registry (fun _ => 0) [] with
      | error fault => rw [hvalue] at h; cases h
      | ok w => rw [hvalue] at h; rw [Option.some.inj h]
  · cases h

theorem constantValue?_of_lower {registry : Registry} {node : Node} {target : ValueType}
    {result : Nat} {b : Builder} (htarget : (node.costs []).preferred? = some target)
    (hstrong : (strengthen target node []).2 = ([], none))
    (hlower : (strengthen target node []).1.lower [] target {} = .ok (result, b)) :
    node.constantValue? registry =
      ((b.finish result none).run registry (fun _ => 0) []).toOption := by
  have hnode : strengthen target node [] = ((strengthen target node []).1, [], none) :=
    Prod.ext rfl hstrong
  rw [constantValue?, htarget, Option.bind_eq_bind, Option.bind_some, hnode]
  simp only [hlower, Except.toOption, Option.bind_eq_bind, Option.bind_some]

/-- A folded value has the type that its tree prefers. -/
theorem preferred?_of_constantValue? {registry : Registry} {node : Node} (hformed : node.Formed)
    (hretable : node.retable [] = node) {v : Value}
    (h : node.constantValue? registry = some v) : (node.table []).preferred? = some v.type := by
  obtain ⟨target, result, b, htarget, hlower, hvalue⟩ := exists_of_constantValue? hretable h
  obtain ⟨-, hsettled⟩ :=
    strengthen_retable pinned_nil hformed (CostTable.isSome_get?_of_preferred? htarget)
  obtain ⟨hb, hrun⟩ := run_finish hlower registry (fun _ => 0) none []
  have hfits : Fits MachineFault.isDynamic target (((strengthen target (node.retable []) []).1.meaning
      ⟨registry, fun _ => 0, none, b.literal, []⟩ [] target 0).map Prod.fst) :=
    hsettled.fits_meaning (by intro id p t hp; simp at hp) hb.type_literal 0
  rw [← hrun, hvalue] at hfits
  rwa [show v.type = target from hfits]

end Node

/-! ### Assembling constants -/

/-- An application of constants is assembled whatever the parameters are, if some overload accepts
them. It keeps the natural overload, and its table is that of the natural type. -/
theorem exists_assemble_constants (head : Head) (cs : List (Value × String))
    (hcount : head.takes cs.length)
    (hne : (Typing.costsFor (head.signatures cs.length)
      ((constantTypes cs).map fun t => CostTable.single 0 t 0)).isEmpty = false) :
    ∃ typing s choice cost,
      (∀ params, Node.assemble head (constants cs) params =
        (.ok (.apply head (constants cs) typing), params)) ∧
      (∀ s ∈ typing.signatures, s ∈ head.signatures cs.length) ∧ s.result ≠ .unknown ∧
      Natural typing.signatures (constantTypes cs) s choice cost ∧
      typing.costs = CostTable.single cost s.result choice := by
  have hlen : (constants cs).length = cs.length := List.length_map ..
  have hconcrete : ValueType.unknown ∉ constantTypes cs := by
    intro hmem
    obtain ⟨c, -, hc⟩ := List.mem_map.mp hmem
    exact c.1.type_ne_unknown hc
  have htypes : (constantTypes cs).length = cs.length := List.length_map ..
  obtain ⟨s, choice, cost, hnatural⟩ := Head.exists_natural hconcrete (htypes ▸ hcount)
    (htypes ▸ hne)
  rw [htypes] at hnatural
  have hresult : s.result ≠ .unknown := by
    rw [hnatural.table, Bool.eq_false_iff, Ne, CostTable.isEmpty_iff, not_forall] at hne
    obtain ⟨t, ht⟩ := hne
    rw [CostTable.get?_single, Option.map_eq_none_iff, ← Ne, ← Option.isSome_iff_ne_none] at ht
    exact (ne_unknown_of_conversionCost? ht).1
  have hall : TypeMask.all.supports s.result = true := by simpa using hresult
  rcases Folds.weaken_of_natural head ⟨head.signatures cs.length, CostTable.empty, none⟩
      (fun s hs => Head.length_args hcount hs) hnatural hresult TypeMask.all with
    ⟨-, typing, choice', hweaken, hsub, hnatural', hcosts⟩ | ⟨hreach, -⟩
  · have hassemble (params : List Parameter) : Node.assemble head (constants cs) params =
        (.ok (.apply head (constants cs) typing), params) := by
      rw [Node.assemble, Node.undetermined, hlen, hweaken]
    exact ⟨typing, s, choice', cost, hassemble, hsub, hresult, hnatural', hcosts⟩
  · exact absurd ⟨s.result, hall, by simp [conversionCost?_self hresult]⟩ hreach

/-- An application of constants that is assembled is so whatever the parameters are. It keeps the
natural overload, and its table is that of the natural type. -/
theorem assemble_constants {head : Head} {cs : List (Value × String)} (hcount : head.takes cs.length)
    {node : Node} {params params' : List Parameter}
    (h : Node.assemble head (constants cs) params = (.ok node, params')) :
    params' = params ∧ ∃ typing s choice cost, node = .apply head (constants cs) typing ∧
      (∀ params, Node.assemble head (constants cs) params = (.ok node, params)) ∧
      (∀ s ∈ typing.signatures, s ∈ head.signatures cs.length) ∧ s.result ≠ .unknown ∧
      Natural typing.signatures (constantTypes cs) s choice cost ∧
      typing.costs = CostTable.single cost s.result choice := by
  have hlen : (constants cs).length = cs.length := List.length_map ..
  -- Some overload accepts the constants, or none would be left.
  have hne : (Typing.costsFor (head.signatures cs.length)
      ((constantTypes cs).map fun t => CostTable.single 0 t 0)).isEmpty = false := by
    rw [Bool.eq_false_iff]
    intro hempty
    have hnil : ((head.signatures cs.length).filter fun s =>
        s.isViable ((constantTypes cs).map fun t => CostTable.single 0 t 0) &&
          s.reaches TypeMask.all) = [] := by
      refine List.filter_eq_nil_iff.mpr fun s hs hkeep => ?_
      rw [Bool.and_eq_true, Signature.reaches_iff] at hkeep
      obtain ⟨hviable, t, -, hconv⟩ := hkeep
      have hoffer := (Typing.get?_costsFor_eq_none_iff.mp (CostTable.isEmpty_iff.mp hempty t)) s hs
      rw [← Option.isNone_iff_eq_none, ← Option.not_isSome, Signature.isSome_offer?, hviable,
        hconv] at hoffer
      simp at hoffer
    rw [Node.assemble, Node.undetermined, Folds.weaken_apply_constants, hlen] at h
    simp [hnil] at h
  obtain ⟨typing, s, choice, cost, hassemble, hsub, hresult, hnatural, hcosts⟩ :=
    exists_assemble_constants head cs hcount hne
  rw [hassemble, Prod.mk.injEq, Except.ok.injEq] at h
  obtain ⟨rfl, rfl⟩ := h
  exact ⟨rfl, typing, s, choice, cost, rfl, hassemble, hsub, hresult, hnatural, hcosts⟩

/-- The operands of an assembled application that can be folded were constants before. -/
theorem exists_constants_of_isFoldable {head : Head} {operands : List Node} {node : Node}
    {params params' : List Parameter}
    (h : Node.assemble head operands params = (.ok node, params'))
    (hfoldable : node.isFoldable = true) : ∃ cs, operands = constants cs := by
  have hrestricts := Node.restricts_assemble h
  cases hrestricts with
  | @apply _ _ ns _ typing hlen hsigs hoperands =>
  have hconstants := List.all_eq_true.mp (Bool.and_eq_true_iff.mp hfoldable).2
  have hleaf : ∀ n ∈ operands, ∃ c : Value × String, n = .constant c.1 c.2 := by
    intro n hn
    obtain ⟨i, hi⟩ := List.mem_iff_getElem?.mp hn
    have hlt : i < ns.length := hlen ▸ (List.getElem?_eq_some_iff.mp hi).1
    have hsame := hoperands i n _ hi (List.getElem?_eq_getElem hlt)
    have hconstant := hconstants _ (List.getElem_mem hlt)
    generalize ns[i] = m at hsame hconstant
    cases hsame with
    | constant v text => exact ⟨(v, text), rfl⟩
    | parameter id => cases hconstant
    | apply => cases hconstant
  clear h hlen hsigs hoperands
  induction operands with
  | nil => exact ⟨[], rfl⟩
  | cons n rest ih =>
    obtain ⟨c, rfl⟩ := hleaf n (List.mem_cons_self ..)
    obtain ⟨cs, rfl⟩ := ih fun m hm => hleaf m (List.mem_cons_of_mem _ hm)
    exact ⟨c :: cs, rfl⟩

/-! ### Folded values -/

theorem formed_constants {head : Head} {cs : List (Value × String)} {typing : Typing}
    (hcount : head.takes cs.length) (hsub : ∀ s ∈ typing.signatures, s ∈ head.signatures cs.length) :
    (Node.apply head (constants cs) typing).Formed := by
  have hlen : (constants cs).length = cs.length := List.length_map ..
  refine .apply (hlen ▸ hcount) (hlen ▸ hsub) fun n hn => ?_
  obtain ⟨c, -, rfl⟩ := List.mem_map.mp hn
  exact .constant c.1 c.2

/-- Folding keeps a tree, or puts its value in its place. -/
theorem Node.fold_eq (registry : Registry) (text : String) (node : Node) :
    node.fold registry text = node ∨ ∃ v, node.isFoldable = true ∧
      node.constantValue? registry = some v ∧ node.fold registry text = .constant v text := by
  rw [fold]
  split
  · next hfoldable =>
    split
    · next v hv => exact .inr ⟨v, hfoldable, hv, rfl⟩
    · exact .inl rfl
  · exact .inl rfl

/-- Folding an application that has been assembled. -/
theorem Folds.fold {k : Nat} {u node : Node} (hfolds : Folds k u node) {head : Head}
    {operands : List Node} (hcount : head.takes operands.length) {params params' : List Parameter}
    (h : Node.assemble head operands params = (.ok node, params')) (registry : Registry)
    (text : String) : ∃ k', Folds k' u (node.fold registry text) := by
  rcases Node.fold_eq registry text node with hfold | ⟨v, hfoldable, hv, hfold⟩
  · exact ⟨k, by rwa [hfold]⟩
  · obtain ⟨cs, rfl⟩ := exists_constants_of_isFoldable h hfoldable
    rw [constants, List.length_map] at hcount
    have hretable := Node.retable_nil_of_assemble h hfoldable
    obtain ⟨-, typing, s, choice, cost, rfl, -, hsub, hresult, hnatural, hcosts⟩ :=
      assemble_constants hcount h
    have htype := Node.preferred?_of_constantValue? (formed_constants hcount hsub) hretable hv
    rw [Node.table_apply, map_table_constants, hnatural.table,
      CostTable.preferred?_single _ _ hresult] at htype
    rw [hfold]
    exact ⟨_, .folded hfolds hnatural hcosts (Option.some.inj htype) text⟩

/-- Of its environment a head sees the registry and the tolerance. -/
theorem Head.run_congr {env env' : Environment}
    (hregistry : env.registry = env'.registry) (htolerance : env.tolerance = env'.tolerance)
    (head : Head) (values : List Value) :
    head.run env true 0 values = head.run env' true 0 values := by
  unfold Head.run Environment.comparison
  rw [hregistry, htolerance]

/-- No head has overloads for many operands. -/
theorem Head.operands_le {head : Head} {operands : Nat} (hcount : head.takes operands)
    {s : Signature} (h : s ∈ head.signatures operands) : operands ≤ 3 := by
  cases head with
  | unary op =>
    rw [show operands = 1 from hcount]
    decide
  | binary op =>
    rw [show operands = 2 from hcount]
    decide
  | call f =>
    obtain ⟨hs, hlen⟩ := List.mem_filter.mp h
    rw [← beq_iff_eq.mp hlen, Function.length_args_eq_arity hs]
    cases f <;> simp [Function.arity, Function.signatures]

theorem sizeAll_constants (cs : List (Value × String)) :
    Node.sizeAll (constants cs) = cs.length := by
  induction cs with
  | nil => rfl
  | cons c cs ih =>
    rw [constants] at ih
    rw [constants, List.map_cons, Node.sizeAll, ih, Node.size, List.length_cons, Nat.add_comm]

namespace Term

/-- Constants with their texts, as terms. -/
def ofConstants (cs : List (Value × String)) : List Term :=
  cs.map fun c => .constant c.1 c.2

theorem assembleAll_ofConstants (cs : List (Value × String)) (params : List Parameter) :
    assembleAll (ofConstants cs) params = (.ok (constants cs), params) := by
  induction cs with
  | nil => rfl
  | cons c cs ih =>
    rw [ofConstants] at ih
    simp only [ofConstants, List.map_cons, assembleAll, assemble, ih]
    rfl

theorem evalAll_ofConstants (cs : List (Value × String)) (env : Environment) :
    evalAll env (ofConstants cs) = .ok (cs.map Prod.fst) := by
  induction cs with
  | nil => rfl
  | cons c cs ih =>
    rw [ofConstants] at ih
    simp only [ofConstants, List.map_cons, evalAll, eval, ih]
    rfl

/-- An application of constants is lowered and run, whatever the parameters are; it is folded if
that gives a value. -/
theorem exists_constantValue?_eq {head : Head} {cs : List (Value × String)}
    (hcount : head.takes cs.length) {node : Node} {params params' : List Parameter}
    (h : Node.assemble head (constants cs) params = (.ok node, params')) (registry : Registry) :
    Node.assemble head (constants cs) [] = (.ok node, []) ∧ node.Typable [] ∧
      ∃ target result b, (node.table []).preferred? = some target ∧
        (Node.strengthen target (node.retable []) []).1.lower [] target {} = .ok (result, b) ∧
        node.constantValue? registry =
          ((b.finish result none).run registry (fun _ => 0) []).toOption := by
  obtain ⟨-, typing, s, choice, cost, rfl, hassemble, hsub, hresult, hnatural, hcosts⟩ :=
    assemble_constants hcount h
  have hretable : (Node.apply head (constants cs) typing).retable [] =
      .apply head (constants cs) typing := by
    rw [Node.retable, Node.retableAll_eq_map, map_retable_constants, map_costs_constants,
      hnatural.table, ← hcosts]
  have htarget : ((Node.apply head (constants cs) typing).table []).preferred? = some s.result := by
    rw [Node.table, hretable, Node.costs, hcosts, CostTable.preferred?_single _ _ hresult]
  have htypable : (Node.apply head (constants cs) typing).Typable [] := by
    refine .apply (fun n hn => ?_) (Node.table_ne_empty_iff.mpr
      ⟨s.result, CostTable.isSome_get?_of_preferred? htarget⟩)
    obtain ⟨c, -, rfl⟩ := List.mem_map.mp hn
    exact .constant c.1 c.2
  obtain ⟨hstrong, hsettled⟩ := Node.strengthen_retable pinned_nil
    (formed_constants hcount hsub) (CostTable.isSome_get?_of_preferred? htarget)
  -- A head takes few operands, so the registers are enough.
  have hfew := Head.operands_le hcount (hsub s (List.mem_of_getElem? hnatural.getElem?))
  obtain ⟨result, b, hlower⟩ := hsettled.exists_lower (Nat.zero_le _) (by
    rw [Node.size_strengthen, Node.size_retable, Node.size, sizeAll_constants, maxIndex]
    omega)
  refine ⟨hassemble [], htypable, s.result, result, b, htarget, hlower, ?_⟩
  rw [hretable] at hstrong hlower
  rw [Node.table, hretable] at htarget
  exact Node.constantValue?_of_lower htarget hstrong hlower

/-- An application of constants is folded to the value of the term, whatever the arguments are, and
stays if there is none. -/
theorem constantValue?_eq {term : Term} (hterm : term.isReproducible = true) {head : Head}
    {cs : List (Value × String)} (hparts : term.parts? = some (head, ofConstants cs))
    {node : Node} {params params' : List Parameter}
    (h : Node.assemble head (constants cs) params = (.ok node, params'))
    {env : Environment} (htolerance : env.tolerance = none) :
    node.constantValue? env.registry = (term.eval env).toOption := by
  have hcount : head.takes cs.length := by simpa [ofConstants] using takes_of_parts? hparts
  obtain ⟨hassemble, htypable, target, result, b, htarget, hlower, hvalue⟩ :=
    exists_constantValue?_eq hcount h env.registry
  have hsupplies : Supplies [] [] := by
    intro id p t hp
    simp at hp
  have hassemble' : term.assemble [] = (.ok node, []) := by
    rw [assemble_of_parts? hparts, assembleAll_ofConstants]
    exact hassemble
  have hrun := run_assembled hterm pinned_nil (fun _ _ h => h) hsupplies hassemble' htypable
    htarget hlower env.registry (fun _ => 0) none
  have hsame : head.run env true 0 (cs.map Prod.fst) =
      head.run ⟨env.registry, fun _ => 0, none, id, []⟩ true 0 (cs.map Prod.fst) :=
    Head.run_congr (by rfl) htolerance head _
  rw [hvalue, hrun, eval_of_parts? hparts, eval_of_parts? hparts, evalAll_ofConstants,
    evalAll_ofConstants]
  exact congrArg Except.toOption hsame.symm

end Term

end Formula
