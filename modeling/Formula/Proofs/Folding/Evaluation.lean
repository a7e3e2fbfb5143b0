import Formula.Proofs.Evaluation
import Formula.Proofs.Folding.Building
import Formula.Proofs.Folding.Registers

/-!
# Folding does not change exact evaluation

The expression of a term whose applications are folded and the expression of the same term without
any folding are evaluated alike. For arguments of given types the two trees are typed together and
prefer the same type. The program of each evaluates its term, and the terms have one value. What is
left is the limit on registers, and the folded tree needs no more of them.

No tolerance is given: one would matter to a comparison of constants that has been folded without
it. The negative zero is no constant and no folded value, because a table of literals drops the sign
of a zero.

## Main definitions

* `Expression.ofTree`: the expression of a tree with its parameters.

## Main results

* `Folds.lower_eq_ok`: the two trees are lowered for the same arguments.
* `Expression.outcome_ofTree`: evaluating the expression of an assembled tree evaluates the term.
* `Term.evaluate_build`: folding does not change exact evaluation.
-/

namespace Formula

/-! ### Refreshed trees -/

namespace Node

theorem retable_retable (p q : List Parameter) (node : Node) :
    (node.retable q).retable p = node.retable p := by
  induction node using Node.induct with
  | constant v text => rfl
  | parameter id => rfl
  | apply head operands typing ih =>
    have hoperands : (operands.map (retable q)).map (retable p) = operands.map (retable p) := by
      rw [List.map_map]
      exact List.map_congr_left ih
    rw [retable, retable, retable, retableAll_eq_map, retableAll_eq_map, retableAll_eq_map,
      hoperands]

theorem table_retable (p q : List Parameter) (node : Node) :
    (node.retable q).table p = node.table p := by
  rw [table, table, retable_retable]

theorem typable_retable_iff {p q : List Parameter} {node : Node} :
    (node.retable q).Typable p ↔ node.Typable p := by
  induction node using Node.induct with
  | constant v text => exact Iff.rfl
  | parameter id => exact Iff.rfl
  | apply head operands typing ih =>
    have htable := table_retable p q (apply head operands typing)
    rw [retable, retableAll_eq_map] at htable ⊢
    rw [typable_apply_iff, typable_apply_iff, htable]
    refine and_congr_left fun _ => ?_
    simp only [List.forall_mem_map]
    exact forall₂_congr ih

end Node

theorem Restricts.formed {u n : Node} (h : Restricts u n) (hu : u.Formed) : n.Formed := by
  induction h with
  | constant v text => exact .constant v text
  | parameter id => exact .parameter id
  | @apply head us ns tu tn hlen hsigs _ ih =>
    cases hu with
    | apply hcount husigs hus =>
    refine .apply (hlen ▸ hcount) (fun s hs => hlen ▸ husigs s (hsigs s hs)) fun n hn => ?_
    obtain ⟨i, hi⟩ := List.mem_iff_getElem?.mp hn
    have hlt : i < us.length := hlen ▸ (List.getElem?_eq_some_iff.mp hi).1
    have hui : us[i]? = some us[i] := List.getElem?_eq_getElem hlt
    exact ih i _ n hui hi (hus _ (List.mem_of_getElem? hui))

/-! ### Lowering for arguments of given types -/

namespace Expression

/-- A tree is lowered if it can be typed for the arguments, prefers a type, and the registers are
enough. -/
theorem lower_cases (body : Body) (hroot : body.root.Formed) {types : List ValueType}
    (htypes : .unknown ∉ types) (tolerance : Option Tolerance.Kind) :
    (¬(body.root.Typable (pin body.params types) ∧
        (body.root.table (pin body.params types)).preferred?.isSome) ∧
      ∃ fault, lower body types tolerance = .error (.illTyped fault)) ∨
    ∃ target, body.root.Typable (pin body.params types) ∧
      (body.root.table (pin body.params types)).preferred? = some target ∧
      lower body types tolerance =
        match (Node.strengthen target (body.root.retable (pin body.params types))
          (pin body.params types)).1.lower (pin body.params types) target {} with
        | .error fault => .error (.machine fault)
        | .ok (result, b) =>
          .ok { arguments := types, target, program := b.finish result tolerance } := by
  have hparams : body.params.zipWith (fun p t => { p with supported := TypeMask.of t }) types =
      pin body.params types := rfl
  by_cases htypable : body.root.Typable (pin body.params types)
  · cases htarget : (body.root.table (pin body.params types)).preferred? with
    | none =>
      refine .inl ⟨by simp, .noResultType types, ?_⟩
      have hcosts : ((body.root.retable (pin body.params types)).costs
          (pin body.params types)).preferred? = none := htarget
      simp only [lower, hparams, htypable.refresh_eq, hcosts]
    | some target =>
      obtain ⟨hstrong, -⟩ := Node.strengthen_retable (pinned_pin htypes) hroot
        (CostTable.isSome_get?_of_preferred? htarget)
      exact .inr ⟨target, htypable, rfl, lower_eq htypable htarget (Prod.ext rfl hstrong) tolerance⟩
  · refine .inl ⟨fun h => htypable h.1, ?_⟩
    cases hrefresh : body.root.refresh (pin body.params types) with
    | mk root fault =>
    cases fault with
    | none => exact absurd (Node.refresh_eq_iff.mp hrefresh).1 htypable
    | some fault =>
      refine ⟨fault, ?_⟩
      simp only [lower, hparams, hrefresh]

end Expression

/-- A tree and its folded form are lowered for the same arguments, unless the tree itself needs too
many registers. -/
theorem Folds.isOk_lower {k : Nat} {u n : Node} (h : Folds k u n) (hu : u.Formed) (hn : n.Formed)
    {types : List ValueType} (htypes : .unknown ∉ types) (params : List Parameter)
    (tolerance : Option Tolerance.Kind) (hfits : Expression.lower ⟨u, params⟩ types tolerance ≠
      .error (.machine .registerLimitExceeded)) :
    (Expression.lower ⟨n, params⟩ types tolerance).isOk =
      (Expression.lower ⟨u, params⟩ types tolerance).isOk := by
  have hpin : Pinned (pin params types) := pinned_pin htypes
  have htypable := h.typable_iff (pin params types)
  have hpreferred := (h.raised_table (pin params types)).preferred?_eq
  rcases Expression.lower_cases ⟨u, params⟩ hu htypes tolerance with
    ⟨hno, fault, hlower⟩ | ⟨target, hyes, htarget, hlower⟩
  · rcases Expression.lower_cases ⟨n, params⟩ hn htypes tolerance with
      ⟨-, fault', hlower'⟩ | ⟨target, hyes, htarget, -⟩
    · rw [hlower, hlower']
      rfl
    · exact absurd ⟨htypable.mpr hyes, by simp [hpreferred, htarget]⟩ hno
  · rcases Expression.lower_cases ⟨n, params⟩ hn htypes tolerance with
      ⟨hno, -⟩ | ⟨target', -, htarget', hlower'⟩
    · exact absurd ⟨htypable.mp hyes, by simp [← hpreferred, htarget]⟩ hno
    · obtain rfl : target = target' := by
        rw [hpreferred] at htarget
        exact Option.some.inj (htarget.symm.trans htarget')
      have hoffer := CostTable.isSome_get?_of_preferred? htarget
      rw [hlower] at hfits ⊢
      rw [hlower']
      cases hcode : (Node.strengthen target (u.retable (pin params types))
          (pin params types)).1.lower (pin params types) target {} with
      | error fault =>
        obtain rfl := (Node.strengthen_retable hpin hu hoffer).2.lower_error hcode
        rw [hcode] at hfits
        exact absurd rfl hfits
      | ok out =>
        obtain ⟨r, c, hcode', -⟩ := h.lower_ok hpin hu hn hoffer hcode Builder.slimmer_empty
        rw [hcode']
        rfl

/-! ### Arguments -/

/-- An argument that has been fitted has a type of the mask. -/
theorem Value.supports_of_coerce? {registry : Registry} {supported : TypeMask} {v w : Value}
    (h : v.coerce? registry supported = some w) : supported.supports w.type = true := by
  unfold coerce? at h
  split at h
  · next hv =>
    obtain rfl := Option.some.inj h
    exact hv
  · dsimp only at h
    have htext (h : (if supported.string then some (Value.string (registry.format v)) else none) =
        some w) : supported.supports w.type = true := by
      split at h
      · next hstring =>
        obtain rfl := Option.some.inj h
        exact hstring
      · cases h
    rw [Option.or_eq_some_iff] at h
    rcases h with h | ⟨-, h⟩
    · split at h
      · split at h
        · next hnumeric =>
          obtain rfl := Option.some.inj h
          exact hnumeric
        · cases h
      · split at h
        · next hinteger =>
          obtain ⟨i, -, rfl⟩ := Option.map_eq_some_iff.mp h
          exact hinteger
        · cases h
      · cases h
    · exact htext h

namespace Expression

/-- Arguments that have been fitted have types in the masks of the parameters. -/
theorem within_coerceAll {registry : Registry} {params : List Parameter} {args coerced : List Value}
    (h : coerceAll registry params args = .ok coerced) :
    Within (coerced.map Value.type) params := by
  induction params generalizing args coerced with
  | nil =>
    obtain rfl : coerced = [] := (Except.ok.inj h).symm
    intro id t ht
    simp at ht
  | cons p params ih =>
    obtain _ | ⟨v, args⟩ := args
    · obtain rfl : coerced = [] := (Except.ok.inj h).symm
      intro id t ht
      simp at ht
    · rw [coerceAll, List.zip_cons_cons, List.mapM_cons] at h
      obtain ⟨w, hw, h⟩ := bind_eq_ok_iff.mp h
      obtain ⟨ws, hws, h⟩ := bind_eq_ok_iff.mp h
      obtain rfl := Except.ok.inj h
      rintro (_ | id) t ht
      · obtain rfl := Option.some.inj ht
        dsimp only at hw
        split at hw
        · next w' hcoerce =>
          obtain rfl := Except.ok.inj hw
          exact Value.supports_of_coerce? hcoerce
        · cases hw
      · exact ih hws id t (by simpa using ht)

/-! ### The expression of a tree -/

/-- Arguments whose types are in the masks are taken as they are. -/
theorem coerceAll_of_within {registry : Registry} {params : List Parameter} {args : List Value}
    (hlen : args.length = params.length) (h : Within (args.map Value.type) params) :
    coerceAll registry params args = .ok args := by
  induction params generalizing args with
  | nil =>
    obtain rfl := List.length_eq_zero_iff.mp hlen
    rfl
  | cons p params ih =>
    obtain _ | ⟨v, args⟩ := args
    · cases hlen
    have hfirst : v.coerce? registry p.supported = some v := if_pos (h 0 _ rfl)
    have hrest : coerceAll registry params args = .ok args :=
      ih (Nat.succ.inj hlen) fun id t ht => h (id + 1) t ht
    rw [coerceAll] at hrest
    rw [coerceAll, List.zip_cons_cons, List.mapM_cons]
    simp only [hfirst, hrest]
    rfl

/-- The expression of a tree with its parameters: the tree is refreshed for the parameters as they
are left, and is no expression if that fails. -/
def ofTree (registry : Registry) (source : String) (root : Node) (params : List Parameter) :
    Expression :=
  ofOutcome registry source <|
    match root.refresh params with
    | (root, none) => .ok (root, params)
    | (_, some fault) => .error (.illTyped fault)

theorem ofTree_eq {root : Node} {params : List Parameter} (h : root.Typable params)
    (registry : Registry) (source : String) :
    ofTree registry source root params =
      { source, body := some ⟨root.retable params, params⟩, registry } := by
  rw [ofTree, h.refresh_eq]
  rfl

theorem body_ofTree {root : Node} {params : List Parameter} (h : ¬root.Typable params)
    (registry : Registry) (source : String) :
    (ofTree registry source root params).body = none := by
  rw [ofTree]
  split
  · next heq => exact absurd (Node.refresh_eq_iff.mp heq).1 h
  · rfl

/-- An expression that keeps no program lowers its tree. -/
theorem program_of_lowered_eq {e : Expression} (h : e.lowered = ∅) (body : Body)
    (types : List ValueType) :
    ∃ keep : Lowering → Expression, (∀ lowering, (keep lowering).registry = e.registry) ∧
      e.program body types none =
        (lower body types none).map fun lowering => (lowering, true, keep lowering) := by
  simp only [program, ite_self, Option.bind_none, h]
  split
  · exact ⟨fun _ => e, fun _ => rfl, rfl⟩
  · refine ⟨fun lowering => { e with lowered := Std.HashMap.insert ∅ (types, none) lowering },
      fun _ => rfl, ?_⟩
    simp

/-- A tree of few nodes that can be typed for the arguments is lowered. -/
theorem exists_lower (body : Body) (hroot : body.root.Formed) {types : List ValueType}
    (htypes : .unknown ∉ types) (htypable : body.root.Typable (pin body.params types))
    {target : ValueType}
    (htarget : (body.root.table (pin body.params types)).preferred? = some target)
    (hparams : body.params.length ≤ maxIndex) (hsize : 2 * body.root.size ≤ maxIndex)
    (tolerance : Option Tolerance.Kind) :
    ∃ lowering, lower body types tolerance = .ok lowering := by
  rcases lower_cases body hroot htypes tolerance with ⟨hno, -⟩ | ⟨target', -, htarget', hlower⟩
  · exact absurd ⟨htypable, by simp [htarget]⟩ hno
  · have hoffer := CostTable.isSome_get?_of_preferred? htarget'
    have hlen : (pin body.params types).length ≤ maxIndex + 1 := by
      rw [pin, List.length_zipWith]
      omega
    obtain ⟨result, b, hcode⟩ := (Node.strengthen_retable (pinned_pin htypes) hroot
      hoffer).2.exists_lower hlen (by rw [Node.size_strengthen, Node.size_retable]; omega)
    rw [hlower, hcode]
    exact ⟨_, rfl⟩

/-- Running what an assembled tree is lowered to evaluates the term. -/
theorem run_lower {term : Term} (hterm : term.isReproducible = true) {node : Node}
    {params params' : List Parameter} (hassemble : term.assemble params = (.ok node, params'))
    {args : List Value} (hlen : args.length = params'.length)
    (hwithin : Within (args.map Value.type) params') {tolerance : Option Tolerance.Kind}
    {lowering : Lowering} (hlower : lower ⟨node.retable params', params'⟩ (args.map Value.type)
      tolerance = .ok lowering) (registry : Registry) (draws : Draws) :
    lowering.program.run registry draws args =
      term.eval ⟨registry, draws, tolerance, id, args⟩ := by
  have htypes : ValueType.unknown ∉ args.map Value.type := by
    simpa using fun v _ => v.type_ne_unknown
  obtain ⟨hnarrows, hrestricts⟩ := Term.assemble_restricts hassemble
  have hwidens : Widens (pin params' (args.map Value.type)) params :=
    (widens_pin_iff htypes (by simpa using hlen)).mpr fun id t ht =>
      hnarrows.2 id t (hwithin id t ht)
  rcases lower_cases ⟨node.retable params', params'⟩ (hrestricts.formed term.formed_full).retable
      htypes tolerance with ⟨-, fault, herror⟩ | ⟨target, htypable, htarget, heq⟩
  · rw [hlower] at herror
    cases herror
  · rw [Node.typable_retable_iff] at htypable
    rw [Node.table_retable] at htarget
    rw [hlower, Node.retable_retable] at heq
    split at heq
    · cases heq
    · next result b hcode =>
      obtain rfl := Except.ok.inj heq
      exact Term.run_assembled hterm (pinned_pin htypes) hwidens supplies_pin hassemble htypable
        htarget hcode registry draws tolerance

/-- Evaluating the expression of an assembled tree on arguments evaluates the term, once the
arguments are fitted and the tree is lowered. -/
theorem outcome_ofTree {term : Term} (hterm : term.isReproducible = true) {node : Node}
    {params params' : List Parameter} (hassemble : term.assemble params = (.ok node, params'))
    (htypable : node.Typable params') {args : List Value} (hlen : args.length = params'.length)
    (registry : Registry) (source : String) (draws : Draws) :
    match coerceAll registry params' args with
    | .error fault =>
      ((ofTree registry source node params').evaluate draws args none).outcome = .error fault
    | .ok coerced =>
      match lower ⟨node.retable params', params'⟩ (coerced.map Value.type) none with
      | .error fault =>
        ((ofTree registry source node params').evaluate draws args none).outcome = .error fault
      | .ok _ =>
        ((ofTree registry source node params').evaluate draws args none).outcome.toOption =
          (term.eval ⟨registry, draws, none, id, coerced⟩).toOption := by
  rw [ofTree_eq htypable]
  simp only [evaluate, hlen, ne_eq, not_true_eq_false, if_false]
  cases hconstant : Body.constant? ⟨node.retable params', params'⟩ with
  | some v =>
    -- The tree is a constant and there are no arguments.
    obtain ⟨text, rfl, rfl⟩ : ∃ text, node = .constant v text ∧ params' = [] := by
      rw [Body.constant?] at hconstant
      split at hconstant
      · next w text hroot hparams =>
        obtain rfl := Option.some.inj hconstant
        cases node with
        | constant w' text' =>
          obtain ⟨rfl, rfl⟩ := Node.constant.inj hroot
          exact ⟨text', rfl, hparams⟩
        | parameter id => cases hroot
        | apply head operands typing => cases hroot
      · cases hconstant
    obtain ⟨rfl, -⟩ := Term.eq_constant_of_assemble hassemble
    obtain rfl := List.length_eq_zero_iff.mp hlen
    obtain ⟨lowering, hlower⟩ := exists_lower ⟨.constant v text, []⟩ (.constant v text)
      List.not_mem_nil (.constant v text) (CostTable.preferred?_leaf_of v.type_ne_unknown)
      (Nat.zero_le _) (by simp [Node.size, maxIndex]) none
    have hcoerce : coerceAll registry [] [] = .ok [] := rfl
    simp only [hcoerce, Node.retable, List.map_nil, hlower]
    rw [Term.eval]
    rfl
  | none =>
    cases hcoerce : coerceAll registry params' args with
    | error fault => rfl
    | ok coerced =>
      have htypes : ValueType.unknown ∉ coerced.map Value.type := by
        simpa using fun v _ => v.type_ne_unknown
      obtain ⟨keep, hregistry, hprogram⟩ := program_of_lowered_eq
        (e := ⟨source, some ⟨node.retable params', params'⟩, registry, ∅⟩) rfl
        ⟨node.retable params', params'⟩ (coerced.map Value.type)
      simp only [hprogram]
      cases hlower : lower ⟨node.retable params', params'⟩ (coerced.map Value.type) none with
      | error fault => rfl
      | ok lowering =>
        have hrun := run_lower hterm hassemble (length_of_coerceAll hlen hcoerce)
          (within_coerceAll hcoerce) hlower registry draws
        simp only [Except.map, runProgram, hregistry, ← hrun]
        cases lowering.program.run registry draws coerced <;> rfl

end Expression

/-- The expressions of a tree and its folded form have the same outcome, if their terms have the
same value. -/
theorem Folds.toOption_outcome {k : Nat} {u n : Node} (h : Folds k u n) {term term' : Term}
    (hterm : term.isReproducible = true) (hterm' : term'.isReproducible = true)
    {registry : Registry} (hsame : term.SameValue registry term')
    {params params' : List Parameter} (hu : term.assemble params = (.ok u, params'))
    (hn : term'.assemble params = (.ok n, params')) (hplain : u.Typable params') (source : String)
    (draws : Draws) (args : List Value)
    (hfits : ((Expression.ofTree registry source u params').evaluate draws args none).outcome ≠
      .error (.machine .registerLimitExceeded)) :
    ((Expression.ofTree registry source n params').evaluate draws args none).outcome.toOption =
      ((Expression.ofTree registry source u params').evaluate draws args none).outcome.toOption := by
  have hfolded := (h.typable_iff params').mp hplain
  by_cases hlen : args.length = params'.length
  · have hformed := (Term.assemble_restricts hu).2.formed term.formed_full
    have hformed' := (Term.assemble_restricts hn).2.formed term'.formed_full
    have houtcome := Expression.outcome_ofTree hterm hu hplain hlen registry source draws
    have houtcome' := Expression.outcome_ofTree hterm' hn hfolded hlen registry source draws
    cases hcoerce : Expression.coerceAll registry params' args with
    | error fault =>
      rw [hcoerce] at houtcome houtcome'
      rw [houtcome, houtcome']
    | ok coerced =>
      have htypes : ValueType.unknown ∉ coerced.map Value.type := by
        simpa using fun v _ => v.type_ne_unknown
      simp only [hcoerce] at houtcome houtcome'
      have hlower := (h.retable params').isOk_lower hformed.retable hformed'.retable htypes params'
        none
      cases hcode : Expression.lower ⟨u.retable params', params'⟩ (coerced.map Value.type) none with
      | error fault =>
        simp only [hcode] at houtcome hlower
        rw [houtcome] at hfits ⊢
        have hfail := hlower fun h => hfits (by rw [Except.error.inj h])
        cases hcode' : Expression.lower ⟨n.retable params', params'⟩ (coerced.map Value.type) none with
        | error fault' =>
          simp only [hcode'] at houtcome'
          rw [houtcome']
          rfl
        | ok lowering =>
          rw [hcode'] at hfail
          cases hfail
      | ok lowering =>
        simp only [hcode] at houtcome hlower
        have hdone := hlower (by simp)
        cases hcode' : Expression.lower ⟨n.retable params', params'⟩ (coerced.map Value.type) none with
        | error fault' =>
          rw [hcode'] at hdone
          cases hdone
        | ok lowering' =>
          simp only [hcode'] at houtcome'
          rw [houtcome, houtcome', hsame _ rfl rfl]
  · rw [Expression.ofTree_eq hplain, Expression.ofTree_eq hfolded]
    simp only [Expression.evaluate, ne_eq, hlen, not_false_eq_true, if_true]
    rfl

/-- Constant folding does not change exact evaluation. Built once with every application folded and
once without, a term over deterministic functions narrows its parameters alike, and is built or not
in both cases. The two trees return the same type. If the negative zero is neither a constant nor a
folded value, then without a tolerance the two expressions give the same value or fail together,
for all arguments for which the tree that is not folded has enough registers. -/
theorem Term.evaluate_build {term : Term} (hterm : term.isReproducible = true)
    (registry : Registry) (caption : Term → String) (params : List Parameter) :
    (term.build registry caption params).2 = (term.assemble params).2 ∧
    (term.build registry caption params).1.isOk = (term.assemble params).1.isOk ∧
    ∀ u b params', term.assemble params = (.ok u, params') →
      term.build registry caption params = (.ok b, params') →
      b.root.returns params' = u.returns params' ∧
      ∀ source,
        let plain := Expression.ofTree registry source u params'
        let folded := Expression.ofTree registry source b.root params'
        folded.isRecognized = plain.isRecognized ∧ folded.returns = plain.returns ∧
        ((∀ v ∈ b.folded, v ≠ .numeric (-0)) → ∀ draws args,
          (plain.evaluate draws args none).outcome ≠ .error (.machine .registerLimitExceeded) →
          (folded.evaluate draws args none).outcome.toOption =
            (plain.evaluate draws args none).outcome.toOption) := by
  have hmatched : Matched _ (term.assemble params) (term.build registry caption params) :=
    matched_build term params
  refine ⟨hmatched.1.symm, ?_, ?_⟩
  · rcases hmatched.2 with ⟨u, b, hu, hb, -⟩ | ⟨fault, fault', hu, hb⟩
    · rw [hu, hb]
      rfl
    · rw [hu, hb]
      rfl
  intro u b params' hu hb
  obtain ⟨k, hfolds⟩ : ∃ k, Folds k u b.root := by
    rw [hu, hb] at hmatched
    rcases hmatched.2 with ⟨u', b', hu', hb', hfolds⟩ | ⟨fault, fault', hu', -⟩
    · obtain rfl := Except.ok.inj hu'
      obtain rfl := Except.ok.inj hb'
      exact hfolds
    · cases hu'
  refine ⟨by rw [Node.returns, Node.returns, (hfolds.raised_costs params').preferred?_eq],
    fun source => ?_⟩
  dsimp only
  have htypable := hfolds.typable_iff params'
  by_cases hplain : u.Typable params'
  · have hfolded := htypable.mp hplain
    refine ⟨?_, ?_, fun hzero draws args hfits => ?_⟩
    · rw [Expression.ofTree_eq hplain, Expression.ofTree_eq hfolded]
      rfl
    · rw [Expression.ofTree_eq hplain, Expression.ofTree_eq hfolded, Expression.returns,
        Expression.returns]
      dsimp only
      rw [Node.returns, Node.returns,
        ((hfolds.retable params').raised_costs params').preferred?_eq]
    · obtain ⟨term', hterm', hassemble, hsame⟩ := exists_simplified hterm hb hzero
      exact hfolds.toOption_outcome hterm hterm' hsame hu hassemble hplain source draws args hfits
  · have hfolded := mt htypable.mpr hplain
    have hbody := Expression.body_ofTree hplain registry source
    have hbody' := Expression.body_ofTree hfolded registry source
    refine ⟨?_, ?_, fun _ draws args _ => ?_⟩
    · rw [Expression.isRecognized, Expression.isRecognized, hbody, hbody']
    · rw [Expression.returns, Expression.returns, hbody, hbody']
    · simp only [Expression.evaluate, hbody, hbody']
      rfl

/-- The product of `2 + 3` and `x`, for the integer 7: the sum is folded to 5, and both expressions
give 35. -/
theorem Term.evaluate_build_product :
    let sum : Term :=
      .binary (.operate .add) (.constant (.integer 2) "2") (.constant (.integer 3) "3")
    let term : Term := .binary (.operate .multiply) sum (.parameter 0)
    let params : List Parameter := [⟨"x", TypeMask.all⟩]
    let args : List Value := [.integer 7]
    term.isReproducible = true ∧ ∃ u b params', term.assemble params = (.ok u, params') ∧
      term.build Registry.empty (fun _ => "2+3") params = (.ok b, params') ∧
      b.folded = [.integer 5] ∧ b.root.returns params' = u.returns params' ∧
      ((Expression.ofTree Registry.empty "(2+3)*x" u params').evaluate (fun _ => 0) args
        none).outcome = .ok (.integer 35) ∧
      ((Expression.ofTree Registry.empty "(2+3)*x" b.root params').evaluate (fun _ => 0) args
        none).outcome = .ok (.integer 35) := by
  intro sum term params args
  have hterm : term.isReproducible = true := by decide
  let u := (term.assemble params).1.toOption.getD default
  let params' := (term.assemble params).2
  have hu : term.assemble params = (.ok u, params') :=
    Prod.ext (eq_ok_of_isSome (x := (term.assemble params).1) (by decide +kernel) default) rfl
  -- The sum is folded to its value.
  let operands : List Node := [.constant (.integer 2) "2", .constant (.integer 3) "3"]
  let node := (Node.assemble (.binary (.operate .add)) operands params).1.toOption.getD default
  have hnode : Node.assemble (.binary (.operate .add)) operands params = (.ok node, params) :=
    Prod.ext (eq_ok_of_isSome (x := (Node.assemble (.binary (.operate .add)) operands params).1)
      (by decide +kernel) default) (by decide +kernel)
  let env : Environment := ⟨Registry.empty, fun _ => 0, none, id, []⟩
  have hvalue : node.constantValue? env.registry = (sum.eval env).toOption :=
    constantValue?_eq (by decide)
      (show sum.parts? = some (_, ofConstants [(.integer 2, "2"), (.integer 3, "3")]) from rfl)
      hnode rfl
  have hfold : node.fold Registry.empty "2+3" = .constant (.integer 5) "2+3" := by
    have hfive : (sum.eval env).toOption = some (.integer 5) := by decide
    rw [Node.fold, if_pos (by decide +kernel), hvalue, hfive]
  have hsum : sum.build Registry.empty (fun _ => "2+3") params =
      (.ok ⟨.constant (.integer 5) "2+3", [.integer 5]⟩, params) := by
    simp only [sum, build, Built.compose, List.map_cons, List.map_nil]
    rw [show Node.assemble _ [_, _] params = _ from hnode]
    simp only [Built.ofAssembled, hfold]
    rfl
  -- The product is not, because of the parameter.
  let operands' : List Node := [.constant (.integer 5) "2+3", .parameter 0]
  let product :=
    (Node.assemble (.binary (.operate .multiply)) operands' params).1.toOption.getD default
  have hproduct : Node.assemble (.binary (.operate .multiply)) operands' params =
      (.ok product, params') :=
    Prod.ext (eq_ok_of_isSome
      (x := (Node.assemble (.binary (.operate .multiply)) operands' params).1)
      (by decide +kernel) default) (by decide +kernel)
  have hbuild : term.build Registry.empty (fun _ => "2+3") params =
      (.ok ⟨product, [.integer 5]⟩, params') := by
    have hkept : product.fold Registry.empty "2+3" = product := by
      rw [Node.fold, if_neg (by decide +kernel)]
    simp only [term, build, hsum, Built.compose, List.map_cons, List.map_nil]
    rw [show Node.assemble _ [_, _] params = _ from hproduct]
    simp only [Built.ofAssembled_eq hkept (by decide +kernel)]
    rfl
  -- The tree that is not folded is small, so it is lowered, and gives the value of the term.
  have htypable : u.Typable params' := Node.typable_of_refresh (by decide +kernel)
  have hcoerce : Expression.coerceAll Registry.empty params' args = .ok args := by decide +kernel
  have hplain : ((Expression.ofTree Registry.empty "(2+3)*x" u params').evaluate (fun _ => 0) args
      none).outcome = .ok (.integer 35) := by
    have htypes : ValueType.unknown ∉ args.map Value.type := by decide
    have hformed : (u.retable params').Formed :=
      ((assemble_restricts hu).2.formed term.formed_full).retable
    obtain ⟨lowering, hlower⟩ := Expression.exists_lower ⟨u.retable params', params'⟩ hformed htypes
      (Node.typable_of_refresh (by decide +kernel))
      (show ((u.retable params').table _).preferred? = some .integer by decide +kernel)
      (by decide +kernel) (by decide +kernel) none
    have hlen : args.length = params'.length := by decide +kernel
    have houtcome := Expression.outcome_ofTree hterm hu htypable hlen Registry.empty "(2+3)*x"
      (fun _ => 0)
    simp only [hcoerce, hlower] at houtcome
    exact eq_ok_of_toOption (houtcome.trans (by decide))
  obtain ⟨-, -, hsame⟩ := evaluate_build hterm Registry.empty (fun _ => "2+3") params
  obtain ⟨hreturns, hsame⟩ := hsame u _ params' hu hbuild
  have hfolded := (hsame "(2+3)*x").2.2 (by simp) (fun _ => 0) args (by rw [hplain]; simp)
  rw [hplain] at hfolded
  exact ⟨hterm, u, _, params', hu, hbuild, rfl, hreturns, hplain, eq_ok_of_toOption hfolded⟩

end Formula
