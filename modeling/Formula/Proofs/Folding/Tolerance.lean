import Formula.Proofs.Caching
import Formula.Proofs.Folding.Closed
import Formula.Proofs.Folding.Evaluation

/-!
# Tolerances and folded comparisons

A tolerance is given when an expression is evaluated, and constants are compared when it is built.
So a comparison of two parameters heeds the tolerance, and a comparison of two constants is exact,
whatever the tolerance is.

## Main results

* `Term.constantValue?_comparison`: a comparison of constants is folded to the exact outcome.
* `Expression.evaluate_comparison`: the comparison of two numbers, as constants and as arguments.
* `Expression.evaluate_comparison_unlike`: the two differ.
-/

namespace Formula

/-! ### Comparisons of numbers -/

theorem Value.isNumber_cases {v : Value} (h : v.isNumber = true) :
    v.type = .integer ∨ v.type = .numeric := by
  cases v <;> simp_all [isNumber, type]

/-- Numbers can always be compared, exactly or not. -/
theorem Comparison.exists_apply_of_isNumber {op : Comparison} {a b : Value} (ha : a.isNumber = true)
    (hb : b.isNumber = true) (kind : Tolerance.Kind) :
    (∃ exact, op.apply a b = .ok exact) ∧ ∃ within, op.applyWithin kind a b = .ok within := by
  cases a <;> cases ha <;> cases b <;> cases hb <;>
    simp only [apply, applyWithin, Value.number?] <;>
    first
    | exact ⟨⟨_, rfl⟩, _, rfl⟩
    | split <;> exact ⟨⟨_, rfl⟩, _, rfl⟩

/-- Some overload of a comparison accepts two numbers. -/
theorem Comparison.isSome_costsFor (op : Comparison) {s t : ValueType}
    (hs : s = .integer ∨ s = .numeric) (ht : t = .integer ∨ t = .numeric) :
    ((Typing.costsFor ((Head.binary (.compare op)).signatures 2)
      [CostTable.single 0 s 0, CostTable.single 0 t 0]).get? .boolean).isSome := by
  rcases hs with rfl | rfl <;> rcases ht with rfl | rfl <;> cases op <;> decide

/-! ### Constants -/

/-- Without an allowance, values are compared exactly. -/
theorem Head.toOption_run_comparison (env : Environment) (htolerance : env.tolerance = none)
    (op : Comparison) (tolerant : Bool) (draw : UInt64) (a b : Value) :
    ((Head.binary (.compare op)).run env tolerant draw [a, b]).toOption =
      (op.apply a b).toOption.map Value.boolean := by
  have hexact : env.comparison op tolerant a b = op.apply a b := by
    unfold Environment.comparison
    rw [htolerance]
  rw [run, hexact]
  cases op.apply a b <;> rfl

/-- A comparison of constants is folded to the exact outcome. -/
theorem Term.constantValue?_comparison {op : Comparison} {a b : Value × String} {node : Node}
    (hnode : Node.assemble (.binary (.compare op)) (constants [a, b]) [] = (.ok node, []))
    (registry : Registry) :
    node.constantValue? registry = (op.apply a.1 b.1).toOption.map Value.boolean := by
  have hcount : (Head.binary (.compare op)).takes [a, b].length := rfl
  obtain ⟨target, literal, htarget, hliteral, hvalue⟩ :=
    exists_constantValue?_meaning hcount hnode registry
  let env : Environment := ⟨registry, fun _ => 0, none, literal, []⟩
  obtain ⟨s, choice, cost, widened, hs, hconv, hwidened, htypes, hmeaning⟩ :=
    meaning_constants pinned_nil hcount htarget env 0
  -- The comparison gives a truth value, which is not converted.
  obtain ⟨l, r, -, hresult⟩ := BinaryOp.result?_of_mem (List.mem_of_getElem? hs.getElem?)
  obtain rfl : s.result = target := by
    have hboolean : s.result = .boolean := by
      rw [BinaryOp.result?, Comparison.result?, Option.ite_none_right_eq_some] at hresult
      exact (Option.some.inj hresult.2).symm
    rw [hboolean] at hconv ⊢
    cases target <;> first | rfl | cases hconv
  have hrun : ((Head.binary (.compare op)).run env s.comparesNumbers 0
      (widened.map literal)).toOption = (op.apply a.1 b.1).toOption.map Value.boolean := by
    have hsame : (Head.binary (.compare op)).run env s.comparesNumbers 0 widened =
        (Head.binary (.compare op)).run env true 0 [a.1, b.1] :=
      Head.run_widening env 0 (fun f hf => by cases hf) hs hwidened htypes
    obtain _ | @⟨_, v, _, _, hv, _ | @⟨_, w, _, _, hw, _ | _⟩⟩ := hwidened
    have hplain : (op.apply v w).toOption.map Value.boolean =
        (op.apply a.1 b.1).toOption.map Value.boolean := by
      rw [← Head.toOption_run_comparison env rfl op s.comparesNumbers 0,
        ← Head.toOption_run_comparison env rfl op true 0, hsame]
    rw [← hplain, ← Comparison.apply_upToSign (.of_canonical (hliteral v))
      (.of_canonical (hliteral w))]
    exact Head.toOption_run_comparison env rfl op s.comparesNumbers 0 ..
  rw [hvalue, hmeaning, ← hrun]
  cases (Head.binary (.compare op)).run env s.comparesNumbers (env.draws 0) (widened.map literal) with
  | error fault => rfl
  | ok v =>
    simp only [ok_bind, Value.widened, if_true]
    rfl

/-- Two constant numbers are compared when the tree is built. -/
theorem Term.build_comparison_constants (op : Comparison) {a b : Value × String}
    (ha : a.1.isNumber = true) (hb : b.1.isNumber = true) (registry : Registry)
    (caption : Term → String) {exact : Bool} (hexact : op.apply a.1 b.1 = .ok exact) :
    let term : Term := .binary (.compare op) (.constant a.1 a.2) (.constant b.1 b.2)
    term.build registry caption [] =
      (.ok ⟨.constant (.boolean exact) (caption term), [.boolean exact]⟩, []) := by
  intro term
  have hcount : (Head.binary (.compare op)).takes [a, b].length := rfl
  have hfull : term.full = Node.undetermined (.binary (.compare op)) (constants [a, b]) := rfl
  have htypable : term.full.Typable [] := by
    rw [hfull]
    refine .apply (fun n hn => ?_) (Node.table_ne_empty_iff.mpr ⟨.boolean, ?_⟩)
    · obtain ⟨c, -, rfl⟩ := List.mem_map.mp hn
      exact .constant c.1 c.2
    · exact table_constants _ [a, b] [] ▸ op.isSome_costsFor (Value.isNumber_cases ha)
        (Value.isNumber_cases hb)
  obtain ⟨node, params', hassemble, -⟩ := assemble_covers pinned_nil htypable fun _ _ h => h
  have hnode : Node.assemble (.binary (.compare op)) (constants [a, b]) [] = (.ok node, params') :=
    hassemble
  obtain ⟨rfl, typing, -, -, -, rfl, -⟩ := assemble_constants hcount hnode
  have hfold (text : String) : (Node.apply (.binary (.compare op)) (constants [a, b]) typing).fold
      registry text = .constant (.boolean exact) text := by
    have hfoldable : (Node.apply (.binary (.compare op)) (constants [a, b]) typing).isFoldable :=
      rfl
    rw [Node.fold, if_pos hfoldable, constantValue?_comparison hnode, hexact]
    rfl
  simp only [term, build, Built.compose, List.map_cons, List.map_nil]
  rw [show Node.assemble _ [_, _] [] = _ from hnode]
  simp only [Built.ofAssembled, hfold]
  rfl

/-! ### Parameters -/

/-- The comparison of two parameters. -/
def Term.parameterComparison (op : Comparison) : Term :=
  .binary (.compare op) (.parameter 0) (.parameter 1)

/-- The tree of the comparison of two parameters. -/
def Node.parameterComparison (op : Comparison) (typing : Typing) : Node :=
  .apply (.binary (.compare op)) [.parameter 0, .parameter 1] typing

/-- The comparison of two parameters of any type is assembled, and two numbers can still be
compared. -/
theorem Term.assemble_parameterComparison (op : Comparison) {s t : ValueType}
    (hs : s = .integer ∨ s = .numeric) (ht : t = .integer ∨ t = .numeric) (x y : String) :
    ∃ typing params, (parameterComparison op).assemble [⟨x, TypeMask.all⟩, ⟨y, TypeMask.all⟩] =
        (.ok (Node.parameterComparison op typing), params) ∧
      params.map Parameter.name = [x, y] ∧ Within [s, t] params ∧
      typing.signatures.any Signature.comparesNumbers = true ∧
      (Node.parameterComparison op typing).Typable (pin params [s, t]) := by
  have htypes : ValueType.unknown ∉ [s, t] := by
    rcases hs with rfl | rfl <;> rcases ht with rfl | rfl <;> decide
  have hpin : Pinned (pin [⟨x, TypeMask.all⟩, ⟨y, TypeMask.all⟩] [s, t]) := pinned_pin htypes
  have htables : [Node.parameter 0, .parameter 1].map
      (Node.table (pin [⟨x, TypeMask.all⟩, ⟨y, TypeMask.all⟩] [s, t])) =
        [CostTable.single 0 s 0, CostTable.single 0 t 0] := by
    rcases hs with rfl | rfl <;> rcases ht with rfl | rfl <;> rfl
  have hfull : (parameterComparison op).full =
      Node.undetermined (.binary (.compare op)) [.parameter 0, .parameter 1] := rfl
  have htypable : (parameterComparison op).full.Typable
      (pin [⟨x, TypeMask.all⟩, ⟨y, TypeMask.all⟩] [s, t]) := by
    rw [hfull]
    refine .apply (fun n hn => ?_) (Node.table_ne_empty_iff.mpr ⟨.boolean, ?_⟩)
    · rcases List.mem_pair.mp hn with rfl | rfl
      · exact .parameter 0
      · exact .parameter 1
    · rw [Node.table_apply, htables]
      exact op.isSome_costsFor hs ht
  have hwidens : Widens (pin [⟨x, TypeMask.all⟩, ⟨y, TypeMask.all⟩] [s, t])
      [⟨x, TypeMask.all⟩, ⟨y, TypeMask.all⟩] := by
    intro id r hr
    obtain ⟨hid, hr⟩ := (supports_maskAt_pin_iff htypes).mp hr
    have hne : r ≠ .unknown := fun h => htypes (h ▸ List.mem_of_getElem? hr)
    have hall : TypeMask.all.supports r = true := by
      rwa [TypeMask.supports_all, decide_eq_true_iff]
    match id, hid with
    | 0, _ | 1, _ => exact hall
  obtain ⟨node, params, hassemble, hkept, hcovers⟩ := assemble_covers hpin htypable hwidens
  have hnames : params.map Parameter.name = [x, y] := (assemble_restricts hassemble).1.1
  have hnode := (hcovers.agree hpin htypable (formed_full _)).1
  rw [hfull] at hcovers
  cases hcovers with
  | @apply _ _ _ ns _ typing keep hlen harity hsigs hkeep hoperands =>
    obtain ⟨left, right, rfl⟩ := List.length_eq_two.mp hlen.symm
    obtain rfl : left = .parameter 0 := by
      cases hoperands 0 _ left rfl rfl
      rfl
    obtain rfl : right = .parameter 1 := by
      cases hoperands 1 _ right rfl rfl
      rfl
    refine ⟨typing, params, hassemble, hnames, (widens_pin_iff htypes rfl).mp hkept, ?_, ?_⟩
    · -- The overload for doubles is kept: numbers of both types can be made into doubles.
      have hmem : ⟨[.numeric, .numeric], .boolean⟩ ∈ typing.signatures := by
        rw [hsigs]
        refine List.mem_filter.mpr ⟨?_, hkeep _ ?_ ?_ ?_⟩
        · cases op <;> decide
        · cases op <;> decide
        · rw [htables]
          rcases hs with rfl | rfl <;> rcases ht with rfl | rfl <;> decide
        · decide
      exact List.any_eq_true.mpr ⟨_, hmem, rfl⟩
    · have hsame : pin params [s, t] = pin [⟨x, TypeMask.all⟩, ⟨y, TypeMask.all⟩] [s, t] :=
        pin_eq_of_names hnames
      rwa [hsame]

/-- The comparison of two parameters is not folded. -/
theorem Term.build_parameterComparison {op : Comparison} {params params' : List Parameter}
    {typing : Typing} (hassemble : (parameterComparison op).assemble params =
      (.ok (Node.parameterComparison op typing), params'))
    (registry : Registry) (caption : Term → String) :
    (parameterComparison op).build registry caption params =
      (.ok ⟨Node.parameterComparison op typing, []⟩, params') := by
  have hnode : Node.assemble (.binary (.compare op)) [.parameter 0, .parameter 1] params =
      (.ok (Node.parameterComparison op typing), params') := hassemble
  have hkept (text : String) : (Node.parameterComparison op typing).fold registry text =
      Node.parameterComparison op typing := if_neg Bool.false_ne_true
  simp only [parameterComparison, build, Built.compose, List.map_cons, List.map_nil]
  rw [show Node.assemble _ [_, _] _ = _ from hnode]
  simp only [Built.ofAssembled_eq (hkept _) rfl]
  rfl

namespace Expression

/-- The comparison of two parameters is lowered with an allowance that it is given. -/
theorem exists_lower_parameterComparison {op : Comparison} {s t : ValueType}
    (htypes : ValueType.unknown ∉ [s, t]) {typing : Typing} {params params' : List Parameter}
    (hassemble : (Term.parameterComparison op).assemble params =
      (.ok (Node.parameterComparison op typing), params')) (hparams : params'.length = 2)
    (htypable : (Node.parameterComparison op typing).Typable (pin params' [s, t]))
    (tolerance : Option Tolerance.Kind) :
    ∃ lowering, lower ⟨(Node.parameterComparison op typing).retable params', params'⟩ [s, t]
      tolerance = .ok lowering := by
  have hscope : (Node.parameterComparison op typing).Scoped params'.length := by
    refine .apply fun n hn => ?_
    rcases List.mem_pair.mp hn with rfl | rfl <;> exact .parameter (by omega)
  have hformed := (Term.assemble_restricts hassemble).2.formed (Term.formed_full _)
  have hlen : [s, t].length = params'.length := hparams.symm
  obtain ⟨target, htarget⟩ := Node.exists_preferred? hlen htypes hscope htypable
  refine exists_lower ⟨(Node.parameterComparison op typing).retable params', params'⟩
    hformed.retable htypes (Node.typable_retable_iff.mpr htypable)
    (by rwa [Node.table_retable]) ?_ ?_ tolerance
  · rw [hparams, maxIndex]
    decide
  · rw [Node.size_retable]
    change 2 * 3 ≤ maxIndex
    rw [maxIndex]
    decide

/-- Two parameters are compared with the tolerance. -/
theorem evaluate_parameterComparison (op : Comparison) {a b : Value} (ha : a.isNumber = true)
    (hb : b.isNumber = true) (registry : Registry) (caption : Term → String) (x y source : String)
    (draws : Draws) {tolerance : Tolerance} {kind : Tolerance.Kind}
    (hkind : tolerance.honored? = some kind) {within : Bool}
    (hwithin : op.applyWithin kind a b = .ok within) :
    ∃ built params, (Term.parameterComparison op).build registry caption
        [⟨x, TypeMask.all⟩, ⟨y, TypeMask.all⟩] = (.ok built, params) ∧
      params.map Parameter.name = [x, y] ∧
      ((ofTree registry source built.root params).evaluate draws [a, b] (some tolerance)).outcome =
        .ok (.boolean within) := by
  obtain ⟨typing, params, hassemble, hnames, hfits, htolerant, htypable⟩ :=
    Term.assemble_parameterComparison op (Value.isNumber_cases ha) (Value.isNumber_cases hb) x y
  refine ⟨_, params, Term.build_parameterComparison hassemble registry caption, hnames, ?_⟩
  have hparams : params.length = 2 := by simpa using congrArg List.length hnames
  have htypes : ValueType.unknown ∉ [a, b].map Value.type := by
    simpa using ⟨a.type_ne_unknown.symm, b.type_ne_unknown.symm⟩
  -- Numbers can still be compared, so the tolerance is heeded.
  let body : Body := ⟨(Node.parameterComparison op typing).retable params, params⟩
  have hheeded : body.heeded? (some tolerance) = some kind := by
    have hroot : ((Node.parameterComparison op typing).retable params).isTolerant = true := by
      rw [Node.parameterComparison, Node.retable, Node.isTolerant, Node.any]
      simp only [htolerant, Bool.true_or]
    rw [Body.heeded?, if_pos hroot]
    exact hkind
  obtain ⟨lowering, hlower⟩ :=
    exists_lower_parameterComparison htypes hassemble hparams htypable (some kind)
  have hlen : [a, b].length = params.length := hparams.symm
  have hrun := run_lower rfl hassemble hlen hfits hlower registry draws
  have hvalue : (Term.parameterComparison op).eval ⟨registry, draws, some kind, id, [a, b]⟩ =
      .ok (.boolean within) := by
    change Head.run _ true 0 (.binary (.compare op)) [a, b] = _
    simp only [Head.run, Environment.comparison, hwithin]
    rfl
  obtain ⟨isNew, e, hprogram, hbare, -⟩ := (faithful_of_lowered_eq (e := ⟨source, some body,
    registry, ∅⟩) rfl).program_ok rfl (hheeded ▸ hlower)
  have hregistry : e.registry = registry := registry_eq_of_bare hbare
  have hcoerce : coerceAll registry params [a, b] = .ok [a, b] :=
    coerceAll_of_within hparams.symm hfits
  have hconstant : body.constant? = none := rfl
  have hplain : (Node.parameterComparison op typing).Typable params :=
    htypable.mono ((widens_pin_iff htypes hparams.symm).mpr hfits)
  rw [ofTree_eq hplain]
  change (evaluate ⟨source, some body, registry, ∅⟩ draws [a, b] (some tolerance)).outcome = _
  simp only [evaluate, body, hparams, List.length_cons, List.length_nil, ne_eq, not_true_eq_false,
    if_false, hconstant, hcoerce, List.map_cons, List.map_nil, hprogram, runProgram, hregistry,
    hrun, hvalue]

/-- Two constants are compared exactly, whatever the tolerance is. -/
theorem evaluate_comparison_constants (op : Comparison) {a b : Value × String}
    (ha : a.1.isNumber = true) (hb : b.1.isNumber = true) (registry : Registry)
    (caption : Term → String) (source : String) (draws : Draws) (tolerance : Option Tolerance)
    {exact : Bool} (hexact : op.apply a.1 b.1 = .ok exact) :
    ∃ built, (Term.binary (.compare op) (.constant a.1 a.2) (.constant b.1 b.2)).build registry
        caption [] = (.ok built, []) ∧
      ((ofTree registry source built.root []).evaluate draws [] tolerance).outcome =
        .ok (.boolean exact) := by
  refine ⟨_, Term.build_comparison_constants op ha hb registry caption hexact, ?_⟩
  rw [ofTree_eq (.constant _ _)]
  rfl

/-- A tolerance applies to numbers that are passed as arguments and not to numbers that are written
in the text. The comparison of two constants gives the exact outcome, and the comparison of two
parameters the outcome within the allowance that is honored. -/
theorem evaluate_comparison (op : Comparison) {a b : Value × String} (ha : a.1.isNumber = true)
    (hb : b.1.isNumber = true) (registry : Registry) (caption : Term → String)
    (x y source : String) (draws : Draws) {tolerance : Tolerance} {kind : Tolerance.Kind}
    (hkind : tolerance.honored? = some kind) :
    ∃ exact within, op.apply a.1 b.1 = .ok exact ∧ op.applyWithin kind a.1 b.1 = .ok within ∧
      (∃ built, (Term.binary (.compare op) (.constant a.1 a.2) (.constant b.1 b.2)).build registry
          caption [] = (.ok built, []) ∧
        ((ofTree registry source built.root []).evaluate draws [] (some tolerance)).outcome =
          .ok (.boolean exact)) ∧
      ∃ built params, (Term.parameterComparison op).build registry caption
          [⟨x, TypeMask.all⟩, ⟨y, TypeMask.all⟩] = (.ok built, params) ∧
        params.map Parameter.name = [x, y] ∧
        ((ofTree registry source built.root params).evaluate draws [a.1, b.1]
          (some tolerance)).outcome = .ok (.boolean within) := by
  obtain ⟨⟨exact, hexact⟩, within, hwithin⟩ := Comparison.exists_apply_of_isNumber ha hb kind
  exact ⟨exact, within, hexact, hwithin,
    evaluate_comparison_constants op ha hb registry caption source draws _ hexact,
    evaluate_parameterComparison op ha hb registry caption x y source draws hkind hwithin⟩

/-- One and two, to be compared up to a difference of five. -/
theorem evaluate_comparison_integers :
    (Value.integer 1).isNumber = true ∧ (Value.integer 2).isNumber = true ∧
    Tolerance.honored? { integerRange := some (5, 5) } = some (.integerRange 5 5) ∧
    ∃ exact within, Comparison.eq.apply (.integer 1) (.integer 2) = .ok exact ∧
      Comparison.eq.applyWithin (.integerRange 5 5) (.integer 1) (.integer 2) = .ok within ∧
      exact = false ∧ within = true := by
  let tolerance : Tolerance := { integerRange := some (5, 5) }
  have hkind : tolerance.honored? = some (.integerRange 5 5) := rfl
  obtain ⟨exact, within, hexact, hwithin, -⟩ := evaluate_comparison .eq (a := (.integer 1, "1"))
    (b := (.integer 2, "2")) rfl rfl Registry.empty (fun _ => "1=2") "x" "y" "x=y" (fun _ => 0)
    hkind
  refine ⟨rfl, rfl, rfl, exact, within, hexact, hwithin, ?_, ?_⟩
  · exact Except.ok.inj (hexact.symm.trans (by decide))
  · exact Except.ok.inj (hwithin.symm.trans (by decide))

/-- One and two are equal up to a difference of five as arguments, and are not as constants. -/
theorem evaluate_comparison_unlike :
    (∃ built, (Term.binary (.compare .eq) (.constant (.integer 1) "1")
        (.constant (.integer 2) "2")).build Registry.empty (fun _ => "1=2") [] = (.ok built, []) ∧
      ((ofTree Registry.empty "1=2" built.root []).evaluate (fun _ => 0) []
        (some { integerRange := some (5, 5) })).outcome = .ok (.boolean false)) ∧
    ∃ built params, (Term.parameterComparison .eq).build Registry.empty (fun _ => "x=y")
        [⟨"x", TypeMask.all⟩, ⟨"y", TypeMask.all⟩] = (.ok built, params) ∧
      ((ofTree Registry.empty "x=y" built.root params).evaluate (fun _ => 0)
        [.integer 1, .integer 2] (some { integerRange := some (5, 5) })).outcome =
          .ok (.boolean true) := by
  refine ⟨evaluate_comparison_constants .eq (a := (.integer 1, "1")) (b := (.integer 2, "2")) rfl
    rfl Registry.empty _ "1=2" _ _ (by decide), ?_⟩
  let tolerance : Tolerance := { integerRange := some (5, 5) }
  have hkind : tolerance.honored? = some (.integerRange 5 5) := rfl
  have hwithin : Comparison.eq.applyWithin (.integerRange 5 5) (.integer 1) (.integer 2) =
      .ok true := by decide
  obtain ⟨built, params, hbuild, -, houtcome⟩ := evaluate_parameterComparison .eq rfl rfl
    Registry.empty (fun _ => "x=y") "x" "y" "x=y" (fun _ => 0) hkind hwithin
  exact ⟨built, params, hbuild, houtcome⟩

end Expression

end Formula
