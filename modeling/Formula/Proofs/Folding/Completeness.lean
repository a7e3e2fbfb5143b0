import Formula.Proofs.Caching
import Formula.Proofs.Folding.Closed
import Formula.Proofs.Folding.Evaluation
import Formula.Proofs.Printing.RoundTrip

/-!
# Folding is complete

Folding goes bottom-up, computes every application at the type it prefers by itself, and leaves an
application alone where it fails. Evaluation runs what is left as a whole, typed in context and with
one table of literals. Without parameters and random functions the two agree on what fails: a tree
that is left has an application of constants that could not be folded. This application fails
wherever it stands, since it settles on its natural overload in every context. Nothing recovers
from a fault, so the evaluation fails too, whatever the tolerance is.

## Main definitions

* `Term.Residual`: the terms whose applications of constants have all been tried and kept.

## Main results

* `TreeBuilder.Derives.exists_residual`: what is built without parameters is a residual term.
* `Term.Residual.exists_error`: an application in a residual term fails in every context.
* `Expression.isConstant_iff`: an expression is constant if and only if evaluating it succeeds.
-/

namespace Formula

/-! ### What is called -/

/-- A tree that is not random calls only deterministic functions. -/
theorem Node.isDeterministic_of_head {head : Head} {operands : List Node} {typing : Typing}
    (h : (apply head operands typing).isRandom = false) (f : Function) (hf : head = .call f) :
    f.isDeterministic = true := by
  rw [isRandom_apply, hf, Bool.or_eq_false_iff] at h
  simpa [Head.isRandom] using h.1

/-- The functions of printed expressions are not random. -/
theorem Phrase.Matches.isRandom_eq_false {registry : Registry} {names : List String} {e : Phrase}
    {node : Node} (h : e.Matches registry names node) (he : e.IsPlain) : node.isRandom = false := by
  have hfunctions : ∀ f ∈ functions, (Head.call f).isRandom = false := by decide
  induction h with
  | literal | parameter | folded => rfl
  | negate _ ih =>
    cases he with
    | negate he => rw [Node.isRandom_apply, List.any_cons, ih he]; rfl
  | binary _ _ ihl ihr =>
    cases he with
    | binary _ hl hr => rw [Node.isRandom_apply, List.any_cons, List.any_cons, ihl hl, ihr hr]; rfl
  | @call f args nodes typing hlen _ ih =>
    cases he with
    | call hf _ hargs =>
      rw [Node.isRandom_apply, hfunctions f hf, Bool.false_or, List.any_eq_false]
      intro n hn
      obtain ⟨i, hi, rfl⟩ := List.getElem_of_mem hn
      rw [Bool.not_eq_true]
      exact ih i _ _ (List.getElem?_eq_getElem (hlen ▸ hi)) (List.getElem?_eq_getElem hi)
        (hargs _ (List.getElem_mem _))

/-! ### Residual terms -/

namespace Term

/-- There are no parameters in the term, and no application of constants in it could be folded. -/
inductive Residual (registry : Registry) : Term → Prop
  | constant (v : Value) (text : String) : Residual registry (.constant v text)
  | compound {term : Term} {head : Head} {operands : List Term}
      (hparts : term.parts? = some (head, operands))
      (hoperands : ∀ a ∈ operands, Residual registry a)
      (hkept : ∀ cs node, operands = ofConstants cs →
        Node.assemble head (constants cs) [] = (.ok node, []) → node.isFoldable = true →
        node.constantValue? registry = none) : Residual registry term

variable {registry : Registry}

theorem exists_residuals {nodes : List Node}
    (h : ∀ n ∈ nodes, ∃ term, term.assemble [] = (.ok n, []) ∧ Residual registry term) :
    ∃ terms, assembleAll terms [] = (.ok nodes, []) ∧ terms.length = nodes.length ∧
      ∀ a ∈ terms, Residual registry a := by
  induction nodes with
  | nil => exact ⟨[], rfl, rfl, by simp⟩
  | cons n nodes ih =>
    obtain ⟨a, ha, hresidual⟩ := h n (List.mem_cons_self ..)
    obtain ⟨terms, hall, hlen, hresiduals⟩ := ih fun m hm => h m (List.mem_cons_of_mem _ hm)
    refine ⟨a :: terms, ?_, by simpa using hlen, List.forall_mem_cons.mpr ⟨hresidual, hresiduals⟩⟩
    simp only [assembleAll, ha, hall]

/-- Folding an application of residual terms gives a residual term. -/
theorem exists_residual_fold {head : Head} {operands : List Node} {node : Node}
    (hcount : head.takes operands.length)
    (hnode : Node.assemble head operands [] = (.ok node, []))
    (hoperands : ∀ n ∈ operands, ∃ term, term.assemble [] = (.ok n, []) ∧ Residual registry term)
    (text : String) :
    ∃ term, term.assemble [] = (.ok (node.fold registry text), []) ∧ Residual registry term := by
  obtain ⟨terms, hall, hlen, hresiduals⟩ := exists_residuals hoperands
  rcases Node.fold_eq registry text node with hfold | ⟨v, -, -, hfold⟩
  · obtain ⟨term, hparts⟩ := exists_parts?_eq (hlen ▸ hcount)
    refine ⟨term, ?_, .compound hparts hresiduals fun cs node' hcs hnode' hfoldable => ?_⟩
    · rw [hfold, assemble_of_parts? hparts, hall]
      exact hnode
    · subst hcs
      rw [assembleAll_ofConstants, Prod.mk.injEq, Except.ok.injEq] at hall
      obtain rfl : node = node' := by
        rw [← hall.1, hnode'] at hnode
        simpa using hnode.symm
      obtain ⟨operands', signatures, rfl⟩ := Node.costs_of_assemble hnode
      rw [Node.fold, if_pos hfoldable] at hfold
      split at hfold
      · cases hfold
      · assumption
  · rw [hfold]
    exact ⟨.constant v text, by rw [assemble], .constant v text⟩

end Term

namespace TreeBuilder

/-- What is built without parameters is assembled from a residual term. -/
theorem Derives.exists_residual {t : TreeBuilder} (hparams : t.context.params = []) {key : Text}
    {node : Node} (h : t.Derives key node) :
    ∃ term, term.assemble [] = (.ok node, []) ∧ Term.Residual t.registry term := by
  have hassembled {head : Head} {operands : List Node} {node : Node}
      (hnode : t.Assembles head operands node) :
      Node.assemble head operands [] = (.ok node, []) := by
    obtain ⟨params, params', hnames, hnode⟩ := hnode
    rw [hparams, List.map_nil, List.map_eq_nil_iff] at hnames
    subst hnames
    have hkept := (Node.narrows_assemble head operands []).1
    rw [hnode, List.map_nil, List.map_eq_nil_iff] at hkept
    rw [hnode, show params' = [] from hkept]
  induction h with
  | constant hkey => exact ⟨.constant .., by rw [Term.assemble], .constant ..⟩
  | parameter hkey => simp [hparams, Context.parameterIndex?] at hkey
  | symbol _ _ _ ih => exact ih
  | @call key text name inner f operands node _ _ _ hlen _ hnode ih =>
    have hall : List.Forall₂ (fun _ (n : Node) => ∃ term, term.assemble [] = (.ok n, []) ∧
        Term.Residual t.registry term) (t.callArguments inner) operands :=
      List.forall₂_iff_zip.mpr ⟨hlen, fun {a b} hp => ih (a, b) hp⟩
    have hcount : (Head.call f).takes operands.length := trivial
    refine Term.exists_residual_fold hcount (hassembled hnode) (fun n hn => ?_) _
    obtain ⟨i, hi, rfl⟩ := List.getElem_of_mem hn
    exact hall.get (by omega) hi
  | binary _ _ _ hnode ihleft ihright =>
    refine Term.exists_residual_fold ?_ (hassembled hnode) (by simpa using ⟨ihleft, ihright⟩) _
    rfl
  | unary _ _ _ _ hnode ih =>
    refine Term.exists_residual_fold ?_ (hassembled hnode) (by simpa using ih) _
    rfl

end TreeBuilder

/-! ### A fault in every context -/

namespace Node

/-- Operands have no values if one of them has none. -/
theorem exists_error_meaningAll {env : Environment} {params : List Parameter}
    {targets : List ValueType} {nodes : List Node} {i : Nat} {t : ValueType} {n : Node}
    (ht : targets[i]? = some t) (hn : nodes[i]? = some n)
    (h : ∀ calls, ∃ fault, n.meaning env params t calls = .error fault) (calls : Nat) :
    ∃ fault, meaningAll env params targets nodes calls = .error fault := by
  induction nodes generalizing targets i calls with
  | nil => simp at hn
  | cons m nodes ih =>
    obtain _ | ⟨target, targets⟩ := targets
    · simp at ht
    rw [meaningAll]
    cases hm : m.meaning env params target calls with
    | error fault => exact ⟨fault, rfl⟩
    | ok p =>
      cases i with
      | zero =>
        obtain rfl := Option.some.inj ht
        obtain rfl := Option.some.inj hn
        obtain ⟨fault, hfault⟩ := h calls
        rw [hm] at hfault
        cases hfault
      | succ i =>
        obtain ⟨fault, hfault⟩ := ih (by simpa using ht) (by simpa using hn) p.2
        exact ⟨fault, by simp only [hfault, ok_bind, error_bind]⟩

end Node

namespace Term

variable {registry : Registry}

theorem eq_constant_of_residual {term : Term} (h : Residual registry term)
    (hparts : term.parts? = none) : ∃ c : Value × String, term = .constant c.1 c.2 := by
  cases h with
  | constant v text => exact ⟨(v, text), rfl⟩
  | compound hparts' => rw [hparts] at hparts'; cases hparts'

/-- Residual operands are all constants, or one of them is compound. -/
theorem ofConstants_or_compound {operands : List Term}
    (h : ∀ a ∈ operands, Residual registry a) :
    (∃ cs, operands = ofConstants cs) ∨ ∃ a ∈ operands, a.parts?.isSome := by
  induction operands with
  | nil => exact .inl ⟨[], rfl⟩
  | cons a rest ih =>
    cases hparts : a.parts? with
    | some parts => exact .inr ⟨a, List.mem_cons_self .., by simp [hparts]⟩
    | none =>
      obtain ⟨c, rfl⟩ := eq_constant_of_residual (h a (List.mem_cons_self ..)) hparts
      rcases ih fun b hb => h b (List.mem_cons_of_mem _ hb) with ⟨cs, rfl⟩ | ⟨b, hb, hsome⟩
      · exact .inl ⟨c :: cs, rfl⟩
      · exact .inr ⟨b, List.mem_cons_of_mem _ hb, hsome⟩

theorem exists_error_of_isOk_eq_false {ε α : Type} {outcome : Except ε α}
    (h : outcome.isOk = false) : ∃ fault, outcome = .error fault := by
  cases outcome with
  | error fault => exact ⟨fault, rfl⟩
  | ok a => cases h

theorem isFoldable_constants {head : Head} {cs : List (Value × String)} {typing : Typing}
    (h : ∀ f, head = .call f → f.isDeterministic = true) :
    (Node.apply head (constants cs) typing).isFoldable = true := by
  have hall : (constants cs).all Node.isConstant = true := by
    simp [constants, Node.isConstant]
  cases head with
  | call f => exact Bool.and_eq_true_iff.mpr ⟨h f rfl, hall⟩
  | _ => exact hall

/-- An application of constants that could be tried but was not folded fails. -/
theorem isOk_run_of_kept {head : Head} {cs : List (Value × String)} (hcount : head.takes cs.length)
    (hdeterministic : ∀ f, head = .call f → f.isDeterministic = true)
    {node : Node} (hnode : Node.assemble head (constants cs) [] = (.ok node, []))
    (hkept : node.constantValue? registry = none) (env : Environment) :
    (head.run env true 0 (cs.map Prod.fst)).isOk = false := by
  obtain ⟨target, literal, htarget, hliteral, hvalue⟩ :=
    exists_constantValue?_meaning hcount hnode registry
  have hok := isOk_meaning_constants pinned_nil hcount htarget hdeterministic
    ⟨registry, fun _ => 0, none, literal, []⟩ env hliteral 0
  rw [← hok, ← isOk_map _ Prod.fst, isOk_eq_isSome, ← hvalue, hkept]
  rfl

/-- An application in a residual term fails in every context. -/
theorem Residual.exists_error {term : Term} (h : Residual registry term)
    (hcompound : term.parts?.isSome) (hrandom : term.full.isRandom = false) {t : ValueType}
    (ht : ((term.full.table []).get? t).isSome) (env : Environment)
    (hliteral : ∀ v, (env.literal v).canonical = v.canonical) (calls : Nat) :
    ∃ fault, (Node.strengthen t (term.full.retable []) []).1.meaning env [] t calls =
      .error fault := by
  induction h generalizing t calls with
  | constant v text => cases hcompound
  | @compound term head operands hparts hoperands hkept ih =>
    have hcount := takes_of_parts? hparts
    rw [full_of_parts? hparts] at hrandom ht ⊢
    rcases ofConstants_or_compound hoperands with ⟨cs, rfl⟩ | ⟨a, ha, hsome⟩
    · -- All operands are constants, and the application was tried when it was built.
      have hlen : (ofConstants cs).length = cs.length := List.length_map ..
      rw [hlen] at hcount
      rw [map_full_ofConstants] at hrandom ht ⊢
      have htypable : term.full.Typable [] := by
        rw [full_of_parts? hparts, map_full_ofConstants]
        refine .apply (fun n hn => ?_) (Node.table_ne_empty_iff.mpr ⟨t, ht⟩)
        obtain ⟨c, -, rfl⟩ := List.mem_map.mp hn
        exact .constant c.1 c.2
      have hwidens : Widens [] [] := fun _ _ h => h
      obtain ⟨node, params', hnode, -⟩ := assemble_covers pinned_nil htypable hwidens
      rw [assemble_of_parts? hparts, assembleAll_ofConstants] at hnode
      obtain ⟨rfl, typing, -, -, -, rfl, -⟩ := assemble_constants hcount hnode
      have hhead := Node.isDeterministic_of_head hrandom
      have hfoldable : (Node.apply head (constants cs) typing).isFoldable = true :=
        isFoldable_constants hhead
      have hfails := isOk_run_of_kept hcount hhead hnode (hkept cs _ rfl hnode hfoldable) env
      rw [← isOk_meaning_constants pinned_nil hcount ht hhead env env hliteral calls] at hfails
      exact exists_error_of_isOk_eq_false hfails
    · -- The fault of the compound operand is the fault of the application.
      obtain ⟨s, place, cost, hs, -, hoffers⟩ := Node.exists_firstCheapest ht
      have hargs : s.args.length = (operands.map full).length := by
        rw [List.length_map]
        exact Head.length_args hcount (by simpa using hs.mem)
      have hstep (i : Nat) (t : ValueType) (n : Node) (hti : s.args[i]? = some t)
          (hni : (operands.map full)[i]? = some n) :
          (Node.strengthen t (n.retable []) []).2 = ([], none) := by
        obtain ⟨b, -, rfl⟩ := List.mem_map.mp (List.mem_of_getElem? hni)
        exact (Node.strengthen_retable pinned_nil b.formed_full (hoffers i t _ hti hni)).1
      rw [Node.undetermined, Node.strengthen_apply_eq hs hargs hstep]
      obtain ⟨i, hi⟩ := List.mem_iff_getElem?.mp ha
      have hni : (operands.map full)[i]? = some a.full := by rw [List.getElem?_map, hi]; rfl
      obtain ⟨t', hti⟩ : ∃ t', s.args[i]? = some t' := by
        rw [← Option.isSome_iff_exists, isSome_getElem?, hargs]
        exact (List.getElem?_eq_some_iff.mp hni).1
      have hfault := ih a ha hsome (Node.isRandom_of_mem hrandom (List.mem_map_of_mem ha))
        (hoffers i t' _ hti hni)
      have hzip : (List.zipWith (fun t n => (Node.strengthen t (n.retable []) []).1) s.args
          (operands.map full))[i]? = some (Node.strengthen t' (a.full.retable []) []).1 := by
        rw [List.getElem?_zipWith, hti, hni]
      obtain ⟨fault, hall⟩ := Node.exists_error_meaningAll hti hzip hfault calls
      refine ⟨fault, ?_⟩
      simp only [Node.meaning, Typing.selected?, hs.getElem?, Option.bind_eq_bind, Option.bind_some,
        Option.pure_def, hall]
      rfl

end Term

/-! ### Evaluation -/

/-- The tree of a compilation without parameters is that of a residual term. -/
theorem Compiler.exists_residual {c : Compiler} {source : Text} {cancelled : Bool} {root : Node}
    (h : (c.compile source cancelled).outcome = .ok (root, [])) :
    ∃ term node, term.assemble [] = (.ok node, []) ∧ Term.Residual c.registry term ∧
      root = node.retable [] ∧ node.Typable [] := by
  obtain ⟨ctx, hbuild⟩ := exists_buildTree_of_compile h
  obtain ⟨hnames, node, hnode, hroot, htypable⟩ := derives_of_buildTree hbuild
  have hparams : ctx.params = [] := List.map_eq_nil_iff.mp (hnames.symm.trans List.map_nil)
  obtain ⟨term, hassemble, hresidual⟩ := hnode.exists_residual hparams
  exact ⟨term, node, hassemble, hresidual, hroot, htypable⟩

namespace Expression

/-- Evaluating changes a compiled expression only in what it keeps. -/
theorem Reachable.bare_eq {c : Compiler} {source : String} {e : Expression}
    (h : Reachable c source e) : e.bare = (c.expression source).bare ∧ e.Faithful := by
  induction h with
  | compiled => exact ⟨rfl, faithful_of_lowered_eq rfl⟩
  | evaluated _ draws args tolerance ih =>
    obtain ⟨hbare, hfaithful⟩ := ih.2.evaluate draws args tolerance
    exact ⟨hbare.trans ih.1, hfaithful⟩

/-- What an expression without parameters is compiled from. -/
theorem Reachable.exists_residual {c : Compiler} {source : String} {e : Expression}
    (h : Reachable c source e) {body : Body} (hbody : e.body = some body)
    (hparams : body.params = []) :
    ∃ term node, term.assemble [] = (.ok node, []) ∧ Term.Residual c.registry term ∧
      body.root = node.retable [] ∧ node.Typable [] := by
  have hcompiled := (body_eq_of_bare h.bare_eq.1).symm.trans hbody
  simp only [Compiler.expression, ofOutcome] at hcompiled
  split at hcompiled
  · next root params houtcome =>
    obtain rfl := Option.some.inj hcompiled
    obtain rfl : params = [] := hparams
    exact Compiler.exists_residual houtcome
  · cases hcompiled

/-- The program of a residual term that is not a constant fails, whatever the tolerance is. -/
theorem exists_error_of_lower {term : Term} {node : Node} {registry : Registry}
    (hassemble : term.assemble [] = (.ok node, [])) (hresidual : Term.Residual registry term)
    (hcompound : term.parts?.isSome) (htypable : node.Typable [])
    (hrandom : (node.retable []).isRandom = false) {kind : Option Tolerance.Kind}
    {lowering : Lowering}
    (hlower : lower ⟨node.retable [], []⟩ [] kind = .ok lowering) (formatters : Registry)
    (draws : Draws) : ∃ fault, lowering.program.run formatters draws [] = .error fault := by
  have hformed : node.Formed := (Term.assemble_restricts hassemble).2.formed term.formed_full
  rcases lower_cases ⟨node.retable [], []⟩ hformed.retable List.not_mem_nil kind with
    ⟨-, fault, herror⟩ | ⟨target, -, htarget, heq⟩
  · rw [hlower] at herror
    cases herror
  · have hpin : pin [] [] = [] := rfl
    simp only [hpin, Node.retable_retable, Node.table_retable] at htarget heq
    obtain ⟨hfull, hsame⟩ := Term.lower_full pinned_nil (fun _ _ h => h) hassemble htypable htarget
    rw [hlower, hsame] at heq
    split at heq
    · cases heq
    · next result b hcode =>
      obtain rfl := Except.ok.inj heq
      obtain ⟨hb, hrun⟩ := Node.run_finish hcode formatters draws kind []
      have hterm : term.full.isRandom = false :=
        ((Term.assemble_restricts hassemble).2.trans (Restricts.retable [] node)).isRandom_eq ▸
          hrandom
      obtain ⟨fault, hfault⟩ := hresidual.exists_error hcompound hterm
        (CostTable.isSome_get?_of_preferred? hfull) ⟨formatters, draws, kind, b.literal, []⟩
        hb.canonical_literal 0
      exact ⟨fault, by rw [hrun, hfault]; rfl⟩

/-- An expression without parameters and random functions that is not a constant fails, whatever the
tolerance is. -/
theorem Reachable.exists_fault {c : Compiler} {source : String} {e : Expression}
    (h : Reachable c source e) {body : Body} (hbody : e.body = some body)
    (hparams : body.params = []) (hrandom : body.root.isRandom = false)
    (hconstant : body.constant? = none) (draws : Draws) (tolerance : Option Tolerance) :
    ∃ fault, (e.evaluate draws [] tolerance).outcome = .error (.machine fault) ∧
      fault.isDynamic = true := by
  obtain ⟨term, node, hassemble, hresidual, hroot, htypable⟩ := h.exists_residual hbody hparams
  obtain ⟨root, params⟩ := body
  obtain rfl : params = [] := hparams
  obtain rfl : root = node.retable [] := hroot
  have hcoerce : coerceAll e.registry [] [] = .ok [] := rfl
  have hcompound : term.parts?.isSome := by
    by_contra hsimple
    obtain ⟨c, rfl⟩ := Term.eq_constant_of_residual hresidual (by simpa using hsimple)
    rw [Term.assemble] at hassemble
    obtain rfl := Except.ok.inj (congrArg Prod.fst hassemble)
    cases hconstant
  obtain ⟨target, -, hfits⟩ := exists_fits h hbody rfl hcoerce
    (congrArg Prod.snd (Node.typable_retable_iff.mpr htypable).refresh_eq) draws tolerance
  -- The types are right, so it is enough that there is no value.
  cases houtcome : (e.evaluate draws [] tolerance).outcome with
  | error fault =>
    rw [houtcome] at hfits
    cases fault with
    | machine fault => exact ⟨fault, rfl, hfits⟩
    | _ => cases hfits
  | ok v =>
    exfalso
    simp only [evaluate, hbody, List.length_nil, ne_eq, not_true_eq_false, if_false, hconstant,
      hcoerce, List.map_nil] at houtcome
    split at houtcome
    · cases houtcome
    · next lowering isNew e' hprogram =>
      obtain ⟨-, kind, hlower⟩ := h.sound.program hbody hprogram
      obtain ⟨fault, hrun⟩ := exists_error_of_lower hassemble hresidual hcompound htypable hrandom
        hlower e'.registry draws
      simp only [runProgram, hrun] at houtcome
      cases houtcome

/-- Folding is complete. An expression without parameters and random functions is a constant if and
only if evaluating it succeeds, and then its value is the constant, whatever the tolerance is. If
it is not a constant, every evaluation fails with a fault of the machine. -/
theorem isConstant_iff {c : Compiler} {source : String} {e : Expression}
    (h : Reachable c source e) {body : Body} (hbody : e.body = some body)
    (hparams : body.params = []) (hrandom : body.root.isRandom = false) (draws : Draws) :
    (e.isConstant = true ↔ ∃ v, (e.evaluate draws [] none).outcome = .ok v) ∧
    (∀ v, body.constant? = some v → ∀ tolerance,
      (e.evaluate draws [] tolerance).outcome = .ok v) ∧
    (e.isConstant = false → ∀ tolerance, ∃ fault,
      (e.evaluate draws [] tolerance).outcome = .error (.machine fault) ∧
        fault.isDynamic = true) := by
  have hconstant : e.isConstant = body.constant?.isSome := by rw [isConstant, hbody]; rfl
  cases hvalue : body.constant? with
  | some v =>
    have houtcome (tolerance : Option Tolerance) :
        (e.evaluate draws [] tolerance).outcome = .ok v := by
      simp only [evaluate, hbody, hparams, hvalue, settled]
      rfl
    simp only [hconstant, hvalue, Option.isSome_some, true_iff, Bool.true_eq_false, false_imp_iff]
    exact ⟨⟨v, houtcome none⟩, fun _ hw => Option.some.inj hw ▸ houtcome, trivial⟩
  | none =>
    have hfault := h.exists_fault hbody hparams hrandom hvalue draws
    simp only [hconstant, hvalue, Option.isSome_none, Bool.false_eq_true, false_iff, not_exists]
    refine ⟨fun v hv => ?_, by simp, fun _ => hfault⟩
    obtain ⟨fault, herror, -⟩ := hfault none
    rw [hv] at herror
    cases herror

/-- The logarithm of zero. -/
theorem isConstant_iff_logarithm :
    ∃ body, ((Compiler.common .mathematical).expression "ln(0)").body = some body ∧
      body.params = [] ∧ body.root.isRandom = false ∧
      (Phrase.call (.real .ln) [.literal ['0']]).Matches Registry.standard [] body.root ∧
      (((Compiler.common .mathematical).expression "ln(0)").isConstant = true ↔
        ∃ v, (((Compiler.common .mathematical).expression "ln(0)").evaluate (fun _ => 0) []
          none).outcome = .ok v) := by
  let e : Phrase := .call (.real .ln) [.literal ['0']]
  have h : e.IsPlain := .call (by decide) rfl
    (List.forall_mem_singleton.mpr (.literal (by decide)))
  have htext : e.text = "ln(0)".toList := by
    simp only [e, Phrase.text, List.map_cons, List.map_nil]
    decide
  obtain ⟨ctx, g, hresolve, hready, hmain, hphrase, hnames⟩ := h.resolve .mathematical
  have hoperators : (g.phrase Context.mainName).operators ≤ maxSplits := by
    rw [hphrase]
    simp [e, Phrase.operators]
  obtain ⟨node, params, hbuild, hnode, hparams⟩ := hready.buildTree .mathematical hmain hoperators
  rw [hphrase] at hnode
  have hnone : ctx.params.map Parameter.name = [] := by
    rw [hnames]
    simp [e, Phrase.parameters]
  have hempty : params = [] := List.map_eq_nil_iff.mp (hparams.trans hnone)
  have hbody : ((Compiler.common .mathematical).expression "ln(0)").body = some ⟨node, params⟩ := by
    rw [Compiler.expression, ← htext,
      Compiler.outcome_compile (h.extractLiterals .mathematical) hresolve, hbuild]
    rfl
  have hrandom := hnode.isRandom_eq_false h
  exact ⟨⟨node, params⟩, hbody, hempty, hrandom, hnone ▸ hnode,
    (isConstant_iff .compiled hbody hempty hrandom fun _ => 0).1⟩

end Expression

end Formula
