import Formula.Proofs.Folding.Constant

/-!
# Building with and without folding

A term is built by assembling its tree bottom-up and folding every application as soon as it is
there. Compared with plain assembling, two things hold. The two run in step: they narrow the same
parameters, succeed or fail together, and the tree that is built is the assembled one with some
subtrees folded. And building is plain assembling of another term, in which the folded subterms are
constants, and which has the same value.

## Main definitions

* `Term.build`: assembles and folds a term.
* `Matched`: assembling and building have the same effect and related results.

## Main results

* `Term.matched_build`: building runs in step with assembling.
* `Term.exists_simplified`: what is built is assembled from a term of the same value.
-/

namespace Formula

/-! ### Building -/

/-- A tree that has been built, with the values folded on the way. -/
structure Built where
  root : Node
  folded : List Value

namespace Built

/-- Folds an application that has been assembled, after the values folded in its operands. -/
def ofAssembled (registry : Registry) (text : String) (folded : List Value) (node : Node) : Built :=
  match node.fold registry text with
  | .constant v text => ⟨.constant v text, folded ++ [v]⟩
  | node => ⟨node, folded⟩

/-- Applies a head to operands that have been built, and folds the application. -/
def compose (registry : Registry) (text : String) (head : Head) (operands : List Built)
    (params : List Parameter) : Except TypeFault Built × List Parameter :=
  match Node.assemble head (operands.map root) params with
  | (.ok node, params) => (.ok (ofAssembled registry text (operands.flatMap folded) node), params)
  | (.error fault, params) => (.error fault, params)

theorem root_ofAssembled (registry : Registry) (text : String) (folded : List Value)
    (node : Node) : (ofAssembled registry text folded node).root = node.fold registry text := by
  rw [ofAssembled]
  split
  · next h => rw [h]
  · rfl

theorem ofAssembled_eq {registry : Registry} {text : String} {node : Node}
    (h : node.fold registry text = node) (hnode : node.isConstant = false) (folded : List Value) :
    ofAssembled registry text folded node = ⟨node, folded⟩ := by
  rw [ofAssembled, h]
  cases node with
  | constant v text => cases hnode
  | parameter id => rfl
  | apply head operands typing => rfl

end Built

namespace Term

variable (registry : Registry) (caption : Term → String)

mutual

/-- Builds the tree of a term bottom-up and from left to right, and folds every application; a
folded constant has the caption of its term. The parameters are returned as they are left, also by
a failure. -/
def build (term : Term) (params : List Parameter) : Except TypeFault Built × List Parameter :=
  match term with
  | constant value text => (.ok ⟨.constant value text, []⟩, params)
  | parameter id => (.ok ⟨.parameter id, []⟩, params)
  | unary op operand =>
    match operand.build params with
    | (.ok a, params) =>
      Built.compose registry (caption (unary op operand)) (.unary op) [a] params
    | (.error fault, params) => (.error fault, params)
  | binary op left right =>
    match left.build params with
    | (.error fault, params) => (.error fault, params)
    | (.ok a, params) =>
      match right.build params with
      | (.error fault, params) => (.error fault, params)
      | (.ok b, params) =>
        Built.compose registry (caption (binary op left right)) (.binary op) [a, b] params
  | call f args =>
    match buildAll args params with
    | (.ok built, params) => Built.compose registry (caption (call f args)) (.call f) built params
    | (.error fault, params) => (.error fault, params)

/-- Builds the trees of several terms in turn. -/
def buildAll (terms : List Term) (params : List Parameter) :
    Except TypeFault (List Built) × List Parameter :=
  match terms with
  | [] => (.ok [], params)
  | a :: rest =>
    match a.build params with
    | (.error fault, params) => (.error fault, params)
    | (.ok a, params) =>
      match buildAll rest params with
      | (.error fault, params) => (.error fault, params)
      | (.ok rest, params) => (.ok (a :: rest), params)

end

theorem build_of_parts? {term : Term} {head : Head} {operands : List Term}
    (h : term.parts? = some (head, operands)) (params : List Parameter) :
    term.build registry caption params =
      match buildAll registry caption operands params with
      | (.ok built, params) => Built.compose registry (caption term) head built params
      | (.error fault, params) => (.error fault, params) := by
  cases term with
  | constant v text => simp [parts?] at h
  | parameter id => simp [parts?] at h
  | unary op operand =>
    obtain ⟨rfl, rfl⟩ := Prod.mk.inj (Option.some.inj h)
    simp only [build, buildAll]
    rcases operand.build registry caption params with ⟨_ | _, _⟩ <;> rfl
  | binary op left right =>
    obtain ⟨rfl, rfl⟩ := Prod.mk.inj (Option.some.inj h)
    simp only [build, buildAll]
    rcases left.build registry caption params with ⟨_ | _, params'⟩
    · rfl
    · dsimp only
      rcases right.build registry caption params' with ⟨_ | _, _⟩ <;> rfl
  | call f args =>
    obtain ⟨rfl, rfl⟩ := Prod.mk.inj (Option.some.inj h)
    rw [build]

end Term

/-! ### In step with assembling -/

/-- Two outcomes leave the same parameters, and either both fail or both succeed with related
results. -/
def Matched {α β : Type} (R : α → β → Prop) (r : Except TypeFault α × List Parameter)
    (q : Except TypeFault β × List Parameter) : Prop :=
  r.2 = q.2 ∧ ((∃ a b, r.1 = .ok a ∧ q.1 = .ok b ∧ R a b) ∨
    ∃ fault fault', r.1 = .error fault ∧ q.1 = .error fault')

/-- Trees are folded one by one. -/
def FoldsAll (us ns : List Node) : Prop :=
  ∃ ks : List Nat, us.length = ks.length ∧ ns.length = ks.length ∧
    ∀ (i : Nat) k u n, ks[i]? = some k → us[i]? = some u → ns[i]? = some n → Folds k u n

theorem FoldsAll.cons {us ns : List Node} {u n : Node} {k : Nat} (h : Folds k u n)
    (hrest : FoldsAll us ns) : FoldsAll (u :: us) (n :: ns) := by
  obtain ⟨ks, hus, hns, hall⟩ := hrest
  refine ⟨k :: ks, by simpa using hus, by simpa using hns, ?_⟩
  rintro (_ | i) k' u' n' hk hu hn
  · obtain rfl := Option.some.inj hk
    obtain rfl := Option.some.inj hu
    obtain rfl := Option.some.inj hn
    exact h
  · exact hall i k' u' n' (by simpa using hk) (by simpa using hu) (by simpa using hn)

/-- Applications of trees and of their folded forms are assembled in step. -/
theorem FoldsAll.matched_assemble {us ns : List Node} (h : FoldsAll us ns) {head : Head}
    (hcount : head.takes us.length) (params : List Parameter) :
    Matched (fun u n => ∃ k, Folds k u n) (Node.assemble head us params)
      (Node.assemble head ns params) := by
  obtain ⟨ks, hus, hns, hall⟩ := h
  have hlen : us.length = ns.length := hus.trans hns.symm
  have hstart : Folds ks.sum (Node.undetermined head us) (Node.undetermined head ns) := by
    refine .apply hus hns (fun s hs => ?_) (by rw [hlen]) (fun t => ?_) hall
    · exact (Head.length_args (hlen ▸ hcount) hs).trans hns
    · rw [CostTable.get?_empty]
      rfl
  have hstep := hstart.weaken TypeMask.all params
  rw [Node.assemble, Node.assemble]
  cases hu : (Node.undetermined head us).weaken TypeMask.all params with
  | mk u result =>
  obtain ⟨params', fault⟩ := result
  cases hn : (Node.undetermined head ns).weaken TypeMask.all params with
  | mk n result =>
  obtain ⟨params'', fault'⟩ := result
  rw [hu, hn] at hstep
  obtain ⟨rfl, ⟨rfl, rfl, hfolds⟩ | ⟨hfault, hfault'⟩⟩ := hstep
  · exact ⟨rfl, .inl ⟨u, n, rfl, rfl, _, hfolds⟩⟩
  · obtain ⟨fault, rfl⟩ := Option.isSome_iff_exists.mp hfault
    obtain ⟨fault', rfl⟩ := Option.isSome_iff_exists.mp hfault'
    exact ⟨rfl, .inr ⟨fault, fault', rfl, rfl⟩⟩

namespace Term

variable {registry : Registry} {caption : Term → String}

theorem matched_buildAll {terms : List Term}
    (h : ∀ a ∈ terms, ∀ params, Matched (fun u b => ∃ k, Folds k u b.root) (a.assemble params)
      (a.build registry caption params)) (params : List Parameter) :
    Matched (fun us bs => FoldsAll us (bs.map Built.root)) (assembleAll terms params)
      (buildAll registry caption terms params) := by
  induction terms generalizing params with
  | nil => exact ⟨rfl, .inl ⟨[], [], rfl, rfl, [], rfl, rfl, by simp⟩⟩
  | cons a rest ih =>
    have hfirst := h a (List.mem_cons_self ..) params
    rw [assembleAll, buildAll]
    cases ha : a.assemble params with
    | mk outcome params' =>
    cases hb : a.build registry caption params with
    | mk outcome' params'' =>
    rw [ha, hb] at hfirst
    obtain ⟨rfl, ⟨u, b, rfl, rfl, k, hfolds⟩ | ⟨fault, fault', rfl, rfl⟩⟩ := hfirst
    · have hrest := ih (fun c hc => h c (List.mem_cons_of_mem _ hc)) params'
      dsimp only
      cases has : assembleAll rest params' with
      | mk outcome params₁ =>
      cases hbs : buildAll registry caption rest params' with
      | mk outcome' params₂ =>
      rw [has, hbs] at hrest
      obtain ⟨rfl, ⟨us, bs, rfl, rfl, hall⟩ | ⟨fault, fault', rfl, rfl⟩⟩ := hrest
      · exact ⟨rfl, .inl ⟨_, _, rfl, rfl, hall.cons hfolds⟩⟩
      · exact ⟨rfl, .inr ⟨fault, fault', rfl, rfl⟩⟩
    · exact ⟨rfl, .inr ⟨fault, fault', rfl, rfl⟩⟩

/-- Building runs in step with assembling. -/
theorem matched_build (term : Term) (params : List Parameter) :
    Matched (fun u b => ∃ k, Folds k u b.root) (term.assemble params)
      (term.build registry caption params) := by
  induction term using Term.induct generalizing params with
  | constant v text =>
    rw [assemble, build]
    exact ⟨rfl, .inl ⟨_, _, rfl, rfl, 0, .constant v text⟩⟩
  | parameter id =>
    rw [assemble, build]
    exact ⟨rfl, .inl ⟨_, _, rfl, rfl, 0, .parameter id⟩⟩
  | compound term head operands hparts ih =>
    have hall := matched_buildAll (fun a ha params => ih a ha params) params
    rw [assemble_of_parts? hparts, build_of_parts? registry caption hparts]
    cases has : assembleAll operands params with
    | mk outcome params₁ =>
    cases hbs : buildAll registry caption operands params with
    | mk outcome' params₂ =>
    rw [has, hbs] at hall
    obtain ⟨rfl, ⟨us, bs, rfl, rfl, hfolds⟩ | ⟨fault, fault', rfl, rfl⟩⟩ := hall
    · have hlen := (assembleAll_restricts (fun a _ _ _ _ h => assemble_restricts h) has).2.1
      have hcount : head.takes us.length := by
        rw [← hlen, List.length_map]
        exact takes_of_parts? hparts
      have hcount' : head.takes (bs.map Built.root).length := by
        obtain ⟨ks, hus, hns, -⟩ := hfolds
        rwa [hns, ← hus]
      have hstep := hfolds.matched_assemble hcount params₁
      dsimp only [Built.compose]
      cases hu : Node.assemble head us params₁ with
      | mk outcome params' =>
      cases hn : Node.assemble head (bs.map Built.root) params₁ with
      | mk outcome' params'' =>
      rw [hu, hn] at hstep
      obtain ⟨rfl, ⟨u, n, rfl, rfl, k, hk⟩ | ⟨fault, fault', rfl, rfl⟩⟩ := hstep
      · obtain ⟨k', hfold⟩ := hk.fold hcount' hn registry (caption term)
        refine ⟨rfl, .inl ⟨u, _, rfl, rfl, k', ?_⟩⟩
        rwa [Built.root_ofAssembled]
      · exact ⟨rfl, .inr ⟨fault, fault', rfl, rfl⟩⟩
    · exact ⟨rfl, .inr ⟨fault, fault', rfl, rfl⟩⟩

/-! ### The simplified term -/

/-- Only constants are assembled to constants. -/
theorem eq_constant_of_assemble {term : Term} {v : Value} {text : String}
    {params params' : List Parameter}
    (h : term.assemble params = (.ok (.constant v text), params')) :
    term = .constant v text ∧ params' = params := by
  have hrestricts := (assemble_restricts h).2
  cases hparts : term.parts? with
  | some parts =>
    rw [full_of_parts? hparts] at hrestricts
    cases hrestricts
  | none =>
    cases term with
    | constant w text' =>
      rw [assemble, Prod.mk.injEq, Except.ok.injEq, Node.constant.injEq] at h
      obtain ⟨⟨rfl, rfl⟩, rfl⟩ := h
      exact ⟨rfl, rfl⟩
    | parameter id => cases hrestricts
    | unary op operand => cases hparts
    | binary op left right => cases hparts
    | call f args => cases hparts

theorem eq_ofConstants_of_assembleAll {terms : List Term} {cs : List (Value × String)}
    {params params' : List Parameter}
    (h : assembleAll terms params = (.ok (constants cs), params')) :
    terms = ofConstants cs ∧ params' = params := by
  induction terms generalizing cs params with
  | nil =>
    obtain _ | ⟨c, cs⟩ := cs
    · exact ⟨rfl, (congrArg Prod.snd h).symm⟩
    · simp [assembleAll, constants] at h
  | cons a rest ih =>
    rw [assembleAll] at h
    split at h
    · simp at h
    · next n params₁ ha =>
      split at h
      · simp at h
      · next ns params₂ hrest =>
        obtain _ | ⟨c, cs⟩ := cs
        · simp [constants] at h
        simp only [constants, List.map_cons, Prod.mk.injEq, Except.ok.injEq,
          List.cons.injEq] at h
        obtain ⟨⟨rfl, rfl⟩, rfl⟩ := h
        obtain ⟨rfl, rfl⟩ := eq_constant_of_assemble ha
        obtain ⟨rfl, rfl⟩ := ih hrest
        exact ⟨rfl, rfl⟩

theorem eq_ok_of_toOption {ε α : Type} {x : Except ε α} {a : α} (h : x.toOption = some a) :
    x = .ok a := by
  cases x with
  | error fault => cases h
  | ok b => rw [Option.some.inj h]

/-- A head takes other operands, as many as before. -/
theorem exists_parts? {term : Term} {head : Head} {operands operands' : List Term}
    (h : term.parts? = some (head, operands)) (hlen : operands'.length = operands.length)
    (hterm : term.isReproducible = true) (hoperands : ∀ a ∈ operands', a.isReproducible = true) :
    ∃ term', parts? term' = some (head, operands') ∧ term'.isReproducible = true := by
  cases term with
  | constant v text => simp [parts?] at h
  | parameter id => simp [parts?] at h
  | unary op operand =>
    obtain ⟨rfl, rfl⟩ := Prod.mk.inj (Option.some.inj h)
    obtain ⟨a, rfl⟩ := List.length_eq_one_iff.mp hlen
    exact ⟨.unary op a, rfl, by simpa [isReproducible] using hoperands⟩
  | binary op left right =>
    obtain ⟨rfl, rfl⟩ := Prod.mk.inj (Option.some.inj h)
    obtain ⟨a, b, rfl⟩ := List.length_eq_two.mp hlen
    exact ⟨.binary op a b, rfl, by simpa [isReproducible] using hoperands⟩
  | call f args =>
    obtain ⟨rfl, rfl⟩ := Prod.mk.inj (Option.some.inj h)
    refine ⟨.call f operands', rfl, ?_⟩
    rw [isReproducible, Bool.and_eq_true, allReproducible_iff] at hterm ⊢
    exact ⟨hterm.1, hoperands⟩

/-- The second term has the value of the first one, for the registry and without a tolerance. -/
def SameValue (registry : Registry) (term term' : Term) : Prop :=
  ∀ env : Environment, env.registry = registry → env.tolerance = none →
    term'.eval env = term.eval env

theorem exists_simplifiedAll {terms : List Term}
    (h : ∀ a ∈ terms, ∀ params params' b, a.build registry caption params = (.ok b, params') →
      (∀ v ∈ b.folded, v ≠ .numeric (-0)) → ∃ a', isReproducible a' = true ∧
        a'.assemble params = (.ok b.root, params') ∧ SameValue registry a a')
    {params params' : List Parameter} {bs : List Built}
    (hall : buildAll registry caption terms params = (.ok bs, params'))
    (hfolded : ∀ v ∈ bs.flatMap Built.folded, v ≠ .numeric (-0)) :
    ∃ terms', (∀ a ∈ terms', isReproducible a = true) ∧ terms'.length = terms.length ∧
      assembleAll terms' params = (.ok (bs.map Built.root), params') ∧
      ∀ env : Environment, env.registry = registry → env.tolerance = none →
        evalAll env terms' = evalAll env terms := by
  induction terms generalizing params bs with
  | nil =>
    rw [buildAll, Prod.mk.injEq, Except.ok.injEq] at hall
    obtain ⟨rfl, rfl⟩ := hall
    exact ⟨[], by simp, rfl, rfl, fun _ _ _ => rfl⟩
  | cons a rest ih =>
    rw [buildAll] at hall
    split at hall
    · simp at hall
    · next b params₁ ha =>
      split at hall
      · simp at hall
      · next bs' params₂ hrest =>
        rw [Prod.mk.injEq, Except.ok.injEq] at hall
        obtain ⟨rfl, rfl⟩ := hall
        rw [List.flatMap_cons] at hfolded
        obtain ⟨a', ha', hassemble, hvalue⟩ := h a (List.mem_cons_self ..) _ _ _ ha
          fun v hv => hfolded v (List.mem_append_left _ hv)
        obtain ⟨rest', hrest', hlen, hassemble', hvalues⟩ :=
          ih (fun c hc => h c (List.mem_cons_of_mem _ hc)) hrest
            fun v hv => hfolded v (List.mem_append_right _ hv)
        refine ⟨a' :: rest', List.forall_mem_cons.mpr ⟨ha', hrest'⟩, by simpa using hlen, ?_, ?_⟩
        · simp only [assembleAll, hassemble, hassemble', List.map_cons]
        · intro env hregistry htolerance
          rw [evalAll, evalAll, hvalue env hregistry htolerance,
            hvalues env hregistry htolerance]

/-- What is built is assembled from a term of the same value, in which the folded subterms are
constants. -/
theorem exists_simplified {term : Term} (hterm : term.isReproducible = true)
    {params params' : List Parameter} {b : Built}
    (h : term.build registry caption params = (.ok b, params'))
    (hfolded : ∀ v ∈ b.folded, v ≠ .numeric (-0)) :
    ∃ term', isReproducible term' = true ∧ term'.assemble params = (.ok b.root, params') ∧
      SameValue registry term term' := by
  induction term using Term.induct generalizing params params' b with
  | constant v text =>
    rw [build, Prod.mk.injEq, Except.ok.injEq] at h
    obtain ⟨rfl, rfl⟩ := h
    exact ⟨.constant v text, hterm, by rw [assemble], fun _ _ _ => rfl⟩
  | parameter id =>
    rw [build, Prod.mk.injEq, Except.ok.injEq] at h
    obtain ⟨rfl, rfl⟩ := h
    exact ⟨.parameter id, hterm, by rw [assemble], fun _ _ _ => rfl⟩
  | compound term head operands hparts ih =>
    have hoperands := (isReproducible_of_parts? hparts hterm).2
    rw [build_of_parts? registry caption hparts] at h
    split at h
    · next bs params₁ hall =>
      rw [Built.compose] at h
      split at h
      · next node params₂ hnode =>
        rw [Prod.mk.injEq, Except.ok.injEq] at h
        obtain ⟨rfl, rfl⟩ := h
        have hsub : ∀ v ∈ bs.flatMap Built.folded, v ≠ .numeric (-0) := by
          intro v hv
          refine hfolded v ?_
          rw [Built.ofAssembled]
          split
          · exact List.mem_append_left _ hv
          · exact hv
        obtain ⟨terms', hterms', hlen, hassemble, hvalues⟩ := exists_simplifiedAll
          (fun a ha _ _ _ hbuild hfolded => ih a ha (hoperands a ha) hbuild hfolded) hall hsub
        obtain ⟨term', hparts', hterm'⟩ := exists_parts? hparts hlen hterm hterms'
        have hvalue : SameValue registry term term' := by
          intro env hregistry htolerance
          rw [eval_of_parts? hparts, eval_of_parts? hparts', hvalues env hregistry htolerance]
        rw [Built.root_ofAssembled]
        have hkept : term'.assemble params = (.ok node, params₂) := by
          rw [assemble_of_parts? hparts', hassemble]
          exact hnode
        rcases Node.fold_eq registry (caption term) node with hfold | ⟨v, hfoldable, hv, hfold⟩
        · exact ⟨term', hterm', by rw [hfold, hkept], hvalue⟩
        · -- The operands are constants, so nothing has been narrowed.
          obtain ⟨cs, hcs⟩ := exists_constants_of_isFoldable hnode hfoldable
          rw [hcs] at hnode hassemble
          obtain ⟨rfl, rfl⟩ := eq_ofConstants_of_assembleAll hassemble
          have hcount : head.takes cs.length := by simpa [ofConstants] using takes_of_parts? hparts'
          obtain ⟨rfl, -⟩ := assemble_constants hcount hnode
          have hzero : v ≠ .numeric (-0) := by
            refine hfolded v ?_
            rw [Built.ofAssembled, hfold]
            exact List.mem_append_right _ (List.mem_singleton_self v)
          refine ⟨.constant v (caption term), by simpa [isReproducible] using hzero,
            by rw [hfold, assemble], fun env hregistry htolerance => ?_⟩
          subst hregistry
          rw [constantValue?_eq hterm' hparts' hnode htolerance] at hv
          rw [← hvalue env rfl htolerance, eval, eq_ok_of_toOption hv]
      · simp at h
    · simp at h

end Term

end Formula
