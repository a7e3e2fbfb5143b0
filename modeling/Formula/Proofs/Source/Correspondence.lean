import Formula.Proofs.Source.FlatTexts
import Formula.Proofs.Source.Respelling

/-!
# Texts whose words correspond to each other

Where the words of one text correspond to those of another one, and corresponding words stand for the
same constants, their parameters correspond to each other in the same order. If the texts are the same
but for such words, they are built to the same tree, and the expressions have the same values.

## Main definitions

* `Expression.Matches`: an expression with the parameters of another one, renamed, and its values.
* `Context.Corresponds`: tables of texts whose words correspond to each other.

## Main results

* `Context.Corresponds.sameMeaning`: corresponding words mean the same.
* `Compiler.matches_of_corresponds`: the expressions of such texts have the same values.
-/

namespace Formula

open Text

/-- An expression takes the arguments of another one, with its parameters renamed, and has the same
values on them. -/
structure Expression.Matches (rename : Text → Text) (e e' : Expression) : Prop where
  recognized : e'.isRecognized = true
  names : e'.parameters.map (fun p => p.name.toList) =
    (e.parameters.map fun p => p.name.toList).map rename
  masks : e'.parameters.map Parameter.supported = e.parameters.map Parameter.supported
  returns : e'.returns = e.returns
  outcome : ∀ draws args tolerance, (e'.evaluate draws args tolerance).outcome.toOption =
    (e.evaluate draws args tolerance).outcome.toOption

namespace Context

namespace KnowsWords

variable {source : Text} {ctx : Context} (h : KnowsWords source ctx)
include h

theorem parameterIndex?_eq_none {key : Text} (hkey : key ∉ words source) :
    parameterIndex? ctx.params key = none := by
  refine List.findIdx?_eq_none_iff.mpr fun p hp => beq_false_of_ne ?_
  rintro rfl
  exact hkey (h.mem_names_iff.mp (List.mem_map_of_mem hp)).1

theorem exists_parameterIndex? {w : Text} (hw : w ∈ words source) (hnone : wordConstant? w = none) :
    ∃ id, parameterIndex? ctx.params w = some id := by
  obtain ⟨p, hp, rfl⟩ := List.mem_map.mp (h.mem_names_iff.mpr ⟨hw, hnone⟩)
  refine Option.isSome_iff_exists.mp ?_
  rw [parameterIndex?, List.findIdx?_isSome, List.any_eq_true]
  exact ⟨p, hp, beq_self_eq_true _⟩

/-- What is neither a word nor the name of a constant, and no generated name, is not known. -/
theorem isKnown_eq_false
    (hgenerated : ∀ key, (ctx.symbol? key).isSome → key = mainName ∨ IsFreshName source key)
    {key : Text} (hne : key ≠ mainName) (hfresh : ¬IsFreshName source key) (hkey : key ∉ words source)
    (hnamed : (start []).constants.lookup key = none)
    (hliteral : Literal.ofGrammar? key = none ∨ ∃ c ∈ key, isIdentifierChar c = false) :
    ctx.isKnown key = false := by
  have hsymbol : ctx.symbol? key = none := Option.not_isSome_iff_eq_none.mp fun hsome =>
    (hgenerated key hsome).elim hne hfresh
  rw [isKnown, h.constant?_eq_none hfresh hnamed hliteral, hsymbol, h.parameterIndex?_eq_none hkey]
  rfl

end KnowsWords

/-- Tables of two texts whose words correspond to each other, and with no other names than generated
ones. -/
structure Corresponds (rename : Text → Text) (source target : Text) (ctx ctx' : Context) : Prop where
  left : KnowsWords source ctx
  right : KnowsWords target ctx'
  generated : ∀ key, (ctx.symbol? key).isSome → key = mainName ∨ IsFreshName source key
  generated' : ∀ key, (ctx'.symbol? key).isSome → key = mainName ∨ IsFreshName target key
  words : words target = (words source).map rename
  injective : ∀ a ∈ Text.words source, ∀ b ∈ Text.words source, rename a = rename b → a = b
  constant : ∀ w ∈ Text.words source, wordConstant? (rename w) = wordConstant? w

/-- A text with other characters than those of names is neither a constant nor a generated name. -/
theorem unnamed_of_mem {key : Text} {c : Char} (hmem : c ∈ key) (hc : isIdentifierChar c = false) :
    (∀ n, key ≠ generatedName n) ∧ (start []).constants.lookup key = none := by
  refine ⟨?_, ?_⟩
  · rintro n rfl
    have := isIdentifierChar_of_isWordChar (Sorted.isWordChar_of_mem_generatedName hmem)
    cases hc.symm.trans this
  · have hall : ((start []).constants.all fun entry => entry.1.all isIdentifierChar) = true := by decide
    refine List.lookup_eq_none_iff.mpr fun entry hentry => ?_
    rw [bne_iff_ne, ne_eq]
    rintro rfl
    have := List.all_eq_true.mp (List.all_eq_true.mp hall entry hentry) c hmem
    cases hc.symm.trans this

/-- The name of a mark is neither a constant nor a generated name. -/
theorem unnamed_of_mem_markerNames {w : Text} (hw : w ∈ Source.markerNames) :
    (∀ n, w ≠ generatedName n) ∧ (start []).constants.lookup w = none ∧
      Literal.ofGrammar? w = none := by
  have hall : (Source.markerNames.all fun w => ((start []).constants.lookup w).isNone &&
      (Literal.ofGrammar? w).isNone) = true := by decide
  have := List.all_eq_true.mp hall w hw
  rw [Bool.and_eq_true, Option.isNone_iff_eq_none, Option.isNone_iff_eq_none] at this
  refine ⟨?_, this⟩
  rintro n rfl
  cases (Source.chars_of_mem_markerNames hw).1

namespace Corresponds

variable {style : Precedence} {rename : Text → Text} {source target : Text} {ctx ctx' : Context}
  {r : Text → Text → Prop} (h : Corresponds rename source target ctx ctx')
include h

theorem names : ctx'.params.map (fun p => p.name.toList) =
    (ctx.params.map fun p => p.name.toList).map rename :=
  h.left.names h.right h.words h.injective h.constant

theorem unnamed_params : unnamed ctx.params = unnamed ctx'.params := by
  rw [h.left.unnamed_params, h.right.unnamed_params, h.names, List.map_map (f := rename)]
  rfl

theorem parameterIndex?_eq {w : Text} (hw : w ∈ Text.words source) :
    parameterIndex? ctx'.params (rename w) = parameterIndex? ctx.params w := by
  have hindex (params : List Parameter) (key : Text) : parameterIndex? params key =
      (params.map fun p => p.name.toList).findIdx? (· == key) := by
    rw [List.findIdx?_map]
    rfl
  have hnames : ∀ name ∈ ctx.params.map fun p => p.name.toList, name ∈ Text.words source :=
    fun name hname => (h.left.mem_names_iff.mp hname).1
  rw [hindex, hindex, h.names]
  generalize ctx.params.map (fun p => p.name.toList) = names at hnames
  induction names with
  | nil => rfl
  | cons name names ih =>
    obtain ⟨hname, hnames⟩ := List.forall_mem_cons.mp hnames
    have hiff : (rename name == rename w) = (name == w) :=
      Bool.eq_iff_iff.mpr (by
        rw [beq_iff_eq, beq_iff_eq]
        exact ⟨h.injective name hname w hw, congrArg rename⟩)
    rw [List.map_cons, List.findIdx?_cons, List.findIdx?_cons, hiff, ih hnames]

/-- Corresponding words are the same operand. -/
theorem exists_analyze (style : Precedence) {w : Text} (hw : w ∈ Text.words source) :
    ∃ node, (TreeBuilder.common style ctx).analyze w = .operand node ∧
      (TreeBuilder.common style ctx').analyze (rename w) = .operand node := by
  have hw' : rename w ∈ Text.words target := h.words ▸ List.mem_map_of_mem hw
  have hleft := h.left.constant w hw
  have hright := (h.right.constant _ hw').trans (h.constant w hw)
  simp only [TreeBuilder.analyze]
  rw [show (TreeBuilder.common style ctx).context = ctx from rfl,
    show (TreeBuilder.common style ctx').context = ctx' from rfl, hleft, hright]
  cases hconstant : wordConstant? w with
  | some c => exact ⟨_, rfl, rfl⟩
  | none =>
    obtain ⟨id, hid⟩ := h.left.exists_parameterIndex? hw hconstant
    rw [h.parameterIndex?_eq hw, hid]
    exact ⟨_, rfl, rfl⟩

/-- Corresponding words mean the same, and so do names that stand for them. -/
theorem sameMeaning (hmarks : KeepsMarks r)
    (hmarkers : ∀ w ∈ Source.markerNames, w ∉ Text.words source ∧ w ∉ Text.words target)
    (hr : ∀ x y, r x y → x ∈ Source.markerNames ∧ y = x ∨
      x ∈ Text.words source ∧ (TreeBuilder.common style ctx').StandsFor y (rename x))
    (hmain : ∃ text text', ctx.symbol? mainName = some ⟨text, false⟩ ∧
      ctx'.symbol? mainName = some ⟨text', false⟩ ∧ text ≠ [] ∧ '(' ∉ text ∧ Respells r text text') :
    TreeBuilder.SameMeaning r style ctx ctx' where
  marks := hmarks
  main := hmain
  nameless := by
    have hnone {source : Text} {ctx : Context} (h : KnowsWords source ctx) :
        ctx.constant? mainName = none ∧ parameterIndex? ctx.params mainName = none := by
      refine ⟨h.constant?_eq_none ?_ (by decide) (.inl (by decide)), h.parameterIndex?_eq_none ?_⟩
      · rintro ⟨⟨n, hn⟩, -⟩
        simp [mainName, generatedName] at hn
      · exact fun hmem => ne_nil_of_mem_words hmem rfl
    simp only [List.forall_mem_cons, List.not_mem_nil, false_imp_iff, implies_true, and_true]
    exact ⟨hnone h.left, hnone h.right⟩
  word x y hxy := by
    rcases hr x y hxy with ⟨hx, rfl⟩ | ⟨hx, hstands⟩
    · obtain ⟨hgenerated, hnamed, hliteral⟩ := unnamed_of_mem_markerNames hx
      have hne : y ≠ mainName := by
        rintro rfl
        cases (Source.chars_of_mem_markerNames hx).1
      refine .inl ⟨h.left.isKnown_eq_false h.generated hne ?_ (hmarkers y hx).1 hnamed (.inl hliteral),
        h.right.isKnown_eq_false h.generated' hne ?_ (hmarkers y hx).2 hnamed (.inl hliteral)⟩ <;>
      exact fun hfresh => hfresh.1.elim hgenerated
    · obtain ⟨node, hleft, hright⟩ := h.exists_analyze style hx
      exact .inr ⟨_, node, node, hstands, hleft, hright, rfl⟩
  composite := by
    have hunknown {source : Text} {ctx : Context} (h : KnowsWords source ctx)
        (hgenerated : ∀ key, (ctx.symbol? key).isSome → key = mainName ∨ IsFreshName source key)
        (key : Text) (hkey : ∃ d ∈ key, isIdentifierChar d = false) : ctx.isKnown key = false := by
      obtain ⟨d, hmem, hd⟩ := hkey
      obtain ⟨hname, hnamed⟩ := unnamed_of_mem hmem hd
      refine h.isKnown_eq_false hgenerated (List.ne_nil_of_mem hmem)
        (fun hfresh => hfresh.1.elim hname) (fun hin => ?_) hnamed (.inr ⟨d, hmem, hd⟩)
      cases hd.symm.trans (isIdentifierChar_of_mem_words hin d hmem)
    simp only [List.forall_mem_cons, List.not_mem_nil, false_imp_iff, implies_true, and_true]
    exact ⟨hunknown h.left h.generated, hunknown h.right h.generated'⟩

end Corresponds

end Context

namespace Compiler

variable {style : Precedence} {rename : Text → Text} {source target : Text} {ctx ctx' : Context}

/-- The tree that is built, and the types that it leaves the parameters with. -/
theorem exists_run_of_buildTree (hcancelled : ctx.cancelled = false) {root : Node}
    {params : List Parameter} (h : (common style).buildTree ctx = .ok (root, params)) :
    ∃ node s, ((TreeBuilder.common style ctx).build Context.mainName).run { params := ctx.params } =
      (.ok node, s) ∧ node.refresh s.params = (root, none) ∧ params = s.params := by
  rw [buildTree_eq hcancelled] at h
  split at h
  · cases h
  · next node s hrun =>
    split at h
    · next root' hrefresh =>
      obtain ⟨rfl, rfl⟩ := Prod.mk.inj (Except.ok.inj h)
      exact ⟨node, s, hrun, hrefresh, rfl⟩
    · cases h

theorem buildTree_error (hcancelled : ctx.cancelled = false) {fault : CompileFault} {s : BuildState}
    (h : ((TreeBuilder.common style ctx).build Context.mainName).run { params := ctx.params } =
      (.error fault, s)) : (common style).buildTree ctx = .error fault := by
  change ((TreeBuilder.ofDefinition (common style).definition (common style).tokens
    (common style).registry ctx).build Context.mainName).run { params := ctx.params } =
      (.error fault, s) at h
  rw [buildTree_eq hcancelled, h]

/-- Tables in which the whole texts are taken apart alike are built to the same tree. -/
theorem exists_buildTree {r : Text → Text → Prop}
    (h : TreeBuilder.Bisimulation (TreeBuilder.common style ctx) (TreeBuilder.common style ctx') r)
    (hmain : r Context.mainName Context.mainName) (hcancelled : ctx.cancelled = false)
    (hcancelled' : ctx'.cancelled = false) (hparams : unnamed ctx.params = unnamed ctx'.params)
    {root : Node} {params : List Parameter}
    (hbuild : (common style).buildTree ctx = .ok (root, params))
    (hcomplex : (common style).buildTree ctx' ≠ .error .tooComplex) :
    ∃ root' params', (common style).buildTree ctx' = .ok (root', params') ∧
      root.unlabeled = root'.unlabeled ∧ unnamed params = unnamed params' := by
  obtain ⟨node, s, hrun, hrefresh, rfl⟩ := exists_run_of_buildTree hcancelled hbuild
  have hcomplete : (((TreeBuilder.common style ctx').build Context.mainName).run
      { params := ctx'.params }).1 ≠ .error .tooComplex := fun hfault => hcomplex <| by
    rcases hrun' : ((TreeBuilder.common style ctx').build Context.mainName).run
      { params := ctx'.params } with ⟨fault | node', s'⟩
    · rw [hrun'] at hfault
      obtain rfl := Except.error.inj hfault
      exact buildTree_error hcancelled' hrun'
    · rw [hrun'] at hfault
      cases hfault
  obtain ⟨node', s', hrun', hnode, hs⟩ := h.build hmain hparams hrun hcomplete
  have hlabels := Node.refresh_unlabeled s'.params node'
  rw [← hnode, ← hs, Node.refresh_unlabeled, hrefresh] at hlabels
  rcases hrefresh' : node'.refresh s'.params with ⟨root', _ | fault⟩
  · rw [hrefresh'] at hlabels
    obtain ⟨htypable, rfl⟩ := Node.refresh_eq_iff.mp hrefresh'
    exact ⟨_, _, buildTree_common hcancelled' hrun' htypable, (Prod.mk.inj hlabels).1, hs⟩
  · rw [hrefresh'] at hlabels
    cases (Prod.mk.inj hlabels).2

/-- Texts whose words correspond to each other, and that are taken apart alike, are expressions with the
same values, unless the second one is given up. -/
theorem matches_of_corresponds {r : Text → Text → Prop}
    (h : Context.Corresponds rename source target ctx ctx')
    (hsame : TreeBuilder.SameMeaning r style ctx ctx')
    (hsource : ((common style).compile source false).outcome = (common style).buildTree ctx)
    (htarget : ((common style).compile target false).outcome = (common style).buildTree ctx')
    (hcancelled : ctx.cancelled = false) (hcancelled' : ctx'.cancelled = false)
    (hrecognized : ((common style).expression (String.ofList source)).isRecognized = true)
    (hcomplex : ((common style).compile target false).outcome ≠ .error .tooComplex) :
    ((common style).expression (String.ofList source)).Matches rename
      ((common style).expression (String.ofList target)) := by
  have hexpression (text : Text) : (common style).expression (String.ofList text) =
      Expression.ofOutcome (common style).registry (String.ofList text)
        ((common style).compile text false).outcome := by
    rw [expression, String.toList_ofList]
  rw [hexpression, hsource] at hrecognized
  rw [hexpression, hexpression, hsource, htarget]
  rw [htarget] at hcomplex
  cases hbuild : (common style).buildTree ctx with
  | error fault =>
    rw [hbuild] at hrecognized
    cases hrecognized
  | ok built =>
    obtain ⟨root, params⟩ := built
    obtain ⟨root', params', hbuild', hroot, hparams⟩ := exists_buildTree hsame.bisimulation
      ⟨.nil, List.not_mem_nil⟩ hcancelled hcancelled' h.unnamed_params hbuild hcomplex
    have hnames {ctx : Context} {root : Node} {params : List Parameter}
        (hbuild : (common style).buildTree ctx = .ok (root, params)) :
        params.map (fun p => p.name.toList) = ctx.params.map fun p => p.name.toList := by
      have := congrArg (List.map String.toList) (derives_of_buildTree hbuild).1
      rw [List.map_map, List.map_map] at this
      exact this
    have hbody : Body.unlabeled ⟨root', params'⟩ = Body.unlabeled ⟨root, params⟩ :=
      congrArg₂ Body.mk hroot.symm hparams.symm
    rw [hbuild']
    refine ⟨rfl, ?_, ?_, ?_, fun draws args tolerance => ?_⟩
    · exact (hnames hbuild').trans (h.names.trans (congrArg _ (hnames hbuild)).symm)
    · have := congrArg (List.map Parameter.supported) hparams
      rw [List.map_map, List.map_map] at this
      exact this.symm
    · exact (Node.returns_unlabeled params' root').symm.trans
        (hroot ▸ hparams ▸ Node.returns_unlabeled params root)
    · refine Expression.outcome_evaluate_congr ?_ ?_ ?_ ?_ ?_ hbody draws args tolerance <;> rfl

end Compiler

end Formula
