import Formula.Proofs.Compile.SplitBudget

/-!
# Chains compile to their conventional trees

All stages of a compilation together: a chain gets through to the tables, and the tree that is built
from them is the conventional one. Prefix operators bind tightest, lower tiers bind looser, and
operators of one tier associate to the left. Only applications of constants may have been folded.

## Main definitions

* `Compiler.splits`: the number of splits a compilation tries.

## Main results

* `Compiler.splits_chain_le`: a chain with few operators takes few splits.
* `Compiler.compile_chain`: a chain compiles to its conventional tree.
-/

namespace Formula.Compiler

/-- The state after the tree of a text has been built, if the text gets that far. -/
def buildState? (c : Compiler) (source : Text) : Option BuildState :=
  let (text, ctx) := (Context.start source).extractLiterals c.definition c.registry
  match c.resolve text ctx with
  | .error _ => none
  | .ok ctx =>
    let t := TreeBuilder.ofDefinition c.definition c.tokens c.registry ctx
    some ((t.build Context.mainName).run { params := ctx.params }).2

/-- The number of splits that a compilation tries. -/
def splits (c : Compiler) (source : Text) : Nat :=
  ((c.buildState? source).map BuildState.splits).getD 0

/-- A chain gets through to the tables, and its tree is built from them. -/
theorem exists_prepared {f : Family} (style : Precedence) {chain : Chain}
    (h : chain.IsOf f fun x => f.isAtom x = true) :
    ∃ P : PreparedChain, P.family = f ∧ P.style = style ∧ P.pieces = chain.pieces f ∧
      (common style).splits (chain.text f) =
        ((P.builder.build Context.mainName).run { params := P.context.params }).2.splits ∧
      ((common style).compile (chain.text f) false).outcome =
        (common style).buildTree P.context := by
  have hchain : IsChain f (chain.pieces f) := ⟨Family.follow_chain h.1, h.isAtom_of_mem_pieces⟩
  obtain ⟨ctx, hresolve, hprepared⟩ := hchain.resolve style
  have hliterals : (Context.start (chain.text f)).extractLiterals (common style).definition
      (common style).registry = (chain.text f, Context.start (chain.text f)) :=
    Chain.textAll_pieces f chain ▸ hchain.extractLiterals style
  rw [Chain.textAll_pieces] at hresolve
  refine ⟨⟨f, style, chain.pieces f, ctx, hchain, hprepared⟩, rfl, rfl, rfl, ?_, ?_⟩
  · rw [splits, buildState?, hliterals]
    dsimp only
    rw [hresolve]
    rfl
  · exact outcome_compile hliterals hresolve

/-- A chain with few operators takes few splits. -/
theorem splits_chain_le {f : Family} (style : Precedence) {chain : Chain}
    (h : chain.IsOf f fun x => f.isAtom x = true) :
    (common style).splits (chain.text f) ≤ splitBound (f.markCount (chain.text f)) := by
  obtain ⟨P, rfl, rfl, hpieces, hsplits, -⟩ := exists_prepared style h
  rw [hsplits]
  exact (PreparedChain.spends_build h.1 hpieces.symm _).trans_eq (Nat.zero_add _)

/-- A chain of operators compiles to its conventional tree, unless the splits run out. -/
theorem compile_chain {f : Family} {style : Precedence} {c : Compiler}
    (hc : make { precedence := style } Registry.standard = .ok c) {chain : Chain}
    (h : chain.IsOf f fun x => f.isAtom x = true)
    (hsplits : c.splits (chain.text f) ≤ maxSplits) :
    ∃ node params, (c.compile (chain.text f) false).outcome = .ok (node, params) ∧
      f.Matches c.registry (params.map Parameter.name) (chain.tree style) node := by
  rw [make_common] at hc
  obtain rfl := Except.ok.inj hc
  obtain ⟨P, rfl, rfl, hpieces, hrun, hcompile⟩ := exists_prepared style h
  rw [hrun] at hsplits
  obtain ⟨node, params, hbuild, hnode, hnames, -⟩ := P.buildTree_chain h.1 hpieces.symm hsplits
  exact ⟨node, params, hcompile.trans hbuild, hnames ▸ hnode.shape⟩

/-- A chain of logical operators is read from left to right in one style and by tiers in the
other. -/
theorem compile_chain_logical :
    (∃ node params,
      ((common .mathematical).compile "a|!b#c&d".toList false).outcome = .ok (node, params) ∧
        Family.logical.Matches Registry.standard (params.map Parameter.name)
          (.infixed .and (.infixed .xor (.infixed .or (.atom ['a']) (.prefixed (.atom ['b'])))
            (.atom ['c'])) (.atom ['d'])) node) ∧
      ∃ node params,
        ((common .layered).compile "a|!b#c&d".toList false).outcome = .ok (node, params) ∧
          Family.logical.Matches Registry.standard (params.map Parameter.name)
            (.infixed .or (.atom ['a']) (.infixed .xor (.prefixed (.atom ['b']))
              (.infixed .and (.atom ['c']) (.atom ['d'])))) node := by
  let chain : Chain :=
    ⟨⟨0, ['a']⟩, [(.or, ⟨1, ['b']⟩), (.xor, ⟨0, ['c']⟩), (.and, ⟨0, ['d']⟩)]⟩
  have h : chain.IsOf .logical fun x => Family.logical.isAtom x = true := by
    constructor <;> decide
  have htext : "a|!b#c&d".toList = chain.text .logical := by decide
  have hbound : splitBound (Family.logical.markCount (chain.text .logical)) ≤ maxSplits := by
    decide
  have hsplits (style : Precedence) : (common style).splits (chain.text .logical) ≤ maxSplits :=
    (splits_chain_le style h).trans hbound
  rw [htext]
  exact ⟨compile_chain (make_common .mathematical) h (hsplits _),
    compile_chain (make_common .layered) h (hsplits _)⟩

end Formula.Compiler
