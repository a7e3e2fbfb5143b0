import Formula.Expression
import Formula.Proofs.Compile.Precedence

/-!
# Well-typed expressions do not go wrong

A compiled expression is evaluated in steps that could each find fault with types: the tables are
recomputed for the types of the arguments, the tree is strongly determined for the type it prefers,
it is lowered, and the program is run. Once the tables have been recomputed, nothing is wrong with
the types any more. The evaluation gives a value of the preferred type, or it fails for want of
registers, in integer arithmetic, or outside the domain of a function.

The programs that an expression keeps between evaluations need an invariant: each is a lowering of
the same tree for the types it is kept under.

## Main definitions

* `Expression.Reachable`: what becomes of a compiled expression by evaluating it.
* `Expression.Sound`: the invariant.
* `EvaluationFault.isDynamic`: the faults of well-typed evaluations.

## Main results

* `Compiler.wellFormed_of_compile`: compiled trees are well formed.
* `Expression.lower_fits`: what is lowered for the types of the arguments does not go wrong.
* `Expression.evaluate_fits`: evaluation does not go wrong.
-/

namespace Formula

/-! ### Compiled trees -/

/-- The tree of a compiled text is well formed. -/
theorem Compiler.wellFormed_of_compile {c : Compiler} {source : Text} {cancelled : Bool}
    {root : Node} {params : List Parameter}
    (h : (c.compile source cancelled).outcome = .ok (root, params)) :
    root.WellFormed params.length := by
  obtain ⟨ctx, hbuild⟩ := exists_buildTree_of_compile h
  obtain ⟨hnames, node, hnode, rfl, -⟩ := derives_of_buildTree hbuild
  rw [show params.length = ctx.params.length by simpa using congrArg List.length hnames]
  exact (Restricts.retable _ node).wellFormed hnode.wellFormed

namespace CostTable

theorem preferred?_leaf_of {t : ValueType} (ht : t ≠ .unknown) :
    (leaf (TypeMask.of t)).preferred? = some t := by
  cases t <;> first | rfl | exact absurd rfl ht

end CostTable

/-- A typable tree over the parameters offers some type. -/
theorem Node.exists_preferred? {params : List Parameter} {types : List ValueType}
    (hlen : types.length = params.length) (htypes : .unknown ∉ types) {node : Node}
    (hscope : node.Scoped params.length) (h : node.Typable (pin params types)) :
    ∃ target, (node.table (pin params types)).preferred? = some target := by
  cases h with
  | constant v text => exact ⟨v.type, CostTable.preferred?_leaf_of v.type_ne_unknown⟩
  | parameter id =>
    cases hscope with
    | parameter hlt =>
      have hpin : Pinned (pin params types) := pinned_pin htypes
      obtain ⟨t, ht⟩ : ∃ t, types[id]? = some t := ⟨_, List.getElem?_eq_getElem (hlen ▸ hlt)⟩
      have hmask := (supports_maskAt_pin_iff htypes).mpr ⟨hlt, ht⟩
      obtain ⟨p, hp, hown⟩ := hpin.mask_eq_of hmask
      have hmaskAt : maskAt (pin params types) id = TypeMask.of t := by
        rw [maskAt, hp, ← hown]
        rfl
      refine ⟨t, ?_⟩
      rw [Node.table_parameter, hmaskAt]
      exact CostTable.preferred?_leaf_of (TypeMask.ne_unknown_of_supports hmask)
  | apply _ htable =>
    obtain ⟨t, ht, hoffer⟩ := Term.exists_mem_all_of_typable htable
    rw [← Option.isSome_iff_exists, CostTable.preferred?_isSome_iff]
    exact ⟨t, TypeMask.ne_unknown_of_supports ht, hoffer⟩

/-! ### Lowering -/

/-- Whether an evaluation whose types are right can end this way. -/
def EvaluationFault.isDynamic : EvaluationFault → Bool
  | machine fault => fault.isDynamic
  | _ => false

namespace Expression

/-- The type that a tree prefers for arguments of given types. -/
def target? (body : Body) (types : List ValueType) : Option ValueType :=
  ((body.root.refresh (pin body.params types)).1.costs (pin body.params types)).preferred?

/-- Lowering, once the tables are recomputed and the tree is strongly determined. -/
theorem lower_eq {body : Body} {types : List ValueType} {target : ValueType} {root : Node}
    (htypable : body.root.Typable (pin body.params types))
    (htarget : (body.root.table (pin body.params types)).preferred? = some target)
    (hstrong : Node.strengthen target (body.root.retable (pin body.params types))
      (pin body.params types) = (root, pin body.params types, none))
    (tolerance : Option Tolerance.Kind) :
    lower body types tolerance =
      match root.lower (pin body.params types) target {} with
      | .error fault => .error (.machine fault)
      | .ok (result, b) =>
        .ok { arguments := types, target, program := b.finish result tolerance } := by
  have hparams : body.params.zipWith (fun p t => { p with supported := TypeMask.of t }) types =
      pin body.params types := rfl
  have hcosts : ((body.root.retable (pin body.params types)).costs
      (pin body.params types)).preferred? = some target := htarget
  cases hlower : root.lower (pin body.params types) target {} <;>
    simp only [lower, hparams, htypable.refresh_eq, hcosts, hstrong, hlower]

/-- A well-formed tree whose tables can be recomputed is lowered for the type it prefers, unless an
index is too high, and the program does not go wrong. -/
theorem lower_fits {body : Body} (hroot : body.root.WellFormed body.params.length)
    {types : List ValueType} (hlen : types.length = body.params.length)
    (htypes : .unknown ∉ types)
    (htyped : (body.root.refresh (pin body.params types)).2 = none)
    (tolerance : Option Tolerance.Kind) :
    ∃ target, target? body types = some target ∧
      (lower body types tolerance = .error (.machine .registerLimitExceeded) ∨
        ∃ lowering, lower body types tolerance = .ok lowering ∧ lowering.target = target ∧
          ∀ registry draws args, args.map Value.type = types →
            Fits MachineFault.isDynamic target (lowering.program.run registry draws args)) := by
  have hpin : Pinned (pin body.params types) := pinned_pin htypes
  have htypable := Node.typable_of_refresh htyped
  obtain ⟨target, htarget⟩ := Node.exists_preferred? hlen htypes hroot.scope htypable
  obtain ⟨hstrong, hsettled⟩ := Node.strengthen_retable hpin hroot.formed
    (CostTable.isSome_get?_of_preferred? htarget)
  have htarget? : target? body types = some target := by
    rw [target?, htypable.refresh_eq]
    exact htarget
  refine ⟨target, htarget?, ?_⟩
  have hlower := lower_eq htypable htarget (Prod.ext rfl hstrong) tolerance
  cases hcode : (Node.strengthen target (body.root.retable (pin body.params types))
      (pin body.params types)).1.lower (pin body.params types) target {} with
  | error fault =>
    obtain rfl := hsettled.lower_error hcode
    rw [hcode] at hlower
    exact .inl hlower
  | ok out =>
    rw [hcode] at hlower
    refine .inr ⟨_, hlower, rfl, fun registry draws args hargs => ?_⟩
    obtain ⟨hb, hrun⟩ := Node.run_finish hcode registry draws tolerance args
    rw [hrun]
    subst hargs
    exact hsettled.fits_meaning supplies_pin hb.type_literal 0

end Expression

/-! ### Chains of operators -/

namespace Compiler

/-- A chain with few operators is recognized. Its parameters are its names, each once, and its
tree can be typed if they have the type of the family. -/
theorem exists_body {f : Family} (style : Precedence) {chain : Chain}
    (h : chain.IsOf f fun x => f.isAtom x = true) (source : String)
    (hsource : source.toList = chain.text f)
    (hbound : splitBound (f.markCount (chain.text f)) ≤ maxSplits) :
    ∃ body, ((Compiler.common style).expression source).body = some body ∧
      (∀ name, name ∈ body.params.map Parameter.name ↔
        Piece.atom name.toList ∈ chain.pieces f ∧ f.value? name.toList = none) ∧
      (body.params.map Parameter.name).Nodup ∧
      (∀ mask ∈ body.params.map Parameter.supported, mask.supports f.goal = true) ∧
      body.root.Typable (pin body.params (List.replicate body.params.length f.goal)) := by
  have hsplits := (Compiler.splits_chain_le style h).trans hbound
  obtain ⟨P, rfl, rfl, hpieces, hrun, hcompile⟩ := Compiler.exists_prepared style h
  rw [hrun] at hsplits
  obtain ⟨node, params, hbuild, hnode, hnames, hmasks⟩ :=
    P.buildTree_chain h.1 hpieces.symm hsplits
  refine ⟨⟨node, params⟩, ?_, ?_, ?_, hmasks, ?_⟩
  · rw [Compiler.expression, hsource, hcompile, hbuild]
    rfl
  · intro name
    rw [hnames, ← hpieces]
    exact P.mem_names_iff
  · rw [hnames]
    exact P.prepared.distinct
  · have hpin : pin params (List.replicate params.length P.family.goal) = P.pinned := by
      rw [PreparedChain.length_params hnames]
      exact pin_eq_of_names hnames
    rw [hpin]
    exact hnode.serves.typable

end Compiler

/-! ### Evaluation -/

namespace Expression

/-- What becomes of the expression of a text by evaluating it, any number of times. -/
inductive Reachable (c : Compiler) (source : String) : Expression → Prop
  | compiled : Reachable c source (c.expression source)
  | evaluated {e : Expression} (h : Reachable c source e) (draws : Draws) (args : List Value)
      (tolerance : Option Tolerance) :
      Reachable c source (e.evaluate draws args tolerance).expression

/-- The tree is well formed, and every program that is kept is a lowering of it for the types it is
kept under. -/
structure Sound (e : Expression) : Prop where
  root : ∀ body, e.body = some body → body.root.WellFormed body.params.length
  lowered : ∀ body, e.body = some body → ∀ (key : LoweringKey) lowering,
    e.lowered[key]? = some lowering → ∃ kind, lower body key.1 kind = .ok lowering

theorem sound_expression (c : Compiler) (source : String) : (c.expression source).Sound := by
  refine ⟨fun body hbody => ?_, fun body hbody key lowering h => ?_⟩
  · simp only [Compiler.expression, ofOutcome] at hbody
    split at hbody
    · next root params houtcome =>
      obtain rfl := Option.some.inj hbody
      exact Compiler.wellFormed_of_compile houtcome
    · simp at hbody
  · simp [Compiler.expression, ofOutcome] at h

/-- What an expression finds or makes as the program for types is a lowering for these types, and
the invariant is kept. -/
theorem Sound.program {e e' : Expression} (he : e.Sound) {body : Body} (hbody : e.body = some body)
    {types : List ValueType} {tolerance : Option Tolerance} {lowering : Lowering} {isNew : Bool}
    (h : e.program body types tolerance = .ok (lowering, isNew, e')) :
    e'.Sound ∧ ∃ kind, lower body types kind = .ok lowering := by
  have hmade {kind : Option Tolerance.Kind} {next : Lowering → Expression}
      (hnext : ∀ made, lower body types kind = .ok made → (next made).Sound)
      (h : ((lower body types kind).map fun made => (made, true, next made)) =
        .ok (lowering, isNew, e')) :
      e'.Sound ∧ ∃ kind, lower body types kind = .ok lowering := by
    cases hlower : lower body types kind with
    | error fault => simp [hlower, Except.map] at h
    | ok made =>
      simp only [hlower, Except.map, Except.ok.injEq, Prod.mk.injEq] at h
      obtain ⟨rfl, -, rfl⟩ := h
      exact ⟨hnext made hlower, kind, hlower⟩
  simp only [Expression.program] at h
  generalize (if body.root.isTolerant = true then tolerance else none) = heeded at h
  split at h
  · exact hmade (fun _ _ => he) h
  · split at h
    · next found hfound =>
      simp only [Except.ok.injEq, Prod.mk.injEq] at h
      obtain ⟨rfl, -, rfl⟩ := h
      exact ⟨he, he.lowered body hbody _ _ hfound⟩
    · refine hmade (fun made hlower => ?_) h
      refine ⟨he.root, fun body' hbody' key found hfound => ?_⟩
      simp only [Std.HashMap.getElem?_insert] at hfound
      split at hfound
      · next heq =>
        obtain rfl := Option.some.inj hfound
        obtain rfl := Option.some.inj (hbody.symm.trans hbody')
        rw [← eq_of_beq heq]
        exact ⟨_, hlower⟩
      · exact he.lowered body' hbody' key found hfound

theorem Sound.evaluate {e : Expression} (he : e.Sound) (draws : Draws) (args : List Value)
    (tolerance : Option Tolerance) : (e.evaluate draws args tolerance).expression.Sound := by
  rw [Expression.evaluate]
  split
  · exact he
  · next body hbody =>
    split
    · exact he
    · split
      · exact he
      · split
        · exact he
        · split
          · exact he
          · next hprogram => exact (he.program hbody hprogram).1

/-- Every expression that evaluations of a compiled one lead to satisfies the invariant. -/
theorem Reachable.sound {c : Compiler} {source : String} {e : Expression}
    (h : Reachable c source e) : e.Sound := by
  induction h with
  | compiled => exact sound_expression c source
  | evaluated _ draws args tolerance ih => exact ih.evaluate draws args tolerance

theorem target?_of_constant? {body : Body} {v : Value} (h : body.constant? = some v)
    (types : List ValueType) : target? body types = some v.type := by
  rw [Body.constant?] at h
  split at h
  · next hroot _ =>
    obtain rfl := Option.some.inj h
    rw [target?, hroot]
    exact CostTable.preferred?_leaf_of (Value.type_ne_unknown _)
  · simp at h

theorem length_of_coerceAll {registry : Registry} {params : List Parameter}
    {args coerced : List Value} (hlen : args.length = params.length)
    (h : coerceAll registry params args = .ok coerced) : coerced.length = params.length := by
  have hmapM {α β ε : Type} {f : α → Except ε β} {l : List α} {out : List β}
      (h : l.mapM f = .ok out) : out.length = l.length := by
    induction l generalizing out with
    | nil =>
      rw [List.mapM_nil] at h
      rw [← Except.ok.inj h]
      rfl
    | cons a l ih =>
      rw [List.mapM_cons] at h
      obtain ⟨b, -, h⟩ := bind_eq_ok_iff.mp h
      obtain ⟨bs, hbs, h⟩ := bind_eq_ok_iff.mp h
      rw [← Except.ok.inj h, List.length_cons, List.length_cons, ih hbs]
  rw [hmapM h, List.length_zip, hlen, Nat.min_self]

theorem program_error {e : Expression} {body : Body} {types : List ValueType}
    {tolerance : Option Tolerance} {fault : EvaluationFault}
    (h : e.program body types tolerance = .error fault) :
    ∃ kind, lower body types kind = .error fault := by
  have hmade {kind : Option Tolerance.Kind} {next : Lowering → Lowering × Bool × Expression}
      (h : (lower body types kind).map next = .error fault) :
      ∃ kind, lower body types kind = .error fault := by
    cases hlower : lower body types kind with
    | error fault' =>
      simp only [hlower, Except.map, Except.error.injEq] at h
      exact ⟨kind, h ▸ hlower⟩
    | ok made => simp [hlower, Except.map] at h
  simp only [program] at h
  split at h
  · exact hmade h
  · split at h
    · simp at h
    · exact hmade h

/-- A program that is found or lowered does not go wrong. -/
theorem Sound.program_fits {e : Expression} (he : e.Sound) {body : Body}
    (hbody : e.body = some body) {types : List ValueType}
    (hlen : types.length = body.params.length) (htypes : .unknown ∉ types)
    (htyped : (body.root.refresh (pin body.params types)).2 = none)
    {target : ValueType} (htarget : target? body types = some target)
    {tolerance : Option Tolerance} {lowering : Lowering} {isNew : Bool} {e' : Expression}
    (h : e.program body types tolerance = .ok (lowering, isNew, e')) :
    lowering.target = target ∧ ∀ registry draws args, args.map Value.type = types →
      Fits MachineFault.isDynamic target (lowering.program.run registry draws args) := by
  obtain ⟨-, kind, hlower⟩ := he.program hbody h
  obtain ⟨target', htarget', hfits⟩ := lower_fits (he.root body hbody) hlen htypes htyped kind
  obtain rfl := Option.some.inj (htarget.symm.trans htarget')
  rw [hlower] at hfits
  rcases hfits with hfits | ⟨lowering', heq, hrest⟩
  · simp at hfits
  · obtain rfl := Except.ok.inj heq
    exact hrest

section Typed

variable {c : Compiler} {source : String} {e : Expression} (he : Reachable c source e) {body : Body}
  (hbody : e.body = some body) {args coerced : List Value}
  (hlen : args.length = body.params.length)
  (hcoerce : coerceAll e.registry body.params args = .ok coerced)
  (htyped : (body.root.refresh (pin body.params (coerced.map Value.type))).2 = none)
include he hbody hlen hcoerce htyped

/-- An evaluation gives a value of the type that the tree prefers, or a fault that no types exclude. -/
theorem exists_fits (draws : Draws) (tolerance : Option Tolerance) :
    ∃ target, target? body (coerced.map Value.type) = some target ∧
      Fits EvaluationFault.isDynamic target (e.evaluate draws args tolerance).outcome := by
  have hsound := he.sound
  have hcoerced : (coerced.map Value.type).length = body.params.length := by
    rw [List.length_map, length_of_coerceAll hlen hcoerce]
  have htypes : ValueType.unknown ∉ coerced.map Value.type := by
    simpa using fun v _ => v.type_ne_unknown
  have hroot := hsound.root body hbody
  obtain ⟨target, htarget, -⟩ := lower_fits hroot hcoerced htypes htyped none
  refine ⟨target, htarget, ?_⟩
  simp only [evaluate, hbody, hlen, ne_eq, not_true_eq_false, if_false, hcoerce]
  split
  · next v hv =>
    rw [target?_of_constant? hv] at htarget
    exact Option.some.inj htarget
  · split
    · next fault hprogram =>
      obtain ⟨kind, hlower⟩ := program_error hprogram
      obtain ⟨target', -, hfits⟩ := lower_fits hroot hcoerced htypes htyped kind
      rw [hlower] at hfits
      rcases hfits with hfits | ⟨lowering, heq, -⟩
      · obtain rfl := Except.error.inj hfits
        rfl
      · simp at heq
    · next lowering isNew e' hprogram =>
      have hrun := (hsound.program_fits hbody hcoerced htypes htyped htarget hprogram).2 e'.registry
        draws coerced rfl
      simp only [runProgram]
      revert hrun
      cases lowering.program.run e'.registry draws coerced <;> exact id

/-- The program that an evaluation runs has been lowered for the type that the tree prefers. -/
theorem target_of_lowered {target : ValueType}
    (htarget : target? body (coerced.map Value.type) = some target) {draws : Draws}
    {tolerance : Option Tolerance} {lowering : Lowering}
    (hlowered : (e.evaluate draws args tolerance).lowered = some lowering) :
    lowering.target = target := by
  have hcoerced : (coerced.map Value.type).length = body.params.length := by
    rw [List.length_map, length_of_coerceAll hlen hcoerce]
  have htypes : ValueType.unknown ∉ coerced.map Value.type := by
    simpa using fun v _ => v.type_ne_unknown
  simp only [evaluate, hbody, hlen, ne_eq, not_true_eq_false, if_false, hcoerce] at hlowered
  split at hlowered
  · simp [settled] at hlowered
  · split at hlowered
    · simp [settled] at hlowered
    · next found isNew e' hprogram =>
      split at hlowered
      · obtain rfl := Option.some.inj hlowered
        exact (he.sound.program_fits hbody hcoerced htypes htyped htarget hprogram).1
      · simp at hlowered

end Typed

/-- Well-typed expressions do not go wrong. Once the tables of the tree have been recomputed for
the types of the arguments, the evaluation gives a value of the type that the tree prefers and is
lowered for, or it fails for want of registers, by an integer overflow, by a division by zero or
outside the domain of a function. -/
theorem evaluate_fits {c : Compiler} {source : String} {e : Expression}
    (he : Reachable c source e) {body : Body} (hbody : e.body = some body)
    {args coerced : List Value} (hlen : args.length = body.params.length)
    (hcoerce : coerceAll e.registry body.params args = .ok coerced)
    (htyped : (body.root.refresh (pin body.params (coerced.map Value.type))).2 = none)
    (draws : Draws) (tolerance : Option Tolerance) :
    ∃ target, target? body (coerced.map Value.type) = some target ∧
      Fits EvaluationFault.isDynamic target (e.evaluate draws args tolerance).outcome ∧
      ∀ lowering, (e.evaluate draws args tolerance).lowered = some lowering →
        lowering.target = target := by
  obtain ⟨target, htarget, hfits⟩ := exists_fits he hbody hlen hcoerce htyped draws tolerance
  exact ⟨target, htarget, hfits, fun _ => target_of_lowered he hbody hlen hcoerce htyped htarget⟩

/-- The quotient of a number and its opposite. -/
theorem evaluate_fits_quotient :
    ∃ body target, ((Compiler.common .mathematical).expression "x/-x").body = some body ∧
      target? body [.numeric] = some target ∧
      Fits EvaluationFault.isDynamic target (((Compiler.common .mathematical).expression
        "x/-x").evaluate (fun _ => 0) [.numeric 3] none).outcome := by
  let chain : Chain := ⟨⟨0, ['x']⟩, [(.divide, ⟨1, ['x']⟩)]⟩
  have h : chain.IsOf .arithmetic fun x => Family.arithmetic.isAtom x = true := by
    constructor <;> decide
  obtain ⟨body, hbody, hnames, hdistinct, hmasks, htypable⟩ := Compiler.exists_body .mathematical h
    "x/-x" (by decide) (by decide)
  have hparams : body.params.map Parameter.name = ["x"] := by
    refine List.perm_singleton.mp ((List.perm_ext_iff_of_nodup hdistinct (by simp)).mpr fun name => ?_)
    rw [hnames, Chain.atom_mem_pieces_iff, List.mem_singleton, ← String.toList_inj]
    constructor
    · rintro ⟨⟨u, hu, hatom⟩, -⟩
      have hall : ∀ u ∈ chain.operands, u.atom = "x".toList := by decide
      exact hatom.symm.trans (hall u hu)
    · intro hname
      rw [hname]
      exact ⟨⟨_, List.mem_cons_self .., rfl⟩, by decide⟩
  obtain ⟨p, hp⟩ : ∃ p, body.params = [p] := by
    refine List.length_eq_one_iff.mp ?_
    rw [← List.length_map Parameter.name, hparams, List.length_singleton]
  rw [hp] at htypable hmasks
  have hcoerce : coerceAll Registry.standard body.params [.numeric 3] = .ok [.numeric 3] := by
    have hfit : (Value.numeric 3).coerce? Registry.standard p.supported = some (.numeric 3) :=
      if_pos (hmasks _ (List.mem_singleton_self _))
    rw [hp, coerceAll, List.zip_cons_cons, List.mapM_cons]
    dsimp only
    rw [hfit]
    rfl
  obtain ⟨target, htarget, hfits, -⟩ := evaluate_fits .compiled hbody (by rw [hp]; rfl) hcoerce
    (by rw [hp]; exact congrArg Prod.snd htypable.refresh_eq) (fun _ => 0) none
  exact ⟨body, target, hbody, htarget, hfits⟩

end Expression

end Formula
