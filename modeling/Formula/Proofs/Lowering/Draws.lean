import Mathlib.Data.Bool.Basic
import Formula.Expression
import Formula.Proofs.Lowering.Widening

/-!
# Drawn numbers

A tree that calls no random function is lowered to a program with no call of one: typing keeps what
is applied in the tree, and lowering puts nothing else into the table of calls. What such a program
gives does not depend on the numbers drawn for it.

## Main definitions

* `Head.isRandom`: whether a random function is applied.
* `Builder.Keeps`: what the single steps of lowering keep.
* `Builder.Deterministic`: no call of the table is random.

## Main results

* `Restricts.any_eq`, `Node.restricts_strengthen`: typing keeps what is applied.
* `Node.keeps_lower`: lowering keeps what its single steps keep.
* `Expression.exists_strengthen_of_lower`: a compiled program comes from a typed tree.
* `Node.deterministic_lower`: what lowering puts into the table of calls.
* `Expression.run_draws`: drawn numbers matter only to random expressions.
-/

namespace Formula

/-! ### What is applied in a tree -/

/-- Whether a random function is applied. -/
def Head.isRandom : Head → Bool
  | .call f => !f.isDeterministic
  | _ => false

namespace Node

theorem anyOf_eq_any (p : Head → Typing → Bool) (nodes : List Node) :
    anyOf p nodes = nodes.any (any p) := by
  induction nodes with
  | nil => rfl
  | cons n rest ih => rw [anyOf, ih, List.any_cons]

theorem any_apply (p : Head → Bool) (head : Head) (operands : List Node) (typing : Typing) :
    (apply head operands typing).any (fun head _ => p head) =
      (p head || operands.any (any fun head _ => p head)) := by
  rw [any, anyOf_eq_any]

theorem isRandom_eq_any : isRandom = any fun head _ => head.isRandom := rfl

theorem isRandom_apply (head : Head) (operands : List Node) (typing : Typing) :
    (apply head operands typing).isRandom = (head.isRandom || operands.any isRandom) := by
  rw [isRandom_eq_any, any_apply]

theorem isRandom_of_mem {head : Head} {operands : List Node} {typing : Typing}
    (h : (apply head operands typing).isRandom = false) {n : Node} (hn : n ∈ operands) :
    n.isRandom = false := by
  rw [isRandom_apply, Bool.or_eq_false_iff, List.any_eq_false] at h
  exact Bool.eq_false_of_not_eq_true (h.2 n hn)

end Node

/-- The same heads are applied in two trees of one shape. -/
theorem Restricts.any_eq (p : Head → Bool) {u n : Node} (h : Restricts u n) :
    n.any (fun head _ => p head) = u.any fun head _ => p head := by
  induction h with
  | constant v text => rfl
  | parameter id => rfl
  | @apply head us ns tu tn hlen _ _ ih =>
    have hoperands : ns.map (Node.any fun head _ => p head) =
        us.map (Node.any fun head _ => p head) := by
      refine List.ext_getElem (by simp [hlen]) fun i hi hi' => ?_
      rw [List.getElem_map, List.getElem_map]
      exact ih i _ _ (List.getElem?_eq_getElem _) (List.getElem?_eq_getElem _)
    have hany (q : Node → Bool) (nodes : List Node) : nodes.any q = (nodes.map q).any id := by
      rw [List.any_map, Function.id_comp]
    rw [Node.any_apply, Node.any_apply, hany _ ns, hany _ us, hoperands]

/-- Two trees of one shape are random together. -/
theorem Restricts.isRandom_eq {u n : Node} (h : Restricts u n) : n.isRandom = u.isRandom := by
  rw [Node.isRandom_eq_any, h.any_eq]

/-! ### Strong determination keeps the shape -/

namespace Node

mutual

theorem restricts_strengthen (target : ValueType) (node : Node) (params : List Parameter) :
    Restricts node (strengthen target node params).1 := by
  match node with
  | constant v text => exact .refl _
  | parameter id =>
    rw [strengthen]
    split <;> exact .refl _
  | apply head operands typing =>
    rw [strengthen]
    split
    · exact .refl _
    · split
      · exact .refl _
      · obtain ⟨hlen, hoperands⟩ := restricts_strengthenAll _ operands params
        exact .apply hlen (fun _ hs => hs) hoperands

theorem restricts_strengthenAll (targets : List ValueType) (nodes : List Node)
    (params : List Parameter) :
    nodes.length = (strengthenAll targets nodes params).1.length ∧
      ∀ (i : Nat) u n, nodes[i]? = some u → (strengthenAll targets nodes params).1[i]? = some n →
        Restricts u n := by
  have hrefl (nodes : List Node) : ∀ (i : Nat) u n, nodes[i]? = some u → nodes[i]? = some n →
      Restricts u n := fun i u n hu hn => Option.some.inj (hu.symm.trans hn) ▸ .refl u
  match nodes, targets with
  | [], _ => simp [strengthenAll]
  | n :: rest, [] => exact ⟨rfl, hrefl _⟩
  | n :: rest, target :: targets =>
    have hn := restricts_strengthen target n params
    rw [strengthenAll]
    split
    · next n' params' fault heq =>
      rw [heq] at hn
      refine ⟨rfl, fun i u m hu hm => ?_⟩
      cases i with
      | zero => exact Option.some.inj hu ▸ Option.some.inj hm ▸ hn
      | succ i => exact hrefl rest i u m hu hm
    · next n' params' heq =>
      rw [heq] at hn
      obtain ⟨hlen, hrest⟩ := restricts_strengthenAll targets rest params'
      refine ⟨congrArg (· + 1) hlen, fun i u m hu hm => ?_⟩
      cases i with
      | zero => exact Option.some.inj hu ▸ Option.some.inj hm ▸ hn
      | succ i => exact hrest i u m hu hm

end

end Node

/-! ### What lowering keeps -/

/-- The single steps of lowering keep a property of builders, if no application that `p` tells is
among them. -/
structure Builder.Keeps (P : Builder → Prop) (p : Head → Typing → Bool) : Prop where
  addLiteral : ∀ {b b' : Builder} {v : Value} {place : Nat},
    b.addLiteral v = .ok (place, b') → P b → P b'
  allocate : ∀ {b b' : Builder} {dest : Nat}, b.allocate = .ok (dest, b') → P b → P b'
  loadLiteral : ∀ (b : Builder) dest index, P b → P (b.emit (.loadLiteral dest index))
  loadParameter : ∀ (b : Builder) dest index, P b → P (b.emit (.loadParameter dest index))
  convert : ∀ (b : Builder) dest source target, P b → P (b.emit (.convert dest source target))
  apply : ∀ {b b' : Builder} {head : Head} {typing : Typing} {target : ValueType} {s : Signature}
    {dest : Nat} {operands : List Nat}, p head typing = false →
    typing.selected? = some (target, s) → b.emitApplication head s dest operands = .ok b' →
    P b → P b'

namespace Node

section

variable {P : Builder → Prop} {p : Head → Typing → Bool} {params : List Parameter}

theorem keeps_widen (hP : Builder.Keeps P p) {b b' : Builder} {register result : Nat}
    {own target : ValueType} (h : b.widen register own target = .ok (result, b')) (hb : P b) :
    P b' := by
  rw [Builder.widen] at h
  split at h
  · obtain ⟨-, rfl⟩ := Prod.mk.inj (Except.ok.inj h)
    exact hb
  · obtain ⟨⟨dest, b₁⟩, hdest, h⟩ := bind_eq_ok_iff.mp h
    obtain ⟨-, rfl⟩ := Prod.mk.inj (Except.ok.inj h)
    exact hP.convert b₁ dest register target (hP.allocate hdest hb)

theorem keeps_lowerAll {nodes : List Node}
    (ih : ∀ n ∈ nodes, ∀ target b b' result, n.lower params target b = .ok (result, b') →
      P b → P b')
    {targets : List ValueType} {b b' : Builder} {results : List Nat}
    (h : lowerAll params targets nodes b = .ok (results, b')) (hb : P b) : P b' := by
  induction nodes generalizing targets b results with
  | nil =>
    rw [lowerAll] at h
    obtain ⟨-, rfl⟩ := Prod.mk.inj (Except.ok.inj h)
    exact hb
  | cons n rest hrest =>
    cases targets with
    | nil =>
      rw [lowerAll] at h
      · obtain ⟨-, rfl⟩ := Prod.mk.inj (Except.ok.inj h)
        exact hb
      · simp
    | cons target targets =>
      rw [lowerAll] at h
      obtain ⟨⟨register, b₁⟩, hn, h⟩ := bind_eq_ok_iff.mp h
      obtain ⟨⟨registers, b₂⟩, htail, h⟩ := bind_eq_ok_iff.mp h
      obtain ⟨-, rfl⟩ := Prod.mk.inj (Except.ok.inj h)
      exact hrest (fun m hm => ih m (List.mem_cons_of_mem n hm)) htail
        (ih n (List.mem_cons_self ..) target b b₁ register hn hb)

/-- Lowering a tree without the applications that `p` tells keeps what its single steps keep. -/
theorem keeps_lower (hP : Builder.Keeps P p) {target : ValueType} {node : Node}
    {b b' : Builder} {result : Nat} (hnode : node.any p = false)
    (h : node.lower params target b = .ok (result, b')) (hb : P b) : P b' := by
  induction node using Node.induct generalizing target b b' result with
  | constant v text =>
    rw [lower] at h
    split at h
    · cases h
    · obtain ⟨⟨place, b₁⟩, hliteral, h⟩ := bind_eq_ok_iff.mp h
      obtain ⟨⟨dest, b₂⟩, hdest, h⟩ := bind_eq_ok_iff.mp h
      obtain ⟨-, rfl⟩ := Prod.mk.inj (Except.ok.inj h)
      exact hP.loadLiteral b₂ dest place (hP.allocate hdest (hP.addLiteral hliteral hb))
  | parameter id =>
    rw [lower] at h
    obtain ⟨place, -, h⟩ := bind_eq_ok_iff.mp h
    split at h
    · cases h
    · obtain ⟨⟨dest, b₁⟩, hdest, h⟩ := bind_eq_ok_iff.mp h
      have hload := hP.loadParameter b₁ dest place (hP.allocate hdest hb)
      dsimp only at h
      split at h
      · exact keeps_widen hP h hload
      · obtain ⟨-, rfl⟩ := Prod.mk.inj (Except.ok.inj h)
        exact hload
  | apply head operands typing ih =>
    rw [any, anyOf_eq_any, Bool.or_eq_false_iff, List.any_eq_false] at hnode
    obtain ⟨hhead, hoperands⟩ := hnode
    rw [lower] at h
    split at h
    · cases h
    · next hselected =>
      obtain ⟨⟨results, b₁⟩, hall, h⟩ := bind_eq_ok_iff.mp h
      obtain ⟨⟨dest, b₂⟩, hdest, h⟩ := bind_eq_ok_iff.mp h
      obtain ⟨b₃, happly, hwiden⟩ := bind_eq_ok_iff.mp h
      have hb₁ : P b₁ := keeps_lowerAll
        (fun n hn _ _ _ _ => ih n hn (Bool.eq_false_of_not_eq_true (hoperands n hn))) hall hb
      exact keeps_widen hP hwiden (hP.apply hhead hselected happly (hP.allocate hdest hb₁))

end

end Node

/-! ### The table of calls -/

namespace Builder

/-- No call of the table is random. -/
def Deterministic (b : Builder) : Prop :=
  ∀ call ∈ b.calls, call.function.isDeterministic = true

/-- Only the call of a random function puts one into the table. -/
theorem keeps_deterministic : Keeps Deterministic fun head _ => head.isRandom where
  addLiteral h hb := by
    obtain ⟨place, -, h⟩ := bind_eq_ok_iff.mp h
    obtain ⟨-, rfl⟩ := Prod.mk.inj (Except.ok.inj h)
    rw [putLiteral]
    split <;> exact hb
  allocate h hb := by
    obtain ⟨-, rfl⟩ := allocate_eq_ok h
    exact hb
  loadLiteral _ _ _ hb := hb
  loadParameter _ _ _ hb := hb
  convert _ _ _ _ hb := hb
  apply hhead _ h hb := by
    unfold emitApplication at h
    split at h
    case h_4 =>
      obtain ⟨⟨place, b₁⟩, hcall, h⟩ := bind_eq_ok_iff.mp h
      obtain rfl := Except.ok.inj h
      obtain ⟨-, rfl⟩ := addCall_eq_ok hcall
      intro call hmem
      rcases Array.mem_push.mp hmem with hmem | rfl
      · exact hb call hmem
      · simpa [Head.isRandom] using hhead
    all_goals cases h
    all_goals exact hb

end Builder

/-- Lowering a tree that calls no random function puts no random call into the table. -/
theorem Node.deterministic_lower {params : List Parameter} {target : ValueType} {node : Node}
    {b b' : Builder} {result : Nat} (hnode : node.isRandom = false)
    (h : node.lower params target b = .ok (result, b')) (hb : b.Deterministic) :
    b'.Deterministic :=
  keeps_lower Builder.keeps_deterministic hnode h hb

/-! ### Programs and expressions -/

namespace Program

variable (registry : Registry) (draws draws' : Draws) {p : Program}
  (hp : ∀ call ∈ p.calls, call.function.isDeterministic = true) (args : List Value)

include hp

theorem effect_draws (registers : Array Value) (instruction : Instruction) :
    p.effect registry draws args registers instruction =
      p.effect registry draws' args registers instruction := by
  cases instruction with
  | call index =>
    rw [effect, effect]
    split
    · rfl
    · next call hcall =>
      have hdraw := Function.eval_draw (hp call (Array.mem_of_getElem? hcall)) (draws index)
        (draws' index)
      simp only [hdraw]
  | _ => rfl

theorem execute_draws (instructions : List Instruction) (registers : Array Value) :
    p.execute registry draws args instructions registers =
      p.execute registry draws' args instructions registers := by
  induction instructions generalizing registers with
  | nil => rfl
  | cons instruction rest ih =>
    rw [execute, execute, p.effect_draws registry draws draws' hp]
    simp only [ih]

theorem run_draws : p.run registry draws args = p.run registry draws' args :=
  p.execute_draws registry draws draws' hp args _ _

end Program

namespace Expression

variable {body : Body} {types : List ValueType} {tolerance : Option Tolerance.Kind}
  {lowering : Lowering}

/-- What is lowered for arguments of given types is the tree that has been strongly determined for
them. -/
theorem exists_strengthen_of_lower (h : lower body types tolerance = .ok lowering) :
    ∃ target tree params result b,
      ((body.root.table (pin body.params types)).preferred? = some target ∧
        Node.strengthen target (body.root.retable (pin body.params types)) (pin body.params types) =
          (tree, params, none)) ∧
      Restricts body.root tree ∧ tree.lower params target {} = .ok (result, b) ∧
      lowering = { arguments := types, target, program := b.finish result tolerance } := by
  simp only [lower] at h
  split at h
  · cases h
  · next root hrefresh =>
    obtain ⟨-, rfl⟩ := Node.refresh_eq_iff.mp hrefresh
    split at h
    · cases h
    · next target htarget =>
      split at h
      · cases h
      · next tree params hstrengthen =>
        have htree := Node.restricts_strengthen target (body.root.retable (pin body.params types))
          (pin body.params types)
        rw [pin, hstrengthen] at htree
        split at h
        · cases h
        · next result b hlower =>
          exact ⟨target, tree, params, result, b, ⟨htarget, hstrengthen⟩,
            (Restricts.retable _ _).trans htree, hlower, (Except.ok.inj h).symm⟩

/-- What a tree that calls no random function is lowered to gives the same for all numbers
drawn. -/
theorem run_draws (hbody : body.root.isRandom = false) (h : lower body types tolerance = .ok lowering)
    (registry : Registry) (draws draws' : Draws) (args : List Value) :
    lowering.program.run registry draws args = lowering.program.run registry draws' args := by
  obtain ⟨target, tree, params, result, b, -, htree, hlower, rfl⟩ := exists_strengthen_of_lower h
  have hcalls : b.Deterministic := Node.deterministic_lower (htree.isRandom_eq.trans hbody) hlower
    (by simp [Builder.Deterministic])
  exact Program.run_draws registry draws draws' (p := b.finish result tolerance) hcalls args

end Expression

end Formula
