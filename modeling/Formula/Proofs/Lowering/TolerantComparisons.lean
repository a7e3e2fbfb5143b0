import Formula.Proofs.Folding.Evaluation
import Formula.Proofs.Lowering.Draws
import Formula.Proofs.Lowering.TypedRegisters

/-!
# Tolerant comparisons

Whether a tolerance matters is told in two ways. A tree heeds it if some comparison has an overload
left that compares numbers; an instruction heeds it if the overload that has been chosen for the
arguments compares numbers. The two agree. A tree that heeds no tolerance is lowered, for arguments of
any types, to instructions that heed none, so that one program serves all tolerances; and where an
instruction does heed the tolerance, it compares two numbers.

## Main definitions

* `Node.Assembled`: trees that are made by the constructors of applications.
* `Instruction.isTolerant`: whether an instruction heeds the tolerance.

## Main results

* `Node.exact_lower`: a tree that heeds no tolerance is lowered to instructions that heed none.
* `Program.run_tolerance`: such instructions do the same whatever the tolerance is.
* `Builder.Gives.isNumber_of_tolerant`: a tolerant instruction reads registers of numbers.
* `Expression.lower_tolerant`: all of it for the trees that expressions consist of.
-/

namespace Formula

/-- Whether the instruction is a comparison that heeds the tolerance. -/
def Instruction.isTolerant : Instruction → Bool
  | .compare _ _ _ _ tolerant => tolerant
  | _ => false

/-- Whether a comparison is applied that may compare numbers. -/
def Head.isTolerant (head : Head) (typing : Typing) : Bool :=
  match head with
  | .binary (.compare _) => typing.signatures.any Signature.comparesNumbers
  | _ => false

namespace Node

theorem isTolerant_eq_any : isTolerant = any Head.isTolerant := rfl

/-- Trees that are made by the constructors of applications, each over any parameters, and perhaps
folded. -/
inductive Assembled : Node → Prop
  | constant (v : Value) (text : String) : Assembled (constant v text)
  | parameter (id : Nat) : Assembled (parameter id)
  | unary {op : UnaryOp} {operand node : Node} {params params' : List Parameter}
      (hoperand : Assembled operand) (h : Node.unary op operand params = (.ok node, params')) :
      Assembled node
  | binary {op : BinaryOp} {left right node : Node} {params params' : List Parameter}
      (hleft : Assembled left) (hright : Assembled right)
      (h : Node.binary op left right params = (.ok node, params')) : Assembled node
  | call {f : Function} {args : List Node} {node : Node} {params params' : List Parameter}
      (hargs : ∀ n ∈ args, Assembled n) (h : Node.call f args params = (.ok node, params')) :
      Assembled node
  | fold {node : Node} (registry : Registry) (text : String) (h : Assembled node) :
      Assembled (node.fold registry text)

theorem formed_of_assemble {head : Head} {operands : List Node} {node : Node}
    {params params' : List Parameter} (hcount : head.takes operands.length)
    (hoperands : ∀ n ∈ operands, n.Formed) (h : assemble head operands params = (.ok node, params')) :
    node.Formed :=
  (restricts_assemble h).formed (.apply hcount (fun _ hs => hs) hoperands)

theorem Formed.fold {node : Node} (h : node.Formed) (registry : Registry) (text : String) :
    (node.fold registry text).Formed := by
  rw [Node.fold]
  split
  · split
    · exact .constant _ text
    · exact h
  · exact h

theorem Assembled.formed {node : Node} (h : node.Assembled) : node.Formed := by
  induction h with
  | constant v text => exact .constant v text
  | parameter id => exact .parameter id
  | @unary op operand _ _ _ _ h ih =>
    have hcount : (Head.unary op).takes [operand].length := rfl
    exact formed_of_assemble hcount (by simpa using ih) h
  | @binary op left right _ _ _ _ _ h ihl ihr =>
    have hcount : (Head.binary op).takes [left, right].length := rfl
    exact formed_of_assemble hcount (by simpa using ⟨ihl, ihr⟩) h
  | @call f args _ _ _ _ h ih =>
    have hcount : (Head.call f).takes args.length := trivial
    exact formed_of_assemble hcount ih h
  | fold registry text _ ih => exact ih.fold registry text

end Node

/-! ### Trees that heed no tolerance -/

/-- An overload that is settled on is one of those that are left. -/
theorem Typing.mem_of_selected? {typing : Typing} {target : ValueType} {s : Signature}
    (h : typing.selected? = some (target, s)) : s ∈ typing.signatures := by
  obtain ⟨⟨own, choice⟩, -, h⟩ := Option.bind_eq_some_iff.mp h
  obtain ⟨s', hs', h⟩ := Option.bind_eq_some_iff.mp h
  obtain ⟨-, rfl⟩ := Prod.mk.inj (Option.some.inj h)
  exact List.mem_of_getElem? hs'

/-- A tree with fewer overloads heeds no tolerance that the other one does not. -/
theorem Restricts.isTolerant_eq_false {u n : Node} (h : Restricts u n)
    (hu : u.isTolerant = false) : n.isTolerant = false := by
  rw [Node.isTolerant_eq_any] at hu ⊢
  induction h with
  | constant v text => rfl
  | parameter id => rfl
  | @apply head us ns tu tn hlen hsigs _ ih =>
    rw [Node.any, Node.anyOf_eq_any, Bool.or_eq_false_iff, List.any_eq_false] at hu ⊢
    refine ⟨?_, fun n hn => ?_⟩
    · have hhead := hu.1
      unfold Head.isTolerant at hhead ⊢
      split
      · rw [List.any_eq_false] at hhead ⊢
        exact fun s hs => hhead s (hsigs s hs)
      · rfl
    · obtain ⟨i, hi⟩ := List.mem_iff_getElem?.mp hn
      have hlt : i < us.length := hlen ▸ (List.getElem?_eq_some_iff.mp hi).1
      have hui : us[i]? = some us[i] := List.getElem?_eq_getElem hlt
      have hfalse := ih i _ n hui hi
        (Bool.eq_false_of_not_eq_true (hu.2 _ (List.mem_of_getElem? hui)))
      exact Bool.not_eq_true _ ▸ hfalse

namespace Builder

/-- No instruction heeds the tolerance. -/
def Exact (b : Builder) : Prop :=
  ∀ i ∈ b.instructions, i.isTolerant = false

theorem Exact.emit {b : Builder} (hb : b.Exact) {i : Instruction} (hi : i.isTolerant = false) :
    (b.emit i).Exact := by
  intro j hj
  rcases Array.mem_push.mp hj with hj | rfl
  · exact hb j hj
  · exact hi

/-- The overload that a comparison has settled on is one of those left, so that its instruction heeds
no tolerance unless the tree does. -/
theorem keeps_exact : Keeps Exact Head.isTolerant where
  addLiteral h hb := by
    obtain ⟨place, -, h⟩ := bind_eq_ok_iff.mp h
    obtain ⟨-, rfl⟩ := Prod.mk.inj (Except.ok.inj h)
    rw [putLiteral]
    split <;> exact hb
  allocate h hb := by
    obtain ⟨-, rfl⟩ := allocate_eq_ok h
    exact hb
  loadLiteral _ _ _ hb := hb.emit rfl
  loadParameter _ _ _ hb := hb.emit rfl
  convert _ _ _ _ hb := hb.emit rfl
  apply {b b' head typing target s dest operands} hhead hselected h hb := by
    unfold emitApplication at h
    split at h
    case h_3 op left right =>
      have hs : s ∈ typing.signatures := Typing.mem_of_selected? hselected
      obtain rfl := Except.ok.inj h
      refine hb.emit (Bool.eq_false_of_not_eq_true ?_)
      exact List.any_eq_false.mp hhead s hs
    case h_4 =>
      obtain ⟨⟨place, b₁⟩, hcall, h⟩ := bind_eq_ok_iff.mp h
      obtain rfl := Except.ok.inj h
      obtain ⟨-, rfl⟩ := addCall_eq_ok hcall
      exact Exact.emit hb rfl
    all_goals cases h
    all_goals exact hb.emit rfl

end Builder

/-- A tree that heeds no tolerance is lowered to instructions that heed none. -/
theorem Node.exact_lower {params : List Parameter} {target : ValueType} {node : Node}
    {b b' : Builder} {result : Nat} (hnode : node.isTolerant = false)
    (h : node.lower params target b = .ok (result, b')) (hb : b.Exact) : b'.Exact :=
  keeps_lower Builder.keeps_exact hnode h hb

namespace Program

section

variable (registry : Registry) (draws : Draws) {p : Program}
  (hp : ∀ i ∈ p.instructions, i.isTolerant = false) (args : List Value)
  (kind kind' : Option Tolerance.Kind)

theorem effect_tolerance {i : Instruction} (hi : i.isTolerant = false) (registers : Array Value) :
    { p with tolerance := kind }.effect registry draws args registers i =
      { p with tolerance := kind' }.effect registry draws args registers i := by
  cases i with
  | compare op dest left right tolerant =>
    obtain rfl : tolerant = false := hi
    have hcomparison (kind : Option Tolerance.Kind) (a b : Value) :
        { p with tolerance := kind }.comparison op false a b = op.apply a b := by
      cases kind <;> rfl
    simp only [effect, hcomparison]
  | _ => rfl

theorem execute_tolerance {instructions : List Instruction}
    (h : ∀ i ∈ instructions, i.isTolerant = false) (registers : Array Value) :
    { p with tolerance := kind }.execute registry draws args instructions registers =
      { p with tolerance := kind' }.execute registry draws args instructions registers := by
  induction instructions generalizing registers with
  | nil => rfl
  | cons i rest ih =>
    obtain ⟨hi, hrest⟩ := List.forall_mem_cons.mp h
    rw [execute, execute, effect_tolerance registry draws args kind kind' hi]
    simp only [ih hrest]

include hp

/-- Instructions that heed no tolerance do the same whatever it is. -/
theorem run_tolerance : { p with tolerance := kind }.run registry draws args =
    { p with tolerance := kind' }.run registry draws args :=
  execute_tolerance registry draws args kind kind' (fun i hi => hp i (Array.mem_def.mpr hi)) _

end

end Program

/-! ### Comparisons that heed the tolerance -/

theorem Value.isNumber_type (v : Value) : v.type.isNumber = v.isNumber := by
  cases v <;> rfl

/-- The two sides of a comparison have one type. -/
theorem Comparison.eq_of_result? {op : Comparison} {l r t : ValueType} (h : op.result? l r = some t) :
    l = r := by
  rw [result?, Option.ite_none_right_eq_some] at h
  exact h.1.1

/-- A tolerant comparison reads registers of numbers. -/
theorem Builder.Gives.isNumber_of_tolerant {params : List Parameter} {b : Builder}
    {types : List ValueType} {t : ValueType} {place dest left right : Nat} {op : Comparison}
    (h : b.Gives params types place t (.compare op dest left right true)) :
    ∃ own, types[left]? = some own ∧ types[right]? = some own ∧ own.isNumber = true := by
  generalize hi : Instruction.compare op dest left right true = i at h
  cases h with
  | @compare op left right l r t hl hr h =>
    obtain ⟨rfl, rfl, rfl, rfl, hnumber⟩ := Instruction.compare.inj hi
    obtain rfl := Comparison.eq_of_result? h
    exact ⟨l, hl, hr, hnumber.symm⟩
  | _ => cases hi

/-- When a tolerant comparison is executed, the registers that it reads hold numbers. -/
theorem Builder.Typed.isNumber_of_tolerant {params : List Parameter} {b : Builder}
    {types : List ValueType} (hb : b.Typed params types) {args : List Value}
    (hargs : Supplies params args) {result : Nat} {tolerance : Option Tolerance.Kind}
    {registry : Registry} {draws : Draws} {start registers : Array Value} {k : Nat}
    (h : (b.finish result tolerance).Reaches registry draws args start k registers)
    {op : Comparison} {dest left right : Nat}
    (hi : (b.finish result tolerance).instructions[k]? = some (.compare op dest left right true)) :
    ∃ x y, registers[left]? = some x ∧ registers[right]? = some y ∧ x.isNumber = true ∧
      y.isNumber = true := by
  have hholds := hb.holds hargs h
  rw [getElem?_finish] at hi
  split at hi
  · cases hi
  · have hk : k < types.length := hb.size ▸ (Array.getElem?_eq_some_iff.mp hi).1
    obtain ⟨own, hl, hr, hnumber⟩ :=
      (hb.gives k _ types[k] hi (List.getElem?_eq_getElem hk)).isNumber_of_tolerant
    obtain ⟨x, hx, rfl⟩ := hholds left own hl
    obtain ⟨y, hy, htype⟩ := hholds right _ hr
    refine ⟨x, y, hx, hy, x.isNumber_type ▸ hnumber, ?_⟩
    rw [← y.isNumber_type, htype, hnumber]

/-! ### Expressions -/

/-- A tree that heeds no tolerance is lowered, whatever the types of the arguments are, to a program
without tolerant comparisons, which gives the same for all tolerances. And where a program that is
lowered for arguments does compare with a tolerance, both values that are compared are numbers. -/
theorem Expression.lower_tolerant {node : Node} (hnode : node.Assembled) {params : List Parameter}
    {types : List ValueType} {tolerance : Option Tolerance.Kind} {lowering : Lowering}
    (h : lower ⟨node, params⟩ types tolerance = .ok lowering) :
    (node.isTolerant = false →
      (∀ i ∈ lowering.program.instructions, i.isTolerant = false) ∧
        ∀ kind registry draws args,
          { lowering.program with tolerance := kind }.run registry draws args =
            { lowering.program with tolerance := none }.run registry draws args) ∧
      ∀ kind registry draws args start k registers, args.map Value.type = types →
        { lowering.program with tolerance := kind }.Reaches registry draws args start k registers →
        ∀ op dest left right,
          lowering.program.instructions[k]? = some (.compare op dest left right true) →
            ∃ a b, registers[left]? = some a ∧ registers[right]? = some b ∧ a.isNumber = true ∧
              b.isNumber = true := by
  obtain ⟨target, tree, pinned, result, b, ⟨htarget, hstrengthen⟩, htree, hlower, rfl⟩ :=
    exists_strengthen_of_lower h
  refine ⟨fun hexact => ?_, ?_⟩
  · have hinstructions : ∀ i ∈ (b.finish result tolerance).instructions, i.isTolerant = false := by
      have hb : b.Exact := Node.exact_lower (htree.isTolerant_eq_false hexact) hlower
        (by simp [Builder.Exact])
      exact hb.emit (i := .ret result) rfl
    exact ⟨hinstructions, fun kind registry draws args =>
      Program.run_tolerance registry draws hinstructions args kind none⟩
  · rintro kind registry draws args start k registers rfl hreaches op dest left right hi
    have htypes : .unknown ∉ args.map Value.type := by
      rw [List.mem_map]
      rintro ⟨v, -, hv⟩
      exact v.type_ne_unknown hv
    obtain ⟨hkept, hsettled⟩ := Node.strengthen_retable (pinned_pin htypes) hnode.formed
      (CostTable.isSome_get?_of_preferred? htarget)
    rw [hstrengthen] at hkept hsettled
    obtain rfl : pinned = pin params (args.map Value.type) := (Prod.mk.inj hkept).1
    obtain ⟨types', -, hb, -⟩ := hsettled.typed (Builder.typed_empty _) hlower
    have hfinished : (b.finish result kind).Reaches registry draws args start k registers := hreaches
    exact hb.isNumber_of_tolerant supplies_pin hfinished hi

/-- Two strings are compared exactly; an integer and a double are compared as doubles, and heed the
tolerance. -/
theorem Expression.lower_tolerant_comparisons :
    (∃ node params lowering, node.Assembled ∧ node.isTolerant = false ∧
      lower ⟨node, params⟩ [.string, .string] none = .ok lowering ∧
      lowering.program.instructions =
        #[.loadParameter 0 0, .loadParameter 1 1, .compare .eq 2 0 1 false, .ret 2] ∧
      ∀ kind registry draws args, { lowering.program with tolerance := kind }.run registry draws args =
        { lowering.program with tolerance := none }.run registry draws args) ∧
    ∃ node params lowering, node.Assembled ∧
      lower ⟨node, params⟩ [.integer, .numeric] none = .ok lowering ∧
      lowering.program.instructions = #[.loadParameter 0 0, .convert 1 0 .numeric,
        .loadParameter 2 1, .compare .lt 3 1 2 true, .ret 3] ∧
      ∀ kind registry draws, ∃ registers,
        { lowering.program with tolerance := kind }.Reaches registry draws [.integer 1, .numeric 2]
          (Array.replicate 4 (.boolean false)) 3 registers ∧
        ∃ a b, registers[1]? = some a ∧ registers[2]? = some b ∧ a.isNumber = true ∧
          b.isNumber = true := by
  let strings : List Parameter := [⟨"x", TypeMask.of .string⟩, ⟨"y", TypeMask.of .string⟩]
  let any : List Parameter := [⟨"x", TypeMask.all⟩, ⟨"y", TypeMask.all⟩]
  have hexact : (do
      let node ← (Node.binary (.compare .eq) (.parameter 0) (.parameter 1) strings).1.toOption
      let lowering ← (lower ⟨node, strings⟩ [.string, .string] none).toOption
      return (node.isTolerant, lowering.program.instructions)) =
        some (false, #[.loadParameter 0 0, .loadParameter 1 1, .compare .eq 2 0 1 false, .ret 2]) := by
    decide +kernel
  have htolerant : (do
      let node ← (Node.binary (.compare .lt) (.parameter 0) (.parameter 1) any).1.toOption
      let lowering ← (lower ⟨node, any⟩ [.integer, .numeric] none).toOption
      return lowering.program.instructions) = some #[.loadParameter 0 0, .convert 1 0 .numeric,
        .loadParameter 2 1, .compare .lt 3 1 2 true, .ret 3] := by
    decide +kernel
  constructor
  · obtain ⟨node, hnode, hrest⟩ := Option.bind_eq_some_iff.mp hexact
    obtain ⟨lowering, hlower, hrest⟩ := Option.bind_eq_some_iff.mp hrest
    obtain ⟨hflag, hinstructions⟩ := Prod.mk.inj (Option.some.inj hrest)
    have hassembled : node.Assembled :=
      .binary (.parameter 0) (.parameter 1) (Prod.ext (Term.eq_ok_of_toOption hnode) rfl)
    obtain ⟨-, hrun⟩ := (lower_tolerant hassembled (Term.eq_ok_of_toOption hlower)).1 hflag
    exact ⟨node, strings, lowering, hassembled, hflag, Term.eq_ok_of_toOption hlower, hinstructions, hrun⟩
  · obtain ⟨node, hnode, hrest⟩ := Option.bind_eq_some_iff.mp htolerant
    obtain ⟨lowering, hlower, hrest⟩ := Option.bind_eq_some_iff.mp hrest
    have hinstructions := Option.some.inj hrest
    have hassembled : node.Assembled :=
      .binary (.parameter 0) (.parameter 1) (Prod.ext (Term.eq_ok_of_toOption hnode) rfl)
    have hget (k : Nat) : lowering.program.instructions[k]? = #[.loadParameter 0 0,
        .convert 1 0 .numeric, .loadParameter 2 1, .compare .lt 3 1 2 true, .ret 3][k]? :=
      congrArg (·[k]?) hinstructions
    refine ⟨node, any, lowering, hassembled, Term.eq_ok_of_toOption hlower, hinstructions,
      fun kind registry draws => ?_⟩
    have hfirst : { lowering.program with tolerance := kind }.Reaches registry draws
        [.integer 1, .numeric 2] (Array.replicate 4 (.boolean false)) 1
        #[.integer 1, .boolean false, .boolean false, .boolean false] :=
      .step .start (hget 0) rfl rfl
    have hsecond : { lowering.program with tolerance := kind }.Reaches registry draws
        [.integer 1, .numeric 2] (Array.replicate 4 (.boolean false)) 2
        #[.integer 1, .numeric (Binary64.ofInteger 1), .boolean false, .boolean false] :=
      .step hfirst (hget 1) rfl rfl
    have hthird : { lowering.program with tolerance := kind }.Reaches registry draws
        [.integer 1, .numeric 2] (Array.replicate 4 (.boolean false)) 3
        #[.integer 1, .numeric (Binary64.ofInteger 1), .numeric 2, .boolean false] :=
      .step hsecond (hget 2) rfl rfl
    exact ⟨_, hthird, (lower_tolerant hassembled (Term.eq_ok_of_toOption hlower)).2 kind registry
      draws _ _ 3 _ rfl hthird .lt 3 1 2 (hget 3)⟩

end Formula
