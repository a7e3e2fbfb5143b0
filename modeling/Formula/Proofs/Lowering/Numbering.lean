import Mathlib.Data.Nat.Basic
import Mathlib.Order.Basic
import Formula.Proofs.Lowering.Soundness

/-!
# Registers are numbered in turn

Every instruction of a tree writes a register of its own, the next one, and reads only registers that
were written before. Every entry in the tables of literals and calls has an instruction of its own, so
that the registers run out first. The number of registers that a tree takes is known before it is
lowered: one for each node, and one more for each result that has to be converted. So a tree is lowered
just if there are as many.

## Main definitions

* `Builder.Defines`: an instruction writes a register, and reads only registers before it.
* `Builder.Numbered`: the instructions write the registers in turn.
* `Builder.Takes`: an outcome takes a number of registers, or fails because there are not as many.
* `Lowerable`: every application has settled on an overload, and every parameter has one type.
* `Node.registers`: the number of nodes and of conversions of a tree.

## Main results

* `Lowerable.takes`: the number of registers that a tree takes.
* `Node.lower_strengthen`: the registers that a strongly determined tree is lowered to.
-/

namespace Formula

/-! ### Numbered instructions -/

namespace Builder

/-- The instruction writes the register `dest`, and reads only registers before it. Its literal or its
call stands in the table. -/
inductive Defines (b : Builder) (dest : Nat) : Instruction → Prop
  | loadLiteral {index : Nat} (h : index < b.literals.size) : Defines b dest (.loadLiteral dest index)
  | loadParameter {index : Nat} (h : index ≤ maxIndex) : Defines b dest (.loadParameter dest index)
  | convert {source : Nat} (h : source < dest) (target : ValueType) :
      Defines b dest (.convert dest source target)
  | operate (op : Operation) {left right : Nat} (hleft : left < dest) (hright : right < dest) :
      Defines b dest (.operate op dest left right)
  | compare (op : Comparison) {left right : Nat} (hleft : left < dest) (hright : right < dest)
      (tolerant : Bool) : Defines b dest (.compare op dest left right tolerant)
  | unary (op : UnaryOp) {source : Nat} (h : source < dest) : Defines b dest (.unary op dest source)
  | call {index : Nat} {f : Function} {args : List Nat}
      (hcall : b.calls[index]? = some ⟨dest, f, args⟩) (hargs : ∀ r ∈ args, r < dest) :
      Defines b dest (.call index)

/-- Instructions are kept when more are emitted. -/
theorem Defines.of_emits {b b' : Builder} {code : List Instruction} {dest : Nat} {i : Instruction}
    (h : b.Defines dest i) (he : b.Emits b' code) : b'.Defines dest i := by
  cases h with
  | loadLiteral h =>
    have := he.literals _ _ (Array.getElem?_eq_getElem h)
    exact .loadLiteral (Array.getElem?_eq_some_iff.mp this).1
  | loadParameter h => exact .loadParameter h
  | convert h target => exact .convert h target
  | operate op hleft hright => exact .operate op hleft hright
  | compare op hleft hright tolerant => exact .compare op hleft hright tolerant
  | unary op h => exact .unary op h
  | call hcall hargs => exact .call (he.calls _ _ hcall) hargs

/-- The instructions write the registers in turn, there is an index for each register, and the tables
are no longer than the registers are many. -/
structure Numbered (b : Builder) : Prop where
  size : b.instructions.size = b.registers
  defines : ∀ (k : Nat) i, b.instructions[k]? = some i → b.Defines k i
  sound : b.Sound
  room : b.registers ≤ maxIndex + 1
  literals : b.literals.size ≤ b.registers
  calls : b.calls.size ≤ b.registers

theorem numbered_empty : ({} : Builder).Numbered where
  size := rfl
  defines k i h := by simp at h
  sound := sound_empty
  room := Nat.zero_le _
  literals := Nat.le_refl _
  calls := Nat.le_refl _

/-- An instruction that defines the next register, and adds to the tables one entry at most. -/
theorem Numbered.step {b b' : Builder} {i : Instruction} (hb : b.Numbered)
    (hroom : b.registers ≤ maxIndex) (he : b.Emits b' [i]) (hi : b'.Defines b.registers i)
    (hsound : b'.Sound) (hregisters : b'.registers = b.registers + 1)
    (hliterals : b'.literals.size ≤ b.literals.size + 1) (hcalls : b'.calls.size ≤ b.calls.size + 1) :
    b'.Numbered where
  size := by
    have hlength := congrArg List.length he.instructions
    rw [List.length_append, Array.length_toList, Array.length_toList] at hlength
    rw [hlength, hb.size, hregisters]
    rfl
  defines k j hj := by
    rw [← Array.getElem?_toList, he.instructions] at hj
    rcases Nat.lt_trichotomy k b.instructions.toList.length with hlt | rfl | hgt
    · rw [List.getElem?_append_left hlt, Array.getElem?_toList] at hj
      exact (hb.defines k j hj).of_emits he
    · rw [List.getElem?_concat_length] at hj
      obtain rfl := Option.some.inj hj
      rwa [Array.length_toList, hb.size]
    · rw [List.getElem?_eq_none (by rw [List.length_append]; exact hgt)] at hj
      cases hj
  sound := hsound
  room := by omega
  literals := by
    have := hb.literals
    omega
  calls := by
    have := hb.calls
    omega

/-! ### Running out of registers -/

theorem allocate_of_le {b : Builder} (h : b.registers ≤ maxIndex) :
    b.allocate = .ok (b.registers, { b with registers := b.registers + 1 }) := by
  rw [allocate, index_eq_ok_iff.mpr ⟨h, rfl⟩]
  rfl

theorem registers_putLiteral (b : Builder) (v : Value) (place : Nat) :
    (b.putLiteral v place).registers = b.registers := by
  rw [putLiteral]
  split <;> rfl

theorem exists_addLiteral {b : Builder} (h : b.literals.size ≤ maxIndex) (v : Value) :
    ∃ place b', b.addLiteral v = .ok (place, b') ∧ b'.registers = b.registers ∧
      b'.calls = b.calls ∧ b'.literals.size ≤ b.literals.size + 1 := by
  have hput (place : Nat) : (b.putLiteral v place).calls = b.calls ∧
      (b.putLiteral v place).literals.size ≤ b.literals.size + 1 := by
    rw [putLiteral]
    split
    · exact ⟨rfl, Nat.le_succ _⟩
    · exact ⟨rfl, by simp⟩
  obtain ⟨place, hplace⟩ : ∃ place, b.literalPlace v = .ok place := by
    rw [literalPlace]
    split
    · exact ⟨_, rfl⟩
    · exact ⟨_, index_eq_ok_iff.mpr ⟨h, rfl⟩⟩
  refine ⟨place, b.putLiteral v place, ?_, b.registers_putLiteral v place, hput place⟩
  rw [addLiteral, hplace]
  rfl

theorem allocate_of_lt {b : Builder} (h : maxIndex < b.registers) :
    b.allocate = .error .registerLimitExceeded := by
  rw [allocate, index, if_neg (Nat.not_le.mpr h)]
  rfl

/-- The outcome takes a number of registers and gives a builder in which what is said holds, or fails
because there are not as many registers. -/
inductive Takes {α : Type} (b : Builder) (count : Nat) (holds : Builder → α → Prop) :
    Except MachineFault (α × Builder) → Prop
  | fits {a : α} {b' : Builder} (hregisters : b'.registers = b.registers + count)
      (hnumbered : b'.Numbered) (h : holds b' a) : Takes b count holds (.ok (a, b'))
  | exceeds (h : maxIndex + 1 < b.registers + count) :
      Takes b count holds (.error .registerLimitExceeded)

namespace Takes

variable {α β : Type} {b b' : Builder} {m n : Nat} {holds : Builder → α → Prop}
  {holds' : Builder → β → Prop} {outcome : Except MachineFault (α × Builder)}

theorem pure {a : α} (hb : b.Numbered) (h : holds b a) : Takes b 0 holds (.ok (a, b)) :=
  .fits rfl hb h

/-- What comes after some registers have been taken. -/
theorem add (hregisters : b'.registers = b.registers + m) (h : Takes b' n holds outcome) :
    Takes b (m + n) holds outcome := by
  cases h with
  | fits hregisters' hnumbered h => exact .fits (by omega) hnumbered h
  | exceeds h => exact .exceeds (by omega)

/-- What is said of the outcome may use that the registers have grown. -/
theorem mono {holds' : Builder → α → Prop} (h : Takes b m holds outcome)
    (himp : ∀ a b', b'.registers = b.registers + m → holds b' a → holds' b' a) :
    Takes b m holds' outcome := by
  cases h with
  | fits hregisters hnumbered h => exact .fits hregisters hnumbered (himp _ _ hregisters h)
  | exceeds h => exact .exceeds h

/-- One outcome after another. -/
theorem bind {f : α × Builder → Except MachineFault (β × Builder)} (h : Takes b m holds outcome)
    (hf : ∀ a b', b'.Numbered → holds b' a → Takes b' n holds' (f (a, b'))) :
    Takes b (m + n) holds' (outcome >>= f) := by
  cases h with
  | fits hregisters hnumbered h => exact (hf _ _ hnumbered h).add hregisters
  | exceeds h => exact .exceeds (by omega)

/-- Whether there are enough registers decides on the outcome. -/
theorem eq_error_iff (h : Takes b m holds outcome) :
    outcome = .error .registerLimitExceeded ↔ maxIndex + 1 < b.registers + m := by
  cases h with
  | fits hregisters hnumbered h =>
    have := hnumbered.room
    exact iff_of_false (by simp) (by omega)
  | exceeds h => exact iff_of_true rfl h

end Takes

/-! ### The steps of lowering -/

section Steps

variable {b : Builder} (hb : b.Numbered)
include hb

/-- A register for an instruction without an entry in a table. -/
theorem Numbered.takes_emit {i : Nat → Instruction} (hi : b.Defines b.registers (i b.registers)) :
    b.Takes 1 (fun b' r => r < b'.registers)
      (b.allocate >>= fun p => .ok (p.1, p.2.emit (i p.1))) := by
  rcases Nat.lt_or_ge maxIndex b.registers with hfull | hroom
  · rw [allocate_of_lt hfull]
    exact .exceeds (by omega)
  · have hallocate := allocate_of_le hroom
    have he := (emits_allocate hallocate).trans (emits_emit _ (i b.registers))
    rw [hallocate]
    exact .fits rfl (hb.step hroom he (hi.of_emits he) hb.sound rfl (Nat.le_succ _) (Nat.le_succ _))
      (Nat.lt_succ_self _)

/-- A conversion takes a register if there is something to convert. -/
theorem Numbered.takes_widen {register : Nat} (hregister : register < b.registers)
    (own target : ValueType) :
    b.Takes (if own = target then 0 else 1) (fun b' r => r < b'.registers)
      (b.widen register own target) := by
  rw [widen]
  split
  · exact .pure hb hregister
  · exact hb.takes_emit (i := fun dest => .convert dest register target) (.convert hregister target)

/-- A literal takes a register, whether it is new in the table or not. -/
theorem Numbered.takes_literal (v : Value) :
    b.Takes 1 (fun b' r => r < b'.registers)
      (b.addLiteral v >>= fun p => p.2.allocate >>= fun q =>
        .ok (q.1, q.2.emit (.loadLiteral q.1 p.1))) := by
  rcases Nat.lt_or_ge maxIndex b.registers with hfull | hroom
  · cases hliteral : b.addLiteral v with
    | error fault =>
      rw [addLiteral_error hliteral]
      exact .exceeds (by omega)
    | ok p =>
      obtain ⟨-, -, -, hregisters, -⟩ := addLiteral_eq_ok hb.sound hliteral
      rw [← hregisters] at hfull
      simp only [ok_bind, allocate_of_lt hfull]
      exact .exceeds (by omega)
  · obtain ⟨place, b₁, hliteral, -⟩ := exists_addLiteral (Nat.le_trans hb.literals hroom) v
    obtain ⟨hsound, he, hplace, hregisters, hcalls, hgrown⟩ := addLiteral_eq_ok hb.sound hliteral
    have hallocate := allocate_of_le (hregisters ▸ hroom)
    have he' := he.trans ((emits_allocate hallocate).trans (emits_emit _ (.loadLiteral b₁.registers place)))
    obtain ⟨w, hw, -⟩ := hsound _ _ hplace
    have hsize : b₁.literals.size ≤ b.literals.size + 1 := by
      rcases hgrown with rfl | hpush
      · exact Nat.le_succ _
      · exact (congrArg Array.size hpush).trans_le (Array.size_push ..).le
    rw [hliteral]
    simp only [ok_bind, hallocate]
    refine .fits (by rw [← hregisters]; rfl) (hb.step hroom he' ?_ hsound (by rw [← hregisters]; rfl)
      hsize (by rw [← hcalls]; exact Nat.le_succ _)) (Nat.lt_succ_self _)
    rw [← hregisters]
    exact .loadLiteral (Array.getElem?_eq_some_iff.mp hw).1

/-- An application takes a register for its result, and one more if it has to be converted. -/
theorem Numbered.takes_apply {head : Head} {operands : List Nat} (hcount : head.takes operands.length)
    (hoperands : ∀ r ∈ operands, r < b.registers) (s : Signature) (target : ValueType) :
    b.Takes (1 + if s.result = target then 0 else 1) (fun b' r => r < b'.registers)
      (b.allocate >>= fun p => p.2.emitApplication head s p.1 operands >>= fun b' =>
        b'.widen p.1 s.result target) := by
  rcases Nat.lt_or_ge maxIndex b.registers with hfull | hroom
  · rw [allocate_of_lt hfull]
    exact .exceeds (by omega)
  have hallocate := allocate_of_le hroom
  rw [hallocate]
  simp only [ok_bind]
  -- The instruction of the head, and what is known of the builder after it.
  obtain ⟨b₁, hemit, hregisters, hnumbered⟩ : ∃ b₁,
      { b with registers := b.registers + 1 }.emitApplication head s b.registers operands = .ok b₁ ∧
        b₁.registers = b.registers + 1 ∧ b₁.Numbered := by
    have hemits (i : Instruction) := (emits_allocate hallocate).trans (emits_emit _ i)
    have hstep {i : Instruction} (hi : b.Defines b.registers i) :
        ({ b with registers := b.registers + 1 }.emit i).Numbered :=
      hb.step hroom (hemits i) (hi.of_emits (hemits i)) hb.sound rfl (Nat.le_succ _) (Nat.le_succ _)
    match head with
    | .unary op =>
      obtain ⟨x, rfl⟩ := List.length_eq_one_iff.mp hcount
      exact ⟨_, rfl, rfl, hstep (.unary op (hoperands x (by simp)))⟩
    | .binary op =>
      obtain ⟨x, y, rfl⟩ := List.length_eq_two.mp hcount
      have hx := hoperands x (by simp)
      have hy := hoperands y (by simp)
      cases op with
      | operate op => exact ⟨_, rfl, rfl, hstep (.operate op hx hy)⟩
      | compare op => exact ⟨_, rfl, rfl, hstep (.compare op hx hy s.comparesNumbers)⟩
    | .call f =>
      have hplace : index b.calls.size = .ok b.calls.size :=
        index_eq_ok_iff.mpr ⟨Nat.le_trans hb.calls hroom, rfl⟩
      have hcall : { b with registers := b.registers + 1 }.addCall ⟨b.registers, f, operands⟩ =
          .ok (b.calls.size, { b with
            registers := b.registers + 1, calls := b.calls.push ⟨b.registers, f, operands⟩ }) := by
        rw [addCall, hplace]
        rfl
      have he := (emits_allocate hallocate).trans ((emits_addCall hcall).trans
        (emits_emit _ (.call b.calls.size)))
      have hfound : (b.calls.push ⟨b.registers, f, operands⟩)[b.calls.size]? =
          some ⟨b.registers, f, operands⟩ := by simp
      exact ⟨_, by rw [emitApplication, hcall]; rfl, rfl, hb.step hroom he (.call hfound hoperands)
        hb.sound rfl (Nat.le_succ _) (by simp [emit])⟩
  rw [hemit]
  exact (hnumbered.takes_widen (by omega) s.result target).add hregisters

end Steps

end Builder

/-! ### Trees that can be lowered -/

/-- Every application has settled on an overload, every constant can be converted, and every parameter
has an index and one type. -/
inductive Lowerable (params : List Parameter) : ValueType → Node → Prop
  | constant {target : ValueType} {v : Value} {text : String}
      (hconv : (conversionCost? v.type target).isSome) : Lowerable params target (.constant v text)
  | parameter {target own : ValueType} {id : Nat} {p : Parameter} (hid : id ≤ maxIndex)
      (hp : params[id]? = some p) (hown : p.supported.single? = some own) :
      Lowerable params target (.parameter id)
  | apply {target asked : ValueType} {head : Head} {operands : List Node} {typing : Typing}
      {s : Signature} (hcount : head.takes operands.length)
      (hselected : typing.selected? = some (asked, s)) (hlen : s.args.length = operands.length)
      (hoperands : ∀ (i : Nat) t n, s.args[i]? = some t → operands[i]? = some n →
        Lowerable params t n) :
      Lowerable params target (.apply head operands typing)

namespace Node

mutual

/-- Number of the parameters and applications whose own type is not the one required of them. -/
def converted (params : List Parameter) (target : ValueType) : Node → Nat
  | constant _ _ => 0
  | parameter id =>
    match params[id]?.bind fun p => p.supported.single? with
    | some own => if own = target then 0 else 1
    | none => 0
  | apply _ operands typing =>
    match typing.selected? with
    | some (_, s) => convertedAll params s.args operands + if s.result = target then 0 else 1
    | none => 0

/-- Number of conversions of operands, each with the type required of it. -/
def convertedAll (params : List Parameter) : List ValueType → List Node → Nat
  | target :: targets, n :: rest => converted params target n + convertedAll params targets rest
  | _, _ => 0

end

/-- Number of the nodes and the conversions of a tree. -/
def registers (params : List Parameter) (target : ValueType) (node : Node) : Nat :=
  node.size + node.converted params target

theorem takes_lowerAll {params : List Parameter} {targets : List ValueType} {nodes : List Node}
    (hlen : targets.length = nodes.length)
    (h : ∀ (i : Nat) t n, targets[i]? = some t → nodes[i]? = some n → ∀ b : Builder, b.Numbered →
      b.Takes (n.registers params t) (fun b' r => r < b'.registers) (n.lower params t b))
    {b : Builder} (hb : b.Numbered) :
    b.Takes (sizeAll nodes + convertedAll params targets nodes)
      (fun b' rs => rs.length = nodes.length ∧ ∀ r ∈ rs, r < b'.registers)
      (lowerAll params targets nodes b) := by
  induction nodes generalizing targets b with
  | nil =>
    obtain rfl := List.eq_nil_of_length_eq_zero hlen
    rw [lowerAll]
    exact .pure hb ⟨rfl, by simp⟩
  | cons n rest ih =>
    obtain _ | ⟨t, targets⟩ := targets
    · simp at hlen
    have hsum : sizeAll (n :: rest) + convertedAll params (t :: targets) (n :: rest) =
        n.registers params t + (sizeAll rest + convertedAll params targets rest + 0) := by
      rw [sizeAll, convertedAll, registers]
      omega
    rw [lowerAll, hsum]
    refine (h 0 t n rfl rfl b hb).bind fun r b₁ hb₁ hr => ?_
    have hrest := ih (by simpa using hlen) (fun i t m ht hm =>
      h (i + 1) t m (by simpa using ht) (by simpa using hm)) hb₁
    -- The registers before those of the rest stay below the next one.
    have hgrows : b₁.Takes (sizeAll rest + convertedAll params targets rest)
        (fun b' rs => (rs.length = rest.length ∧ ∀ r ∈ rs, r < b'.registers) ∧ r < b'.registers)
        (lowerAll params targets rest b₁) :=
      hrest.mono fun rs b' hregisters hrs => ⟨hrs, by omega⟩
    refine hgrows.bind fun rs b₂ hb₂ hrs => .pure hb₂ ⟨?_, ?_⟩
    · rw [List.length_cons, List.length_cons, hrs.1.1]
    · exact List.forall_mem_cons.mpr ⟨hrs.2, hrs.1.2⟩

end Node

/-- A tree takes as many registers as it has nodes and conversions. -/
theorem Lowerable.takes {params : List Parameter} {t : ValueType} {node : Node}
    (h : Lowerable params t node) {b : Builder} (hb : b.Numbered) :
    b.Takes (node.registers params t) (fun b' r => r < b'.registers) (node.lower params t b) := by
  induction h generalizing b with
  | @constant target v text hconv =>
    obtain ⟨w, hw, -⟩ := Value.exists_convert hconv
    rw [Node.lower, hw, Node.registers, Node.size, Node.converted]
    exact hb.takes_literal w
  | @parameter target own id p hid hp hown =>
    have hlower : (Node.parameter id).lower params target b =
        (b.allocate >>= fun p => .ok (p.1, p.2.emit (.loadParameter p.1 id))) >>= fun p =>
          p.2.widen p.1 own target := by
      rw [Node.lower, Builder.index_eq_ok_iff.mpr ⟨hid, rfl⟩]
      simp only [hp, ok_bind]
      cases b.allocate with
      | error fault => rfl
      | ok q => simp only [hown, ok_bind]
    rw [hlower, Node.registers, Node.size, Node.converted, hp, Option.bind_some, hown]
    exact (hb.takes_emit (i := fun dest => .loadParameter dest id) (.loadParameter hid)).bind
      fun r b' hb' hr => hb'.takes_widen hr own target
  | @apply target asked head operands typing s hcount hselected hlen _ ih =>
    have hsum : (Node.apply head operands typing).registers params target =
        Node.sizeAll operands + Node.convertedAll params s.args operands +
          (1 + if s.result = target then 0 else 1) := by
      rw [Node.registers, Node.size, Node.converted, hselected]
      dsimp only
      omega
    rw [hsum, Node.lower, hselected]
    refine (Node.takes_lowerAll hlen (fun i t n ht hn b hb => ih i t n ht hn hb) hb).bind
      fun rs b' hb' hrs => ?_
    exact hb'.takes_apply (hrs.1 ▸ hcount) hrs.2 s target

/-! ### Strongly determined trees -/

namespace Node

/-- Every parameter of the tree has an index and one type. -/
inductive SingleTyped (params : List Parameter) : Node → Prop
  | constant (v : Value) (text : String) : SingleTyped params (constant v text)
  | parameter {id : Nat} {p : Parameter} {own : ValueType} (hid : id ≤ maxIndex)
      (hp : params[id]? = some p) (hown : p.supported.single? = some own) :
      SingleTyped params (parameter id)
  | apply {head : Head} {operands : List Node} {typing : Typing}
      (hoperands : ∀ n ∈ operands, SingleTyped params n) :
      SingleTyped params (apply head operands typing)

/-- Each operand is made to produce the type required of it. -/
theorem strengthenAll_ok {targets : List ValueType} {nodes nodes' : List Node}
    {params params' : List Parameter} (hlen : targets.length = nodes.length)
    (h : strengthenAll targets nodes params = (nodes', params', none)) :
    nodes'.length = nodes.length ∧
      ∀ (i : Nat) t n', targets[i]? = some t → nodes'[i]? = some n' →
        ∃ n ∈ nodes, ∃ before after, strengthen t n before = (n', after, none) := by
  induction nodes generalizing targets params nodes' with
  | nil =>
    rw [strengthenAll] at h
    obtain ⟨rfl, -⟩ := Prod.mk.inj h
    exact ⟨rfl, fun i t n' _ hn' => by simp at hn'⟩
  | cons n rest ih =>
    obtain _ | ⟨target, targets⟩ := targets
    · simp at hlen
    rw [strengthenAll] at h
    split at h
    · cases (Prod.mk.inj (Prod.mk.inj h).2).2
    · next n₁ params₁ hn =>
      rcases hall : strengthenAll targets rest params₁ with ⟨rest', params₂, fault⟩
      rw [hall] at h
      obtain ⟨rfl, hends⟩ := Prod.mk.inj h
      obtain ⟨rfl, rfl⟩ := Prod.mk.inj hends
      obtain ⟨hlength, hrest⟩ := ih (by simpa using hlen) hall
      refine ⟨by rw [List.length_cons, List.length_cons, hlength], fun i t n' ht hn' => ?_⟩
      cases i with
      | zero =>
        obtain rfl := Option.some.inj ht
        obtain rfl := Option.some.inj hn'
        exact ⟨n, List.mem_cons_self .., params, params₁, hn⟩
      | succ i =>
        obtain ⟨m, hm, hstrong⟩ := hrest i t n' ht hn'
        exact ⟨m, List.mem_cons_of_mem n hm, hstrong⟩

/-- A strongly determined tree can be lowered. -/
theorem lowerable_strengthen {node tree : Node} (hformed : node.Formed) {target : ValueType}
    {before after params : List Parameter} (hstrong : strengthen target node before = (tree, after, none))
    (htyped : tree.SingleTyped params) : Lowerable params target tree := by
  induction node using Node.induct generalizing target before after tree with
  | constant v text =>
    rw [strengthen] at hstrong
    obtain ⟨rfl, hstrong⟩ := Prod.mk.inj hstrong
    refine .constant (Option.isSome_iff_ne_none.mpr fun hnone => ?_)
    have hfault := (Prod.mk.inj hstrong).2
    rw [hnone] at hfault
    cases hfault
  | parameter id =>
    have htree : tree = parameter id := by
      rw [strengthen] at hstrong
      split at hstrong <;> exact (Prod.mk.inj hstrong).1.symm
    subst htree
    cases htyped with
    | parameter hid hp hown => exact .parameter hid hp hown
  | apply head operands typing ih =>
    rw [strengthen] at hstrong
    split at hstrong
    · cases (Prod.mk.inj (Prod.mk.inj hstrong).2).2
    · next cost hcost =>
      split at hstrong
      · cases (Prod.mk.inj (Prod.mk.inj hstrong).2).2
      · next s hs =>
        rcases hoperands : strengthenAll s.args operands before with ⟨operands', params', fault⟩
        rw [hoperands] at hstrong
        obtain ⟨rfl, hends⟩ := Prod.mk.inj hstrong
        obtain ⟨rfl, rfl⟩ := Prod.mk.inj hends
        have hlen := hformed.length_args (List.mem_of_getElem? hs)
        cases hformed with
        | apply hcount hsigs hformed =>
        cases htyped with
        | apply htyped =>
        obtain ⟨hlength, hall⟩ := strengthenAll_ok hlen hoperands
        have hselected : Typing.selected? { typing with chosen := some (target, cost.choice) } =
            some (target, s) := by
          simp [Typing.selected?, hs]
        refine .apply (hlength.symm ▸ hcount) hselected (hlen.trans hlength.symm) fun i t n' ht hn' => ?_
        obtain ⟨n, hn, p, q, hstrong⟩ := hall i t n' ht hn'
        exact ih n hn (hformed n hn) hstrong (htyped n' (List.mem_of_getElem? hn'))

/-- The limit of registers is exact. A strongly determined tree whose parameters have one type each is
lowered just if there are registers for all its nodes and conversions. They are numbered in turn then,
and so are the instructions that write them; otherwise the limit is reported. -/
theorem lower_strengthen {node tree : Node} (hformed : node.Formed) {target : ValueType}
    {before params : List Parameter} (hstrong : strengthen target node before = (tree, params, none))
    (htyped : tree.SingleTyped params) :
    (tree.registers params target ≤ maxIndex + 1 →
        ∃ result b, tree.lower params target {} = .ok (result, b) ∧
          b.registers = tree.registers params target ∧ result < b.registers ∧ b.Numbered) ∧
      (maxIndex + 1 < tree.registers params target →
        tree.lower params target {} = .error .registerLimitExceeded) := by
  have htakes := (lowerable_strengthen hformed hstrong htyped).takes Builder.numbered_empty
  have hempty : ({} : Builder).registers = 0 := rfl
  refine ⟨fun hroom => ?_, fun hlarge => htakes.eq_error_iff.mpr (by omega)⟩
  generalize tree.lower params target {} = outcome at htakes ⊢
  cases htakes with
  | fits hregisters hnumbered hresult =>
    exact ⟨_, _, rfl, by omega, hresult, hnumbered⟩
  | exceeds h => omega

/-- The negative of an integer, as a double: two nodes and one conversion. -/
theorem lower_strengthen_negated :
    ∃ tree result b,
      strengthen .numeric
          (apply (.unary .negate) [parameter 0]
            ⟨[⟨[.numeric], .numeric⟩], CostTable.empty.set .numeric ⟨1, .numeric, 0⟩, none⟩)
          [⟨"x", TypeMask.of .integer⟩] = (tree, [⟨"x", TypeMask.of .integer⟩], none) ∧
        tree.lower [⟨"x", TypeMask.of .integer⟩] .numeric {} = .ok (result, b) ∧
        b.registers = 3 ∧ result < 3 ∧ b.Numbered := by
  have hformed : (apply (.unary .negate) [parameter 0]
      ⟨[⟨[.numeric], .numeric⟩], CostTable.empty.set .numeric ⟨1, .numeric, 0⟩, none⟩).Formed :=
    .apply rfl (by decide) (by simpa using .parameter 0)
  have hstrong : strengthen .numeric
      (apply (.unary .negate) [parameter 0]
        ⟨[⟨[.numeric], .numeric⟩], CostTable.empty.set .numeric ⟨1, .numeric, 0⟩, none⟩)
      [⟨"x", TypeMask.of .integer⟩] =
        (apply (.unary .negate) [parameter 0]
          ⟨[⟨[.numeric], .numeric⟩], CostTable.empty.set .numeric ⟨1, .numeric, 0⟩, some (.numeric, 0)⟩,
          [⟨"x", TypeMask.of .integer⟩], none) := rfl
  have htyped : (apply (.unary .negate) [parameter 0]
      ⟨[⟨[.numeric], .numeric⟩], CostTable.empty.set .numeric ⟨1, .numeric, 0⟩, some (.numeric, 0)⟩).SingleTyped
        [⟨"x", TypeMask.of .integer⟩] :=
    .apply (by simpa using .parameter (Nat.zero_le _) rfl rfl)
  obtain ⟨result, b, hlower, hregisters, hresult, hnumbered⟩ :=
    (lower_strengthen hformed hstrong htyped).1 (by decide)
  exact ⟨_, result, b, hstrong, hlower, hregisters, Nat.lt_of_lt_of_eq hresult hregisters, hnumbered⟩

end Node

end Formula
