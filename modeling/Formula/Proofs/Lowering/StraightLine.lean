import Formula.Proofs.Lowering.Numbering

/-!
# Lowered code is straight

The registers of a machine hold something before anything is put into them, so that a program that
reads a register too early would not fail but compute with what happens to stand there. Lowered code
does not: each instruction writes a register of its own, and reads only registers that instructions
before it have written. What the registers hold at the start of a run is then of no consequence, and a
machine can be used again without being cleared.

## Main definitions

* `Program.dest?`, `Program.sources`: the registers that an instruction writes and reads.
* `Program.IsStraight`: registers are written once, and before they are read.
* `Program.Reaches`: how far a run comes, and with which registers.
* `Program.Left`: the registers that earlier runs leave behind.

## Main results

* `Program.IsStraight.execute_eq`: the outcome of straight code does not depend on the registers that
  it starts with.
* `Node.numbered_lower`: lowering any tree numbers the registers in turn.
* `Node.lower_straight`: lowered code is straight.
-/

namespace Formula

namespace Program

/-- The register that an instruction writes. -/
def dest? (p : Program) : Instruction → Option Nat
  | .loadLiteral dest _ | .loadParameter dest _ | .convert dest _ _ | .operate _ dest _ _
  | .compare _ dest _ _ _ | .unary _ dest _ => some dest
  | .call index => p.calls[index]?.map Call.dest
  | .ret _ => none

/-- The registers that an instruction reads. -/
def sources (p : Program) : Instruction → List Nat
  | .loadLiteral _ _ | .loadParameter _ _ => []
  | .convert _ source _ | .unary _ _ source => [source]
  | .operate _ _ left right | .compare _ _ left right _ => [left, right]
  | .call index => (p.calls[index]?.map Call.args).getD []
  | .ret register => [register]

/-- Every register is written by one instruction at most, and by one before it is read. There is a
return at the end and nowhere else. -/
structure IsStraight (p : Program) : Prop where
  writes : ∀ (k : Nat) i, p.instructions[k]? = some i → k + 1 < p.instructions.size →
    ∃ dest < p.registers, p.dest? i = some dest
  once : ∀ (j k : Nat) i i' dest, p.instructions[j]? = some i → p.instructions[k]? = some i' →
    p.dest? i = some dest → p.dest? i' = some dest → j = k
  before : ∀ (k : Nat) i, p.instructions[k]? = some i → ∀ r ∈ p.sources i,
    ∃ j < k, ∃ i', p.instructions[j]? = some i' ∧ p.dest? i' = some r
  ends : ∃ register, p.instructions.back? = some (.ret register)
  returns : ∀ (k : Nat) register, p.instructions[k]? = some (.ret register) →
    k + 1 = p.instructions.size

section

variable {registry : Registry} {draws : Draws} {p : Program} {args : List Value}
  {registers registers' : Array Value}

/-! ### What an instruction depends on -/

theorem read_congr {r : Nat} (h : registers[r]? = registers'[r]?) :
    read registers r = read registers' r := by
  rw [read, read, h]

theorem mapM_read_congr {rs : List Nat} (h : ∀ r ∈ rs, registers[r]? = registers'[r]?) :
    rs.mapM (read registers) = rs.mapM (read registers') := by
  induction rs with
  | nil => rfl
  | cons r rs ih =>
    obtain ⟨hr, hrs⟩ := List.forall_mem_cons.mp h
    rw [List.mapM_cons, List.mapM_cons, read_congr hr, ih hrs]

/-- What an instruction does depends on the registers that it reads. -/
theorem effect_congr {i : Instruction} (h : ∀ r ∈ p.sources i, registers[r]? = registers'[r]?) :
    p.effect registry draws args registers i = p.effect registry draws args registers' i := by
  cases i with
  | loadLiteral dest index | loadParameter dest index => rfl
  | convert dest source target | unary op dest source =>
    rw [effect, effect, read_congr (h source (by simp [sources]))]
  | operate op dest left right | compare op dest left right tolerant =>
    rw [effect, effect, read_congr (h left (by simp [sources])),
      read_congr (h right (by simp [sources]))]
  | call index =>
    rw [effect, effect]
    cases hcall : p.calls[index]? with
    | none => rfl
    | some call =>
      have hargs : call.args.mapM (read registers) = call.args.mapM (read registers') :=
        mapM_read_congr fun r hr => h r (by simpa [sources, hcall] using hr)
      simp only [hargs]
  | ret register => rw [effect, effect, read_congr (h register (by simp [sources]))]

/-- An instruction puts its value into the register that it writes. -/
theorem dest?_of_effect {i : Instruction} {dest : Nat} {v : Value}
    (h : p.effect registry draws args registers i = .ok (.assign dest v)) :
    p.dest? i = some dest := by
  have hassign {d : Nat} {w : Value}
      (h : (.ok (.assign d w) : Except MachineFault Effect) = .ok (.assign dest v)) :
      some d = some dest := congrArg some (Effect.assign.inj (Except.ok.inj h)).1
  cases i with
  | loadLiteral dest' index | loadParameter dest' index =>
    rw [effect] at h
    split at h
    · exact hassign h
    · cases h
  | convert dest' source target | unary op dest' source =>
    obtain ⟨a, -, h⟩ := bind_eq_ok_iff.mp h
    obtain ⟨w, -, h⟩ := bind_eq_ok_iff.mp h
    exact hassign h
  | operate op dest' left right | compare op dest' left right tolerant =>
    obtain ⟨a, -, h⟩ := bind_eq_ok_iff.mp h
    obtain ⟨b, -, h⟩ := bind_eq_ok_iff.mp h
    obtain ⟨w, -, h⟩ := bind_eq_ok_iff.mp h
    exact hassign h
  | call index =>
    rw [effect] at h
    split at h
    · cases h
    · next call hcall =>
      obtain ⟨values, -, h⟩ := bind_eq_ok_iff.mp h
      split at h
      · rw [dest?, hcall]
        exact hassign h
      · cases h
  | ret register =>
    obtain ⟨a, -, h⟩ := bind_eq_ok_iff.mp h
    cases h

theorem write_of_lt {r : Nat} (h : r < registers.size) (v : Value) :
    write registers r v = .ok (registers.setIfInBounds r v) :=
  if_pos h

theorem write_of_le {r : Nat} (h : registers.size ≤ r) (v : Value) :
    write registers r v = .error (.registerOutOfBounds r) :=
  if_neg (Nat.not_lt.mpr h)

/-! ### The registers at the start -/

/-- Two runs of straight code have the same outcome from an instruction on, if the registers agree
that the instructions before it have written. -/
theorem IsStraight.execute_drop_eq (hp : p.IsStraight) (hsize : registers.size = registers'.size)
    {k : Nat} (hagree : ∀ (j : Nat) i r, j < k → p.instructions[j]? = some i → p.dest? i = some r →
      registers[r]? = registers'[r]?) :
    p.execute registry draws args (p.instructions.toList.drop k) registers =
      p.execute registry draws args (p.instructions.toList.drop k) registers' := by
  induction hcode : p.instructions.toList.drop k generalizing k registers registers' with
  | nil => rfl
  | cons i rest ih =>
    have hi : p.instructions[k]? = some i := by
      rw [← Array.getElem?_toList, ← Nat.add_zero k, ← List.getElem?_drop, hcode]
      rfl
    have hrest : p.instructions.toList.drop (k + 1) = rest := by
      rw [← List.tail_drop, hcode, List.tail_cons]
    have heffect : p.effect registry draws args registers i =
        p.effect registry draws args registers' i := effect_congr fun r hr => by
      obtain ⟨j, hj, i', hi', hdest⟩ := hp.before k i hi r hr
      exact hagree j i' r hj hi' hdest
    rw [execute, execute, heffect]
    cases hresult : p.effect registry draws args registers' i with
    | error fault => rfl
    | ok result =>
      cases result with
      | finish v => rfl
      | assign dest v =>
        have hdest := dest?_of_effect hresult
        rcases Nat.lt_or_ge dest registers.size with hlt | hge
        · simp only [ok_bind, write_of_lt hlt, write_of_lt (hsize ▸ hlt)]
          refine ih (by simpa using hsize) (fun j i' r hj hi' hr => ?_) hrest
          by_cases hr' : dest = r
          · subst hr'
            rw [Array.getElem?_setIfInBounds_self_of_lt hlt,
              Array.getElem?_setIfInBounds_self_of_lt (hsize ▸ hlt)]
          · rw [Array.getElem?_setIfInBounds_ne hr', Array.getElem?_setIfInBounds_ne hr']
            refine hagree j i' r (Nat.lt_of_le_of_ne (Nat.le_of_lt_succ hj) ?_) hi' hr
            rintro rfl
            obtain rfl := Option.some.inj (hi'.symm.trans hi)
            exact hr' (Option.some.inj (hdest.symm.trans hr))
        · simp only [ok_bind, write_of_le hge, write_of_le (hsize ▸ hge)]

/-- The outcome of straight code does not depend on the registers that it starts with. -/
theorem IsStraight.execute_eq (hp : p.IsStraight) (hsize : registers.size = registers'.size) :
    p.execute registry draws args p.instructions.toList registers =
      p.execute registry draws args p.instructions.toList registers' :=
  hp.execute_drop_eq (k := 0) hsize fun _ _ _ hj => absurd hj (Nat.not_lt_zero _)

end

/-! ### Using a machine again -/

/-- A run that starts with the registers `start` comes to an instruction with the given registers. -/
inductive Reaches (registry : Registry) (draws : Draws) (p : Program) (args : List Value)
    (start : Array Value) : Nat → Array Value → Prop
  | start : Reaches registry draws p args start 0 start
  | step {k : Nat} {registers registers' : Array Value} {i : Instruction} {dest : Nat} {v : Value}
      (h : Reaches registry draws p args start k registers) (hi : p.instructions[k]? = some i)
      (heffect : p.effect registry draws args registers i = .ok (.assign dest v))
      (hwrite : write registers dest v = .ok registers') :
      Reaches registry draws p args start (k + 1) registers'

/-- The registers of a machine that runs have been made on, one after the other, each on arguments of
its own. A run may stop at any instruction. -/
inductive Left (registry : Registry) (p : Program) : Array Value → Prop
  | fresh : Left registry p (Array.replicate p.registers (.boolean false))
  | after {draws : Draws} {args : List Value} {start registers : Array Value} {k : Nat}
      (h : Left registry p start) (hrun : p.Reaches registry draws args start k registers) :
      Left registry p registers

section

variable {registry : Registry} {draws : Draws} {p : Program} {args : List Value}
  {start registers : Array Value} {k : Nat}

theorem Reaches.size_eq (h : p.Reaches registry draws args start k registers) :
    registers.size = start.size := by
  induction h with
  | start => rfl
  | step _ _ _ hwrite ih =>
    rw [write] at hwrite
    split at hwrite
    · rw [← Except.ok.inj hwrite, Array.size_setIfInBounds, ih]
    · cases hwrite

/-- A run has the outcome of what is left of it. -/
theorem Reaches.execute_eq (h : p.Reaches registry draws args start k registers) :
    p.execute registry draws args p.instructions.toList start =
      p.execute registry draws args (p.instructions.toList.drop k) registers := by
  induction h with
  | start => rfl
  | @step k registers registers' i dest v _ hi heffect hwrite ih =>
    obtain ⟨hlt, hget⟩ := Array.getElem?_eq_some_iff.mp hi
    rw [ih, List.drop_eq_getElem_cons (by simpa using hlt), execute, Array.getElem_toList, hget,
      heffect]
    simp only [ok_bind, hwrite]

theorem Left.size_eq (h : p.Left registry registers) : registers.size = p.registers := by
  induction h with
  | fresh => exact Array.size_replicate
  | after _ hrun ih => exact hrun.size_eq.trans ih

end

end Program

/-! ### Lowering -/

namespace Builder

theorem Takes.of_ok {α : Type} {b b' : Builder} {count : Nat} {holds : Builder → α → Prop} {a : α}
    (h : Takes b count holds (.ok (a, b'))) :
    b'.Numbered ∧ b.registers ≤ b'.registers ∧ holds b' a := by
  cases h with
  | fits hregisters hnumbered h => exact ⟨hnumbered, by omega, h⟩

/-- An application is emitted for as many operands as its head takes. -/
theorem takes_of_emitApplication {b b' : Builder} {head : Head} {s : Signature} {dest : Nat}
    {operands : List Nat} (h : b.emitApplication head s dest operands = .ok b') :
    head.takes operands.length := by
  unfold emitApplication at h
  split at h
  case h_4 => trivial
  case h_5 => cases h
  all_goals rfl

end Builder

namespace Node

/-- Operands whose trees are lowered to numbered instructions are so in turn. -/
theorem numbered_lowerAll {params : List Parameter} {nodes : List Node}
    (ih : ∀ n ∈ nodes, ∀ {target b b' result}, b.Numbered →
      n.lower params target b = .ok (result, b') →
      b'.Numbered ∧ b.registers ≤ b'.registers ∧ result < b'.registers)
    {targets : List ValueType} {b b' : Builder} {results : List Nat} (hb : b.Numbered)
    (h : lowerAll params targets nodes b = .ok (results, b')) :
    b'.Numbered ∧ b.registers ≤ b'.registers ∧ ∀ r ∈ results, r < b'.registers := by
  induction nodes generalizing targets b results with
  | nil =>
    rw [lowerAll] at h
    obtain ⟨rfl, rfl⟩ := Prod.mk.inj (Except.ok.inj h)
    exact ⟨hb, le_rfl, by simp⟩
  | cons n rest hrest =>
    cases targets with
    | nil =>
      rw [lowerAll] at h
      · obtain ⟨rfl, rfl⟩ := Prod.mk.inj (Except.ok.inj h)
        exact ⟨hb, le_rfl, by simp⟩
      · simp
    | cons target targets =>
      rw [lowerAll] at h
      obtain ⟨⟨r, b₁⟩, hn, h⟩ := bind_eq_ok_iff.mp h
      obtain ⟨⟨rs, b₂⟩, htail, h⟩ := bind_eq_ok_iff.mp h
      obtain ⟨rfl, rfl⟩ := Prod.mk.inj (Except.ok.inj h)
      obtain ⟨hb₁, hle, hr⟩ := ih n (List.mem_cons_self ..) hb hn
      obtain ⟨hb₂, hle', hrs⟩ := hrest (fun m hm => ih m (List.mem_cons_of_mem n hm)) hb₁ htail
      exact ⟨hb₂, hle.trans hle', List.forall_mem_cons.mpr ⟨hr.trans_le hle', hrs⟩⟩

/-- Whatever the tree, the instructions that it is lowered to are numbered. -/
theorem numbered_lower {params : List Parameter} {target : ValueType} {node : Node}
    {b b' : Builder} {result : Nat} (hb : b.Numbered)
    (h : node.lower params target b = .ok (result, b')) :
    b'.Numbered ∧ b.registers ≤ b'.registers ∧ result < b'.registers := by
  induction node using Node.induct generalizing target b b' result with
  | constant v text =>
    rw [lower] at h
    split at h
    · cases h
    · next w _ => exact (h ▸ hb.takes_literal w).of_ok
  | parameter id =>
    rw [lower] at h
    obtain ⟨place, hindex, hparam⟩ := bind_eq_ok_iff.mp h
    obtain ⟨hid, rfl⟩ := Builder.index_eq_ok_iff.mp hindex
    split at hparam
    · cases hparam
    · next param _ =>
      obtain ⟨⟨dest, b₁⟩, hdest, hwiden⟩ := bind_eq_ok_iff.mp hparam
      have hload := hb.takes_emit (i := fun dest => .loadParameter dest place) (.loadParameter hid)
      rw [hdest] at hload
      obtain ⟨hb₁, hle, hlt⟩ := hload.of_ok
      dsimp only at hwiden
      split at hwiden
      · next own _ =>
        obtain ⟨hb', hle', hlt'⟩ := (hwiden ▸ hb₁.takes_widen hlt own target).of_ok
        exact ⟨hb', hle.trans hle', hlt'⟩
      · obtain ⟨rfl, rfl⟩ := Prod.mk.inj (Except.ok.inj hwiden)
        exact ⟨hb₁, hle, hlt⟩
  | apply head operands typing ih =>
    rw [lower] at h
    split at h
    · cases h
    · next s _ =>
      obtain ⟨⟨registers, b₁⟩, hall, happly⟩ := bind_eq_ok_iff.mp h
      obtain ⟨hb₁, hle, hregisters⟩ := numbered_lowerAll (fun n hn _ _ _ _ => ih n hn) hb hall
      obtain ⟨⟨dest, b₂⟩, hdest, hrest⟩ := bind_eq_ok_iff.mp happly
      obtain ⟨b₃, hemit, -⟩ := bind_eq_ok_iff.mp hrest
      have hcount := Builder.takes_of_emitApplication hemit
      have htakes : b₁.Takes (1 + if s.result = target then 0 else 1) (fun b' r => r < b'.registers)
          (.ok (result, b')) := by
        rw [← happly]
        exact hb₁.takes_apply hcount hregisters s target
      obtain ⟨hb', hle', hlt⟩ := htakes.of_ok
      exact ⟨hb', hle.trans hle', hlt⟩

end Node

/-! ### Finished programs -/

namespace Builder

variable {b : Builder} {dest : Nat} {i : Instruction}

theorem Defines.dest?_eq (h : b.Defines dest i) (result : Nat) (tolerance : Option Tolerance.Kind) :
    (b.finish result tolerance).dest? i = some dest := by
  cases h with
  | call hcall hargs => exact congrArg (Option.map Call.dest) hcall
  | _ => rfl

theorem Defines.lt_of_mem_sources (h : b.Defines dest i) {result : Nat}
    {tolerance : Option Tolerance.Kind} {r : Nat}
    (hr : r ∈ (b.finish result tolerance).sources i) : r < dest := by
  cases h with
  | loadLiteral | loadParameter => cases hr
  | convert hsource | unary _ hsource => exact List.mem_singleton.mp hr ▸ hsource
  | operate _ hleft hright | compare _ hleft hright =>
    rcases List.mem_pair.mp hr with rfl | rfl
    · exact hleft
    · exact hright
  | @call index f args hcall hargs =>
    refine hargs r ?_
    have hfound : (b.finish result tolerance).calls[index]? = some ⟨dest, f, args⟩ := hcall
    simpa [Program.sources, hfound] using hr

/-- The instructions of a finished program: those that were emitted, and the return. -/
theorem getElem?_finish {result : Nat} {tolerance : Option Tolerance.Kind} {k : Nat} :
    (b.finish result tolerance).instructions[k]? =
      if k = b.instructions.size then some (.ret result) else b.instructions[k]? :=
  Array.getElem?_push

/-- A finished program of numbered instructions is straight. -/
theorem Numbered.isStraight (hb : b.Numbered) {result : Nat} (hresult : result < b.registers)
    (tolerance : Option Tolerance.Kind) : (b.finish result tolerance).IsStraight := by
  have hsize : (b.finish result tolerance).instructions.size = b.registers + 1 := by
    rw [← hb.size]
    exact Array.size_push ..
  have hwriter {k : Nat} (hk : k < b.registers) : ∃ i,
      (b.finish result tolerance).instructions[k]? = some i ∧ b.Defines k i := by
    have hlt : k < b.instructions.size := hb.size ▸ hk
    refine ⟨b.instructions[k], ?_, hb.defines k _ (Array.getElem?_eq_getElem hlt)⟩
    rw [getElem?_finish, if_neg hlt.ne, Array.getElem?_eq_getElem hlt]
  have hcases {k : Nat} {i : Instruction}
      (hi : (b.finish result tolerance).instructions[k]? = some i) :
      k = b.registers ∧ i = .ret result ∨ k < b.registers ∧ b.Defines k i := by
    rw [getElem?_finish] at hi
    split at hi
    · next heq => exact .inl ⟨heq.trans hb.size, (Option.some.inj hi).symm⟩
    · exact .inr ⟨hb.size ▸ (Array.getElem?_eq_some_iff.mp hi).1, hb.defines k i hi⟩
  refine ⟨fun k i hi hk => ?_, fun j k i i' dest hi hi' hdest hdest' => ?_, fun k i hi r hr => ?_,
    ⟨result, ?_⟩, fun k register hi => ?_⟩
  · rcases hcases hi with ⟨rfl, -⟩ | ⟨hlt, hdefines⟩
    · omega
    · exact ⟨k, hlt, hdefines.dest?_eq result tolerance⟩
  · -- the number of an instruction is that of its register
    have hplace {k : Nat} {i : Instruction}
        (hi : (b.finish result tolerance).instructions[k]? = some i)
        (hdest : (b.finish result tolerance).dest? i = some dest) : k = dest := by
      rcases hcases hi with ⟨-, rfl⟩ | ⟨-, hdefines⟩
      · cases hdest
      · exact Option.some.inj ((hdefines.dest?_eq result tolerance).symm.trans hdest)
    exact (hplace hi hdest).trans (hplace hi' hdest').symm
  · obtain ⟨hrk, hrb⟩ : r < k ∧ r < b.registers := by
      rcases hcases hi with ⟨rfl, rfl⟩ | ⟨hlt, hdefines⟩
      · obtain rfl := List.mem_singleton.mp hr
        exact ⟨hresult, hresult⟩
      · have hlt' := hdefines.lt_of_mem_sources hr
        exact ⟨hlt', hlt'.trans hlt⟩
    obtain ⟨i', hi', hdefines⟩ := hwriter hrb
    exact ⟨r, hrk, i', hi', hdefines.dest?_eq result tolerance⟩
  · exact Array.back?_push ..
  · rcases hcases hi with ⟨rfl, -⟩ | ⟨-, hdefines⟩
    · exact hsize.symm
    · cases hdefines

end Builder

namespace Node

/-- Lowered code is straight: every instruction writes a register of its own, all registers are
written before they are read, and the return is the last instruction. So the outcome of a run is the
same whatever the registers hold at its start, in particular what earlier runs have left there. -/
theorem lower_straight {params : List Parameter} {target : ValueType} {node : Node} {result : Nat}
    {b : Builder} (h : node.lower params target {} = .ok (result, b))
    (tolerance : Option Tolerance.Kind) :
    (b.finish result tolerance).IsStraight ∧
      (∀ registry draws args (registers : Array Value), registers.size = b.registers →
        (b.finish result tolerance).execute registry draws args
            (b.finish result tolerance).instructions.toList registers =
          (b.finish result tolerance).run registry draws args) ∧
      ∀ registry registers, (b.finish result tolerance).Left registry registers →
        ∀ draws args, (b.finish result tolerance).execute registry draws args
            (b.finish result tolerance).instructions.toList registers =
          (b.finish result tolerance).run registry draws args := by
  obtain ⟨hb, -, hresult⟩ := numbered_lower Builder.numbered_empty h
  have hstraight := hb.isStraight hresult tolerance
  have hrun registry draws args (registers : Array Value) (hsize : registers.size = b.registers) :
      (b.finish result tolerance).execute registry draws args
          (b.finish result tolerance).instructions.toList registers =
        (b.finish result tolerance).run registry draws args :=
    hstraight.execute_eq (hsize.trans Array.size_replicate.symm)
  exact ⟨hstraight, hrun, fun registry registers hleft draws args =>
    hrun registry draws args registers hleft.size_eq⟩

/-- The power of an integer and a double: the integer is converted, and the call reads the registers
of its arguments from the table. -/
theorem lower_straight_power :
    ∃ (node : Node) (result : Nat) (b : Builder),
      node.lower [⟨"x", TypeMask.of .integer⟩, ⟨"y", TypeMask.of .numeric⟩] .numeric {} =
          .ok (result, b) ∧ b.registers = 4 ∧ (b.finish result none).IsStraight ∧
        ∀ registry draws args (registers : Array Value), registers.size = 4 →
          (b.finish result none).execute registry draws args
              (b.finish result none).instructions.toList registers =
            (b.finish result none).run registry draws args := by
  let node : Node := apply (.call .pow) [parameter 0, parameter 1]
    ⟨[⟨[.numeric, .numeric], .numeric⟩], CostTable.empty, some (.numeric, 0)⟩
  have hregisters : ((node.lower [⟨"x", TypeMask.of .integer⟩, ⟨"y", TypeMask.of .numeric⟩]
      .numeric {}).map fun p => p.2.registers).toOption = some 4 := by decide
  cases h : node.lower [⟨"x", TypeMask.of .integer⟩, ⟨"y", TypeMask.of .numeric⟩] .numeric {} with
  | error fault =>
    rw [h] at hregisters
    cases hregisters
  | ok p =>
    rw [h] at hregisters
    have hcount : p.2.registers = 4 := Option.some.inj hregisters
    obtain ⟨hstraight, hrun, -⟩ := lower_straight h none
    exact ⟨node, p.1, p.2, h, hcount, hstraight, fun registry draws args registers hsize =>
      hrun registry draws args registers (hsize.trans hcount.symm)⟩

end Node

end Formula
