import Formula.Proofs.Lowering.Meaning

/-!
# Lowered code computes the meaning of a tree

Lowering appends instructions, takes new registers and adds to the tables of literals and calls; it
never changes what is there. Running the code of a tree leaves all earlier registers alone and puts
the value of the tree into its result register, or ends with the fault of its meaning.

## Main definitions

* `Builder.Emits`: what a builder has got added.
* `Builder.Sound`: every literal is found where it stands.
* `Serves`: a program holds the tables of a builder.
* `Computes`: running code has an outcome and keeps the registers below a given one.

## Main results

* `Node.lower_computes`: the code of a tree computes its meaning.
* `Node.run_finish`: running a lowered tree gives its meaning.
-/

namespace Formula

/-! ### What lowering adds -/

namespace Builder

/-- The second builder has the tables of the first one, perhaps with more at their ends, and the
given code after the instructions of the first. -/
structure Emits (b b' : Builder) (code : List Instruction) : Prop where
  instructions : b'.instructions.toList = b.instructions.toList ++ code
  places : ∀ (v : Value) place, b.places[v]? = some place → b'.places[v]? = some place
  literals : ∀ (place : Nat) v, b.literals[place]? = some v → b'.literals[place]? = some v
  calls : ∀ (place : Nat) call, b.calls[place]? = some call → b'.calls[place]? = some call
  registers : b.registers ≤ b'.registers

/-- A literal stands where its place says, up to the sign of a zero. -/
def Sound (b : Builder) : Prop :=
  ∀ (v : Value) place, b.places[v]? = some place → ∃ w, b.literals[place]? = some w ∧ w.canonical = v

theorem sound_empty : ({} : Builder).Sound := by
  intro v place h
  simp at h

namespace Emits

theorem refl (b : Builder) : Emits b b [] :=
  ⟨by simp, fun _ _ h => h, fun _ _ h => h, fun _ _ h => h, Nat.le_refl _⟩

theorem trans {a b c : Builder} {code code' : List Instruction} (hab : Emits a b code)
    (hbc : Emits b c code') : Emits a c (code ++ code') where
  instructions := by rw [hbc.instructions, hab.instructions, List.append_assoc]
  places v place h := hbc.places v place (hab.places v place h)
  literals place v h := hbc.literals place v (hab.literals place v h)
  calls place call h := hbc.calls place call (hab.calls place call h)
  registers := Nat.le_trans hab.registers hbc.registers

end Emits

theorem emits_emit (b : Builder) (instruction : Instruction) :
    Emits b (b.emit instruction) [instruction] :=
  ⟨by simp [emit], fun _ _ h => h, fun _ _ h => h, fun _ _ h => h, Nat.le_refl _⟩

theorem index_eq_ok_iff {n m : Nat} : index n = .ok m ↔ n ≤ maxIndex ∧ m = n := by
  rw [index]
  split
  · next h => simp [h, eq_comm]
  · next h => simp [h]

theorem allocate_eq_ok {b b' : Builder} {r : Nat} (h : b.allocate = .ok (r, b')) :
    r = b.registers ∧ b' = { b with registers := b.registers + 1 } := by
  rw [allocate] at h
  obtain ⟨n, hn, h⟩ := bind_eq_ok_iff.mp h
  obtain ⟨-, rfl⟩ := index_eq_ok_iff.mp hn
  obtain ⟨rfl, rfl⟩ := Prod.mk.inj (Except.ok.inj h)
  exact ⟨rfl, rfl⟩

theorem emits_allocate {b b' : Builder} {r : Nat} (h : b.allocate = .ok (r, b')) :
    Emits b b' [] := by
  obtain ⟨-, rfl⟩ := allocate_eq_ok h
  exact ⟨by simp, fun _ _ h => h, fun _ _ h => h, fun _ _ h => h, Nat.le_succ _⟩

theorem addCall_eq_ok {b b' : Builder} {call : Call} {place : Nat}
    (h : b.addCall call = .ok (place, b')) :
    place = b.calls.size ∧ b' = { b with calls := b.calls.push call } := by
  rw [addCall] at h
  obtain ⟨n, hn, h⟩ := bind_eq_ok_iff.mp h
  obtain ⟨-, rfl⟩ := index_eq_ok_iff.mp hn
  obtain ⟨rfl, rfl⟩ := Prod.mk.inj (Except.ok.inj h)
  exact ⟨rfl, rfl⟩

theorem emits_addCall {b b' : Builder} {call : Call} {place : Nat}
    (h : b.addCall call = .ok (place, b')) : Emits b b' [] := by
  obtain ⟨-, rfl⟩ := addCall_eq_ok h
  refine ⟨by simp, fun _ _ h => h, fun _ _ h => h, fun place call h => ?_, Nat.le_refl _⟩
  rw [Array.getElem?_push, if_neg, h]
  rintro rfl
  simp at h

/-- After adding a literal the table holds one that agrees with it, at the place returned. -/
theorem addLiteral_eq_ok {b b' : Builder} (hb : b.Sound) {v : Value} {place : Nat}
    (h : b.addLiteral v = .ok (place, b')) :
    b'.Sound ∧ Emits b b' [] ∧ b'.places[v.canonical]? = some place ∧
      b'.registers = b.registers ∧ b'.calls = b.calls ∧
      (b' = b ∨ b'.literals = b.literals.push v) := by
  rw [addLiteral] at h
  obtain ⟨n, hn, h⟩ := bind_eq_ok_iff.mp h
  obtain ⟨rfl, rfl⟩ := Prod.mk.inj (Except.ok.inj h)
  rw [literalPlace] at hn
  split at hn
  · next found hfound =>
    obtain rfl := Except.ok.inj hn
    obtain ⟨w, hw, -⟩ := hb _ _ hfound
    have hlt : found < b.literals.size := (Array.getElem?_eq_some_iff.mp hw).1
    rw [putLiteral, if_pos hlt]
    exact ⟨hb, .refl b, hfound, rfl, rfl, .inl rfl⟩
  · next hnone =>
    rw [index] at hn
    split at hn
    · obtain rfl := Except.ok.inj hn
      rw [putLiteral, if_neg (Nat.lt_irrefl _)]
      have hkeep (place : Nat) (w : Value) (hw : b.literals[place]? = some w) :
          (b.literals.push v)[place]? = some w := by
        rw [Array.getElem?_push, if_neg, hw]
        rintro rfl
        simp at hw
      refine ⟨?_, ⟨by simp, ?_, hkeep, fun _ _ h => h, Nat.le_refl _⟩, by simp, rfl, rfl,
        .inr rfl⟩
      · intro u place hu
        simp only [Std.HashMap.getElem?_insert] at hu
        split at hu
        · next heq =>
          obtain rfl := Option.some.inj hu
          exact ⟨v, by simp, eq_of_beq heq⟩
        · obtain ⟨w, hw, hcanonical⟩ := hb u place hu
          exact ⟨w, hkeep place w hw, hcanonical⟩
      · intro u place hu
        simp only [Std.HashMap.getElem?_insert]
        split
        · next heq =>
          rw [eq_of_beq heq] at hnone
          rw [hu] at hnone
          simp at hnone
        · exact hu
    · simp at hn

end Builder

/-! ### What running code does -/

/-- A program holds the tables of a builder, and the environment knows its literals. -/
structure Serves (env : Environment) (p : Program) (b : Builder) : Prop where
  literals : ∀ (v : Value) (place : Nat), b.places[v.canonical]? = some place →
    p.literals[place]? = some (env.literal v)
  calls : ∀ (place : Nat) call, b.calls[place]? = some call → p.calls[place]? = some call
  tolerance : p.tolerance = env.tolerance

theorem Serves.of_emits {env : Environment} {p : Program} {b b' : Builder}
    {code : List Instruction} (h : Serves env p b') (he : b.Emits b' code) : Serves env p b where
  literals v place hv := h.literals v place (he.places _ place hv)
  calls place call hc := h.calls place call (he.calls place call hc)
  tolerance := h.tolerance

/-- Running code from given registers on has an outcome: it ends with the fault, or goes on with
registers that are as before below `keep` and in which the result holds. -/
def Computes {α : Type} (env : Environment) (p : Program) (code : List Instruction) (keep : Nat)
    (registers : Array Value) (holds : Array Value → α → Prop) : Except MachineFault α → Prop
  | .error fault => ∀ rest,
      p.execute env.registry env.draws env.args (code ++ rest) registers = .error fault
  | .ok a => ∃ registers', registers'.size = registers.size ∧
      (∀ r, r < keep → registers'[r]? = registers[r]?) ∧ holds registers' a ∧ ∀ rest,
        p.execute env.registry env.draws env.args (code ++ rest) registers =
          p.execute env.registry env.draws env.args rest registers'

namespace Computes

variable {α β : Type} {env : Environment} {p : Program} {code code' : List Instruction}
  {keep keep' : Nat} {registers : Array Value} {holds : Array Value → α → Prop}
  {holds' : Array Value → β → Prop}

theorem pure {a : α} (h : holds registers a) : Computes env p [] keep registers holds (.ok a) :=
  ⟨registers, rfl, fun _ _ => rfl, h, fun _ => rfl⟩

/-- Code that follows other code computes what follows its outcome. -/
theorem bind {outcome : Except MachineFault α} {f : α → Except MachineFault β}
    (h : Computes env p code keep registers holds outcome) (hkeep : keep ≤ keep')
    (hf : ∀ a registers', registers'.size = registers.size →
      (∀ r, r < keep → registers'[r]? = registers[r]?) → holds registers' a →
      Computes env p code' keep' registers' holds' (f a)) :
    Computes env p (code ++ code') keep registers holds' (outcome >>= f) := by
  cases outcome with
  | error fault =>
    intro rest
    rw [List.append_assoc]
    exact h _
  | ok a =>
    obtain ⟨registers', hsize, hframe, hholds, hrun⟩ := h
    have hnext := hf a registers' hsize hframe hholds
    simp only [ok_bind]
    cases hfa : f a with
    | error fault =>
      rw [hfa] at hnext
      intro rest
      rw [List.append_assoc, hrun]
      exact hnext rest
    | ok b =>
      rw [hfa] at hnext
      obtain ⟨registers'', hsize', hframe', hholds', hrun'⟩ := hnext
      refine ⟨registers'', hsize'.trans hsize, fun r hr => ?_, hholds', fun rest => ?_⟩
      · rw [hframe' r (Nat.lt_of_lt_of_le hr hkeep), hframe r hr]
      · rw [List.append_assoc, hrun, hrun']

/-- One instruction that puts its result into a register above the kept ones. -/
theorem single {instruction : Instruction} {dest : Nat} {outcome : Except MachineFault Value}
    (heffect : p.effect env.registry env.draws env.args registers instruction =
      outcome >>= fun v => .ok (.assign dest v))
    (hdest : dest < registers.size) (hkeep : keep ≤ dest) :
    Computes env p [instruction] keep registers (fun registers v => registers[dest]? = some v)
      outcome := by
  cases outcome with
  | error fault =>
    intro rest
    rw [List.singleton_append, Program.execute, heffect]
    rfl
  | ok v =>
    refine ⟨registers.setIfInBounds dest v, by simp, fun r hr => ?_, ?_, fun rest => ?_⟩
    · rw [Array.getElem?_setIfInBounds_ne (by omega)]
    · exact Array.getElem?_setIfInBounds_self_of_lt hdest
    · rw [List.singleton_append, Program.execute, heffect]
      simp only [ok_bind, Program.write, if_pos hdest]

/-- What holds after code holds of what is made of its outcome. -/
theorem map {outcome : Except MachineFault α} {f : α → β}
    (h : Computes env p code keep registers holds outcome)
    (hf : ∀ registers' a, (∀ r, r < keep → registers'[r]? = registers[r]?) → holds registers' a →
      holds' registers' (f a)) :
    Computes env p code keep registers holds' (outcome >>= fun a => .ok (f a)) := by
  cases outcome with
  | error fault => exact h
  | ok a =>
    obtain ⟨registers', hsize, hframe, hholds, hrun⟩ := h
    exact ⟨registers', hsize, hframe, hf _ _ hframe hholds, hrun⟩

end Computes

/-! ### The code of a tree -/

theorem read_eq_ok {registers : Array Value} {r : Nat} {v : Value} (h : registers[r]? = some v) :
    Program.read registers r = .ok v := by
  rw [Program.read, h]

theorem mapM_read_cons {registers : Array Value} {r : Nat} {rs : List Nat} {values : List Value} :
    (r :: rs).mapM (Program.read registers) = .ok values ↔
      ∃ v vs, registers[r]? = some v ∧ rs.mapM (Program.read registers) = .ok vs ∧
        values = v :: vs := by
  have hread (v : Value) : Program.read registers r = .ok v ↔ registers[r]? = some v := by
    rw [Program.read]
    split
    · next h => rw [h]; simp
    · next h => rw [h]; simp
  rw [List.mapM_cons, bind_eq_ok_iff]
  constructor
  · rintro ⟨v, hv, hrest⟩
    obtain ⟨vs, hvs, heq⟩ := bind_eq_ok_iff.mp hrest
    exact ⟨v, vs, (hread v).mp hv, hvs, (Except.ok.inj heq).symm⟩
  · rintro ⟨v, vs, hv, hvs, rfl⟩
    exact ⟨v, (hread v).mpr hv, bind_eq_ok_iff.mpr ⟨vs, hvs, rfl⟩⟩

theorem mapM_read_nil {registers : Array Value} {values : List Value} :
    ([] : List Nat).mapM (Program.read registers) = .ok values ↔ values = [] := by
  rw [List.mapM_nil]
  exact ⟨fun h => (Except.ok.inj h).symm, fun h => h ▸ rfl⟩

/-- The conversion of a result: the builder, the register it ends in, and what the code does. -/
theorem Builder.widen_computes {b b' : Builder} {register result : Nat} {own target : ValueType}
    (h : b.widen register own target = .ok (result, b')) (hb : b.Sound)
    (hregister : register < b.registers) :
    b'.Sound ∧ register ≤ result ∧ result < b'.registers ∧ b'.calls = b.calls ∧
      ∃ code, b.Emits b' code ∧ ∀ env p registers v, b'.registers ≤ registers.size →
        registers[register]? = some v →
        Computes env p code register registers
          (fun registers v => registers[result]? = some v) (v.widened own target) := by
  rw [widen] at h
  split at h
  · next heq =>
    obtain ⟨rfl, rfl⟩ := Prod.mk.inj (Except.ok.inj h)
    refine ⟨hb, Nat.le_refl _, hregister, rfl, [], .refl b, fun env p registers v _ hv => ?_⟩
    rw [Value.widened, if_pos heq]
    exact .pure hv
  · next hne =>
    obtain ⟨⟨dest, b₁⟩, hdest, h⟩ := bind_eq_ok_iff.mp h
    obtain ⟨rfl, rfl⟩ := Prod.mk.inj (Except.ok.inj h)
    obtain ⟨rfl, rfl⟩ := allocate_eq_ok hdest
    refine ⟨hb, Nat.le_of_lt hregister, Nat.lt_succ_self _, rfl, _,
      (emits_allocate hdest).trans (emits_emit _ _), fun env p registers v hsize hv => ?_⟩
    rw [Value.widened, if_neg hne]
    refine .single ?_ hsize (Nat.le_of_lt hregister)
    rw [Program.effect, read_eq_ok hv]
    rfl

/-- The application of a head to operands in registers. -/
theorem Builder.emitApplication_computes {b b' : Builder} {head : Head} {s : Signature}
    {dest : Nat} {operands : List Nat} (h : b.emitApplication head s dest operands = .ok b')
    (hb : b.Sound) :
    b'.Sound ∧ b'.registers = b.registers ∧ b'.calls.size = head.countCall b.calls.size ∧
      ∃ code, b.Emits b' code ∧ ∀ env p registers values keep, Serves env p b' →
        operands.mapM (Program.read registers) = .ok values → dest < registers.size →
        keep ≤ dest →
        Computes env p code keep registers (fun registers v => registers[dest]? = some v)
          (head.run env s.comparesNumbers (env.draws b.calls.size) values) := by
  match head, operands, h with
  | .unary op, [source], h =>
    obtain rfl := Except.ok.inj h
    refine ⟨hb, rfl, rfl, _, emits_emit _ _, fun env p registers values keep _ hread hd hk => ?_⟩
    obtain ⟨a, _, ha, hnil, rfl⟩ := mapM_read_cons.mp hread
    obtain rfl := mapM_read_nil.mp hnil
    refine .single ?_ hd hk
    rw [Program.effect, read_eq_ok ha]
    rfl
  | .binary (.operate op), [left, right], h =>
    obtain rfl := Except.ok.inj h
    refine ⟨hb, rfl, rfl, _, emits_emit _ _, fun env p registers values keep _ hread hd hk => ?_⟩
    obtain ⟨a, _, ha, htail, rfl⟩ := mapM_read_cons.mp hread
    obtain ⟨c, _, hc, hnil, rfl⟩ := mapM_read_cons.mp htail
    obtain rfl := mapM_read_nil.mp hnil
    refine .single ?_ hd hk
    rw [Program.effect, read_eq_ok ha, read_eq_ok hc]
    rfl
  | .binary (.compare op), [left, right], h =>
    obtain rfl := Except.ok.inj h
    refine ⟨hb, rfl, rfl, _, emits_emit _ _, fun env p registers values keep hp hread hd hk => ?_⟩
    obtain ⟨a, _, ha, htail, rfl⟩ := mapM_read_cons.mp hread
    obtain ⟨c, _, hc, hnil, rfl⟩ := mapM_read_cons.mp htail
    obtain rfl := mapM_read_nil.mp hnil
    refine .single ?_ hd hk
    have hcomparison : p.comparison op s.comparesNumbers a c =
        env.comparison op s.comparesNumbers a c := by
      unfold Program.comparison Environment.comparison
      exact hp.tolerance ▸ rfl
    rw [Program.effect, read_eq_ok ha, read_eq_ok hc, Head.run, ← hcomparison]
    simp only [ok_bind]
    cases p.comparison op s.comparesNumbers a c <;> rfl
  | .call f, args, h =>
    obtain ⟨⟨place, b₁⟩, hcall, h⟩ := bind_eq_ok_iff.mp h
    obtain rfl := Except.ok.inj h
    obtain ⟨hplace, hb₁⟩ := addCall_eq_ok hcall
    refine ⟨hb₁ ▸ hb, hb₁ ▸ rfl, by simp [hb₁, emit, Head.countCall], _,
      (emits_addCall hcall).trans (emits_emit _ _), fun env p registers values keep hp hread hd hk => ?_⟩
    have hfound : p.calls[b.calls.size]? = some ⟨dest, f, args⟩ :=
      hp.calls _ _ (by simp [hb₁, emit])
    refine .single ?_ hd hk
    rw [Program.effect, hplace, hfound]
    simp only [hread, ok_bind, Head.run]
    cases f.eval (env.draws b.calls.size) values <;> rfl

namespace Node

/-- The code of a tree computes its meaning. -/
def LowersTo (params : List Parameter) (target : ValueType) (node : Node) (b b' : Builder)
    (result : Nat) : Prop :=
  b'.Sound ∧ b.registers ≤ result ∧ result < b'.registers ∧
    ∃ code, b.Emits b' code ∧ ∀ env p registers, Serves env p b' →
      b'.registers ≤ registers.size →
      Computes env p code b.registers registers
        (fun registers (out : Value × Nat) =>
          registers[result]? = some out.1 ∧ out.2 = b'.calls.size)
        (node.meaning env params target b.calls.size)

theorem lowerAll_computes {params : List Parameter} {targets : List ValueType} {nodes : List Node}
    (hnodes : ∀ n ∈ nodes, ∀ target b b' result, n.lower params target b = .ok (result, b') →
      b.Sound → LowersTo params target n b b' result)
    {b b' : Builder} {results : List Nat}
    (h : lowerAll params targets nodes b = .ok (results, b')) (hb : b.Sound) :
    b'.Sound ∧ (∀ r ∈ results, r < b'.registers) ∧
      ∃ code, b.Emits b' code ∧ ∀ env p registers, Serves env p b' →
        b'.registers ≤ registers.size →
        Computes env p code b.registers registers
          (fun registers (out : List Value × Nat) =>
            results.mapM (Program.read registers) = .ok out.1 ∧ out.2 = b'.calls.size)
          (meaningAll env params targets nodes b.calls.size) := by
  induction nodes generalizing targets b results with
  | nil =>
    obtain ⟨rfl, rfl⟩ := Prod.mk.inj (Except.ok.inj h)
    exact ⟨hb, by simp, [], .refl b, fun env p registers _ _ => .pure ⟨rfl, rfl⟩⟩
  | cons n rest ih =>
    cases targets with
    | nil =>
      obtain ⟨rfl, rfl⟩ := Prod.mk.inj (Except.ok.inj h)
      exact ⟨hb, by simp, [], .refl b, fun env p registers _ _ => .pure ⟨rfl, rfl⟩⟩
    | cons target targets =>
      rw [lowerAll] at h
      obtain ⟨⟨result, b₁⟩, hn, h⟩ := bind_eq_ok_iff.mp h
      obtain ⟨⟨rs, b₂⟩, hrest, h⟩ := bind_eq_ok_iff.mp h
      obtain ⟨rfl, rfl⟩ := Prod.mk.inj (Except.ok.inj h)
      obtain ⟨hb₁, hle, hlt, code₁, he₁, hrun₁⟩ :=
        hnodes n (List.mem_cons_self ..) target b b₁ result hn hb
      obtain ⟨hb₂, hlts, code₂, he₂, hrun₂⟩ :=
        ih (fun m hm => hnodes m (List.mem_cons_of_mem _ hm)) hrest hb₁
      refine ⟨hb₂, ?_, code₁ ++ code₂, he₁.trans he₂, fun env p registers hp hsize => ?_⟩
      · simpa using ⟨Nat.lt_of_lt_of_le hlt he₂.registers, hlts⟩
      rw [meaningAll]
      refine (hrun₁ env p registers (hp.of_emits he₂)
        (Nat.le_trans he₂.registers hsize)).bind he₁.registers ?_
      rintro ⟨v, calls⟩ registers₁ hsize₁ - ⟨hv, hcalls⟩
      obtain rfl : calls = b₁.calls.size := hcalls
      refine (hrun₂ env p registers₁ hp (hsize₁ ▸ hsize)).map ?_
      rintro registers₂ ⟨vs, calls⟩ hframe ⟨hvs, hcalls⟩
      exact ⟨mapM_read_cons.mpr ⟨v, vs, (hframe result hlt).trans hv, hvs, rfl⟩, hcalls⟩

/-- The argument of a parameter. -/
def loaded (env : Environment) (id : Nat) : Except MachineFault Value :=
  match env.args[id]? with
  | some v => .ok v
  | none => .error (.parameterOutOfBounds id env.args.length)

/-- The argument of a parameter, made into the type asked for where the mask tells its own. -/
def fitted (param : Parameter) (target : ValueType) (v : Value) : Except MachineFault Value :=
  match param.supported.single? with
  | some own => v.widened own target
  | none => .ok v

theorem meaning_parameter {env : Environment} {params : List Parameter} {id : Nat}
    {param : Parameter} (h : params[id]? = some param) {target : ValueType} {calls : Nat} :
    meaning env params target (parameter id) calls =
      loaded env id >>= fun v => fitted param target v >>= fun w => .ok (w, calls) := by
  rw [meaning, h, loaded]
  cases env.args[id]? with
  | none => rfl
  | some v =>
    simp only [fitted]
    cases param.supported.single? <;> rfl

theorem convertParameter_computes {param : Parameter} {target : ValueType} {b b' : Builder}
    {dest result : Nat}
    (h : (match param.supported.single? with
      | some own => b.widen dest own target
      | none => pure (dest, b)) = (.ok (result, b') : Except MachineFault (Nat × Builder)))
    (hb : b.Sound) (hdest : dest < b.registers) :
    b'.Sound ∧ dest ≤ result ∧ result < b'.registers ∧ b'.calls = b.calls ∧
      ∃ code, b.Emits b' code ∧ ∀ env p registers v, b'.registers ≤ registers.size →
        registers[dest]? = some v →
        Computes env p code dest registers
          (fun registers v => registers[result]? = some v) (fitted param target v) := by
  simp only [fitted]
  split at h
  · exact Builder.widen_computes h hb hdest
  · obtain ⟨rfl, rfl⟩ := Prod.mk.inj (Except.ok.inj h)
    exact ⟨hb, Nat.le_refl _, hdest, rfl, [], .refl b, fun env p registers v _ hv => .pure hv⟩

/-- The code of a tree computes its meaning. -/
theorem lower_computes {params : List Parameter} {target : ValueType} {node : Node}
    {b b' : Builder} {result : Nat} (h : node.lower params target b = .ok (result, b'))
    (hb : b.Sound) : LowersTo params target node b b' result := by
  induction node using Node.induct generalizing target b b' result with
  | constant v text =>
    rw [lower] at h
    split at h
    · simp at h
    · next w hw =>
      obtain ⟨⟨place, b₁⟩, hliteral, h⟩ := bind_eq_ok_iff.mp h
      obtain ⟨⟨dest, b₂⟩, hdest, h⟩ := bind_eq_ok_iff.mp h
      obtain ⟨rfl, rfl⟩ := Prod.mk.inj (Except.ok.inj h)
      obtain ⟨hb₁, he, hplace, hregisters, hcalls, -⟩ := Builder.addLiteral_eq_ok hb hliteral
      obtain ⟨rfl, rfl⟩ := Builder.allocate_eq_ok hdest
      refine ⟨hb₁, Nat.le_of_eq hregisters.symm, Nat.lt_succ_self _, _,
        (he.trans (Builder.emits_allocate hdest)).trans (Builder.emits_emit _ _),
        fun env p registers hp hsize => ?_⟩
      have hfound : p.literals[place]? = some (env.literal w) := hp.literals w place hplace
      simp only [meaning, hw, Program.lift]
      have hload : Computes env p [.loadLiteral b₁.registers place] b.registers registers
          (fun registers v => registers[b₁.registers]? = some v) (.ok (env.literal w)) := by
        refine .single ?_ hsize (Nat.le_of_eq hregisters.symm)
        rw [Program.effect, hfound]
        rfl
      exact hload.map (f := fun v => (v, b.calls.size)) fun registers' v _ hv =>
        ⟨hv, by simp [Builder.emit, hcalls]⟩
  | parameter id =>
    rw [lower] at h
    obtain ⟨place, hplace, h⟩ := bind_eq_ok_iff.mp h
    rw [(Builder.index_eq_ok_iff.mp hplace).2] at h
    split at h
    · simp [throw, throwThe, MonadExceptOf.throw] at h
    · next param hparam =>
      obtain ⟨⟨dest, b₁⟩, hdest, h⟩ := bind_eq_ok_iff.mp h
      obtain ⟨rfl, rfl⟩ := Builder.allocate_eq_ok hdest
      have hload := (Builder.emits_allocate hdest).trans
        (Builder.emits_emit _ (.loadParameter b.registers id))
      obtain ⟨hb', hle, hlt, hcalls, code, he, hrun⟩ := convertParameter_computes h hb
        (Nat.lt_succ_self _)
      refine ⟨hb', hle, hlt, _, hload.trans he, fun env p registers hp hsize => ?_⟩
      have hdestsize : b.registers < registers.size :=
        Nat.lt_of_lt_of_le (Nat.lt_of_lt_of_le (Nat.lt_succ_self _) he.registers) hsize
      rw [meaning_parameter hparam]
      refine Computes.bind (.single ?_ hdestsize (Nat.le_refl _)) (Nat.le_refl _) ?_
      · rw [Program.effect, loaded]
        cases env.args[id]? <;> rfl
      rintro v registers₁ hsize₁ - hv
      refine (hrun env p registers₁ v (hsize₁ ▸ hsize) hv).map fun registers₂ w _ hw => ?_
      exact ⟨hw, by rw [hcalls]; rfl⟩
  | apply head operands typing ih =>
    rw [lower] at h
    split at h
    · simp at h
    · next s hs =>
      obtain ⟨⟨results, b₁⟩, hall, h⟩ := bind_eq_ok_iff.mp h
      obtain ⟨⟨dest, b₂⟩, hdest, h⟩ := bind_eq_ok_iff.mp h
      obtain ⟨b₃, happly, hwiden⟩ := bind_eq_ok_iff.mp h
      obtain ⟨hb₁, hlts, code₁, he₁, hrun₁⟩ := lowerAll_computes
        (fun n hn target b b' result h hb => ih n hn h hb) hall hb
      obtain ⟨rfl, rfl⟩ := Builder.allocate_eq_ok hdest
      obtain ⟨hb₃, hregisters, hcount, code₂, he₂, hrun₂⟩ :=
        Builder.emitApplication_computes happly hb₁
      have hdest₃ : b₁.registers < b₃.registers := hregisters ▸ Nat.lt_succ_self _
      obtain ⟨hb', hle, hlt, hcalls, code₃, he₃, hrun₃⟩ :=
        Builder.widen_computes hwiden hb₃ hdest₃
      refine ⟨hb', Nat.le_trans he₁.registers hle, hlt, code₁ ++ (code₂ ++ code₃),
        he₁.trans ((Builder.emits_allocate hdest).trans (he₂.trans he₃)),
        fun env p registers hp hsize => ?_⟩
      have hp₃ := hp.of_emits he₃
      have hsize₃ := Nat.le_trans he₃.registers hsize
      have hp₁ := (hp₃.of_emits he₂).of_emits (Builder.emits_allocate hdest)
      simp only [meaning, hs]
      refine (hrun₁ env p registers hp₁ (Nat.le_trans (Nat.le_of_lt hdest₃) hsize₃)).bind
        he₁.registers ?_
      rintro ⟨values, calls⟩ registers₁ hsize₁ - ⟨hvalues, rfl⟩
      refine (hrun₂ env p registers₁ values b₁.registers hp₃ hvalues ?_ (Nat.le_refl _)).bind
        (Nat.le_refl _) ?_
      · omega
      rintro v registers₂ hsize₂ - hv
      refine (hrun₃ env p registers₂ v (by omega) hv).map ?_
      intro registers₃ w _ hw
      exact ⟨hw, by rw [hcalls, hcount]⟩

end Node

/-! ### Running a lowered tree -/

theorem Value.type_canonical (v : Value) : v.canonical.type = v.type := by
  cases v with
  | numeric x =>
    rw [canonical]
    split <;> rfl
  | _ => rfl

namespace Builder

/-- What the table holds for a literal. -/
def literal (b : Builder) (v : Value) : Value :=
  (b.places[v.canonical]?.bind fun place => b.literals[place]?).getD v

/-- The table of literals does not see the sign of a zero, and nothing else is lost. -/
theorem Sound.canonical_literal {b : Builder} (hb : b.Sound) (v : Value) :
    (b.literal v).canonical = v.canonical := by
  rw [literal]
  cases hplace : b.places[v.canonical]? with
  | none => rfl
  | some place =>
    obtain ⟨w, hw, hcanonical⟩ := hb _ _ hplace
    rw [Option.bind_some, hw]
    exact hcanonical

theorem Sound.type_literal {b : Builder} (hb : b.Sound) (v : Value) :
    (b.literal v).type = v.type := by
  rw [← Value.type_canonical, hb.canonical_literal, Value.type_canonical]

theorem Sound.serves {b : Builder} (hb : b.Sound) (registry : Registry) (draws : Draws)
    (tolerance : Option Tolerance.Kind) (args : List Value) (result : Nat) :
    Serves ⟨registry, draws, tolerance, b.literal, args⟩ (b.finish result tolerance) b where
  literals v place hplace := by
    obtain ⟨w, hw, -⟩ := hb _ _ hplace
    simp only [finish, emit, literal, hplace, Option.bind_some, hw, Option.getD_some]
  calls place call h := h
  tolerance := rfl

end Builder

/-- Running the program of a tree gives the meaning of the tree. -/
theorem Node.run_finish {params : List Parameter} {target : ValueType} {node : Node}
    {result : Nat} {b : Builder} (h : node.lower params target {} = .ok (result, b))
    (registry : Registry) (draws : Draws) (tolerance : Option Tolerance.Kind)
    (args : List Value) :
    b.Sound ∧ (b.finish result tolerance).run registry draws args =
      (node.meaning ⟨registry, draws, tolerance, b.literal, args⟩ params target 0).map Prod.fst := by
  obtain ⟨hb, -, hlt, code, he, hrun⟩ := lower_computes h Builder.sound_empty
  refine ⟨hb, ?_⟩
  have hcode : (b.finish result tolerance).instructions.toList = code ++ [.ret result] := by
    simp [Builder.finish, Builder.emit, he.instructions]
  have hregisters : (b.finish result tolerance).registers = b.registers := rfl
  have hcomputes := hrun ⟨registry, draws, tolerance, b.literal, args⟩ (b.finish result tolerance)
    (Array.replicate b.registers (.boolean false)) (hb.serves ..) (by simp)
  rw [Program.run, hcode, hregisters]
  revert hcomputes
  have hcalls : ({} : Builder).calls.size = 0 := rfl
  rw [hcalls]
  cases meaning _ params target node 0 with
  | error fault => exact fun hcomputes => hcomputes [.ret result]
  | ok out =>
    rintro ⟨registers, -, -, ⟨hv, -⟩, hrest⟩
    rw [hrest, Program.execute, Program.effect, read_eq_ok hv]
    rfl

end Formula
